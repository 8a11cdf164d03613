import QuarkOS.Fs.Ext2

/-!
# File descriptors

`hash.c`: the table that leads from a descriptor to its inode, and the hash table that leads back. The
hash table probes at the squares of 0, …, 32 and looks at all these places, so that an entry can be
cleared without a trace. `FdHash.Wf` says that the two tables describe one relation.

An inode is named by its address, and a negative descriptor lies outside the table as one that is too
large does.
-/

namespace QuarkOS

open Function

def fileHashSize : Nat := 1031

def fileHashSqrt : Nat := 32

structure FdHash where
  /-- `none` for a key of `NULL`; the value beside it is not read. -/
  entry : Nat → Option (Nat × Nat)
  fileTable : Nat → Option Nat

namespace FdHash

def hashGenerate (inode : Nat) : Except Fault Nat := do
  assertk (kernelStart < inode)
  .ok ((inode - kernelStart) % fileHashSize)

def hashConflict (index i : Nat) : Nat := (index + i * i) % fileHashSize

def probes (hash : Nat) : List Nat := (List.range (fileHashSqrt + 1)).map (hashConflict hash)

variable (h : FdHash)

def setEntry (index : Nat) (entry : Option (Nat × Nat)) : FdHash :=
  { h with entry := update h.entry index entry }

def setFile (fd : Nat) (inode : Option Nat) : FdHash :=
  { h with fileTable := update h.fileTable fd inode }

def hashInsert (inode fd : Nat) : Except Fault FdHash := do
  let hash ← hashGenerate inode
  match (probes hash).find? fun index => h.entry index = none with
  | some index => .ok (h.setEntry index (some (inode, fd)))
  | none => .error .assertk

/-- The place of the entry of an inode. -/
def hashFindf (inode : Nat) : Except Fault (Option Nat) := do
  let hash ← hashGenerate inode
  .ok ((probes hash).find? fun index => (h.entry index).map Prod.fst = some inode)

def hashDel (inode : Nat) : Except Fault FdHash := do
  match ← h.hashFindf inode with
  | some index => .ok (h.setEntry index none)
  | none => .error .assertk

def getInode (fd : Nat) : Except Fault (Option Nat) :=
  if fd < Fs.fileTableSize then .ok (h.fileTable fd) else .error .undefined

def freeFd (fd : Nat) : Except Fault FdHash := do
  match ← h.getInode fd with
  | none => .error .assertk
  | some inode => (h.setFile fd none).hashDel inode

def allocFd (inode : Nat) : Except Fault (Nat × FdHash) := do
  assertk (inode ≠ 0)
  match ← h.hashFindf inode with
  | some index =>
    match h.entry index with
    | some (_, fd) => .ok (fd, h)
    | none => .error .undefined
  | none =>
    match (List.range Fs.fileTableSize).find? fun fd => h.fileTable fd = none with
    | none => .error .assertk
    | some fd =>
      let h ← (h.setFile fd (some inode)).hashInsert inode fd
      .ok (fd, h)

/-- The two tables describe one relation. -/
structure Wf (h : FdHash) : Prop where
  /-- The entry of an open inode is where it is looked for. -/
  found : ∀ fd inode, h.fileTable fd = some inode →
    ∃ hash, hashGenerate inode = .ok hash ∧ ∃ index ∈ probes hash, h.entry index = some (inode, fd)
  listed : ∀ index inode fd, h.entry index = some (inode, fd) →
    fd < Fs.fileTableSize ∧ h.fileTable fd = some inode
  once : ∀ index index' inode fd fd', h.entry index = some (inode, fd) →
    h.entry index' = some (inode, fd') → index = index'

variable {h h' : FdHash} {inode fd fd' hash index : Nat}

section

variable (hwf : h.Wf) (hfile : h.fileTable fd = some inode)
include hwf hfile

theorem Wf.lt : fd < Fs.fileTableSize := by
  obtain ⟨_, _, index, _, hentry⟩ := hwf.found fd inode hfile
  exact (hwf.listed index inode fd hentry).1

theorem Wf.inj (hfile' : h.fileTable fd' = some inode) : fd = fd' := by
  obtain ⟨_, _, index, _, hentry⟩ := hwf.found fd inode hfile
  obtain ⟨_, _, index', _, hentry'⟩ := hwf.found fd' inode hfile'
  obtain rfl := hwf.once _ _ _ _ _ hentry hentry'
  rw [hentry] at hentry'
  exact (Prod.mk.inj (Option.some.inj hentry')).2

theorem Wf.getInode_eq : h.getInode fd = .ok (some inode) := by
  rw [getInode, if_pos (hwf.lt hfile), hfile]

end

theorem Wf.hashFindf_some (hwf : h.Wf) (hfind : h.hashFindf inode = .ok (some index)) :
    ∃ fd, h.entry index = some (inode, fd) ∧ h.fileTable fd = some inode := by
  obtain ⟨hash, _, hfind⟩ := bind_eq_ok hfind
  have hpred := List.find?_some (Except.ok.inj hfind)
  obtain ⟨⟨key, fd⟩, hentry, hkey⟩ := Option.map_eq_some_iff.1 (of_decide_eq_true hpred)
  dsimp only at hkey
  subst hkey
  exact ⟨fd, hentry, (hwf.listed index key fd hentry).2⟩

theorem Wf.hashFindf_none (hwf : h.Wf) (hfind : h.hashFindf inode = .ok none) :
    ∀ fd, h.fileTable fd ≠ some inode := by
  intro fd hfile
  obtain ⟨hash, hhash, hfind⟩ := bind_eq_ok hfind
  obtain ⟨hash', hhash', index, hmem, hentry⟩ := hwf.found fd inode hfile
  rw [hhash] at hhash'
  cases hhash'
  refine List.find?_eq_none.1 (Except.ok.inj hfind) index hmem (decide_eq_true ?_)
  rw [hentry]
  rfl

theorem Wf.hashFindf_open (hwf : h.Wf) (hfile : h.fileTable fd = some inode) :
    ∃ index, h.hashFindf inode = .ok (some index) ∧ h.entry index = some (inode, fd) := by
  obtain ⟨hash, hhash, _, _, _⟩ := hwf.found fd inode hfile
  have hfindf : h.hashFindf inode = .ok ((probes hash).find? fun index =>
      (h.entry index).map Prod.fst = some inode) := by
    rw [hashFindf, hhash, ok_bind]
  cases hfind : (probes hash).find? fun index => (h.entry index).map Prod.fst = some inode with
  | none =>
    rw [hfind] at hfindf
    exact absurd hfile (hwf.hashFindf_none hfindf fd)
  | some index =>
    rw [hfind] at hfindf
    obtain ⟨fd', hentry, hfile'⟩ := hwf.hashFindf_some hfindf
    obtain rfl := hwf.inj hfile hfile'
    exact ⟨index, hfindf, hentry⟩

theorem Wf.insert (hwf : h.Wf) (hfree : h.fileTable fd = none) (hlt : fd < Fs.fileTableSize)
    (hnew : ∀ fd, h.fileTable fd ≠ some inode)
    (hinsert : (h.setFile fd (some inode)).hashInsert inode fd = .ok h') :
    h'.Wf ∧ h'.fileTable = update h.fileTable fd (some inode) := by
  obtain ⟨hash, hhash, hinsert⟩ := bind_eq_ok hinsert
  have hold : ∀ index inode' fd', h.entry index = some (inode', fd') →
      fd' ≠ fd ∧ inode' ≠ inode := by
    intro index inode' fd' hentry
    have hfile := (hwf.listed _ _ _ hentry).2
    refine ⟨?_, ?_⟩
    · rintro rfl
      exact absurd (hfree.symm.trans hfile) nofun
    · rintro rfl
      exact hnew fd' hfile
  split at hinsert
  · rename_i index hfind
    cases hinsert
    have hpred := List.find?_some hfind
    have hempty : h.entry index = none := of_decide_eq_true hpred
    have hentry : ∀ index', ((h.setFile fd (some inode)).setEntry index (some (inode, fd))).entry
        index' = if index' = index then some (inode, fd) else h.entry index' := by
      intro index'
      exact update_apply ..
    refine ⟨⟨?_, ?_, ?_⟩, rfl⟩
    · intro fd' inode' hfile
      by_cases hfd : fd' = fd
      · subst hfd
        have hinode : some inode = some inode' := by
          rw [← hfile]
          exact (update_self fd' (some inode) h.fileTable).symm
        cases hinode
        exact ⟨hash, hhash, index, List.mem_of_find?_eq_some hfind, by rw [hentry, if_pos rfl]⟩
      · have hfile' : h.fileTable fd' = some inode' := by
          rw [← hfile]
          exact (update_of_ne hfd (some inode) h.fileTable).symm
        obtain ⟨hash', hhash', index', hmem, hentry'⟩ := hwf.found fd' inode' hfile'
        refine ⟨hash', hhash', index', hmem, ?_⟩
        rw [hentry, if_neg, hentry']
        rintro rfl
        exact absurd (hempty.symm.trans hentry') nofun
    · intro index' inode' fd' hentry'
      rw [hentry] at hentry'
      split at hentry'
      · cases hentry'
        exact ⟨hlt, update_self ..⟩
      · obtain ⟨hlt', hfile⟩ := hwf.listed _ _ _ hentry'
        exact ⟨hlt', (update_of_ne (hold _ _ _ hentry').1 ..).trans hfile⟩
    · intro index1 index2 inode' fd1 fd2 h1 h2
      rw [hentry] at h1 h2
      split at h1
      · rename_i heq1
        split at h2
        · rename_i heq2
          rw [heq1, heq2]
        · cases h1
          exact absurd rfl (hold _ _ _ h2).2
      · split at h2
        · cases h2
          exact absurd rfl (hold _ _ _ h1).2
        · exact hwf.once _ _ _ _ _ h1 h2
  · cases hinsert

theorem Wf.allocFd (hwf : h.Wf) (halloc : h.allocFd inode = .ok (fd, h')) :
    h'.Wf ∧ h'.fileTable = update h.fileTable fd (some inode) ∧
      (h.fileTable fd = some inode ∨
        h.fileTable fd = none ∧ ∀ fd', h.fileTable fd' ≠ some inode) := by
  obtain ⟨_, _, halloc⟩ := bind_eq_ok halloc
  obtain ⟨found, hfindf, halloc⟩ := bind_eq_ok halloc
  cases found with
  | some index =>
    obtain ⟨fd', hentry, hfile⟩ := hwf.hashFindf_some hfindf
    dsimp only at halloc
    rw [hentry] at halloc
    cases halloc
    exact ⟨hwf, (update_eq_self_iff.2 hfile.symm).symm, Or.inl hfile⟩
  | none =>
    have hnew := hwf.hashFindf_none hfindf
    dsimp only at halloc
    split at halloc
    · cases halloc
    · rename_i fd' hfind
      obtain ⟨h1, hinsert, halloc⟩ := bind_eq_ok halloc
      cases halloc
      have hpred := List.find?_some hfind
      have hfree : h.fileTable fd = none := of_decide_eq_true hpred
      have hmem := List.mem_of_find?_eq_some hfind
      have hlt : fd < Fs.fileTableSize := by
        rwa [List.mem_range] at hmem
      obtain ⟨hwf', htable⟩ := hwf.insert hfree hlt hnew hinsert
      exact ⟨hwf', htable, Or.inr ⟨hfree, hnew⟩⟩

theorem Wf.freeFd (hwf : h.Wf) (hfile : h.fileTable fd = some inode) :
    ∃ h', h.freeFd fd = .ok h' ∧ h'.Wf ∧ h'.fileTable = update h.fileTable fd none := by
  obtain ⟨index, hfindf, hentry⟩ := hwf.hashFindf_open hfile
  have hfindf' : (h.setFile fd none).hashFindf inode = .ok (some index) := hfindf
  refine ⟨(h.setFile fd none).setEntry index none, ?_, ⟨?_, ?_, ?_⟩, rfl⟩
  · rw [FdHash.freeFd, hwf.getInode_eq hfile, ok_bind]
    dsimp only
    rw [hashDel, hfindf', ok_bind]
  · intro fd' inode' hfile'
    have hne : fd' ≠ fd := by
      rintro rfl
      have hnone : some inode' = none := hfile'.symm.trans (update_self ..)
      cases hnone
    have hold : h.fileTable fd' = some inode' := (update_of_ne hne ..).symm.trans hfile'
    obtain ⟨hash, hhash, index', hmem, hentry'⟩ := hwf.found fd' inode' hold
    refine ⟨hash, hhash, index', hmem, (update_of_ne ?_ ..).trans hentry'⟩
    rintro rfl
    rw [hentry] at hentry'
    exact hne (Prod.mk.inj (Option.some.inj hentry')).2.symm
  · intro index' inode' fd' hentry'
    have hne : index' ≠ index := by
      rintro rfl
      have hnone : some (inode', fd') = none := hentry'.symm.trans (update_self ..)
      cases hnone
    have hold : h.entry index' = some (inode', fd') :=
      (update_of_ne hne ..).symm.trans hentry'
    obtain ⟨hlt, hfile'⟩ := hwf.listed _ _ _ hold
    refine ⟨hlt, (update_of_ne ?_ ..).trans hfile'⟩
    rintro rfl
    rw [hfile] at hfile'
    cases hfile'
    exact hne (hwf.once _ _ _ _ _ hold hentry)
  · intro index1 index2 inode' fd1 fd2 h1 h2
    have hold : ∀ index' inode' fd', ((h.setFile fd none).setEntry index none).entry index' =
        some (inode', fd') → h.entry index' = some (inode', fd') := by
      intro index' inode' fd' hentry'
      refine (update_of_ne ?_ ..).symm.trans hentry'
      rintro rfl
      have hnone : some (inode', fd') = none := hentry'.symm.trans (update_self ..)
      cases hnone
    exact hwf.once _ _ _ _ _ (hold _ _ _ h1) (hold _ _ _ h2)

def empty : FdHash := { entry := fun _ => none, fileTable := fun _ => none }

theorem wf_empty : Wf empty where
  found := nofun
  listed := nofun
  once := nofun

/-- The tables after calls of `alloc_fd` and of `free_fd` for descriptors in use, none of which ended
in an assertion. -/
inductive FdRun : FdHash → Prop
  | start : FdRun empty
  | alloc {h h' : FdHash} {inode fd : Nat} :
      FdRun h → h.allocFd inode = .ok (fd, h') → FdRun h'
  | free {h h' : FdHash} {fd : Nat} :
      FdRun h → h.fileTable fd ≠ none → h.freeFd fd = .ok h' → FdRun h'

theorem FdRun.wf (hrun : FdRun h) : h.Wf := by
  induction hrun with
  | start => exact wf_empty
  | alloc _ halloc ih => exact (ih.allocFd halloc).1
  | free _ hlive hfree ih =>
    obtain ⟨inode, hfile⟩ := Option.ne_none_iff_exists'.1 hlive
    obtain ⟨h1, hfree1, hwf, _⟩ := ih.freeFd hfile
    cases hfree1.symm.trans hfree
    exact hwf

def Live (h : FdHash) (inode : Nat) : Prop := ∃ fd, h.fileTable fd = some inode

theorem Wf.file_iff (hwf : h.Wf) :
    h.fileTable fd = some inode ↔ ∃ index, h.entry index = some (inode, fd) := by
  constructor
  · intro hfile
    obtain ⟨_, _, index, _, hentry⟩ := hwf.found fd inode hfile
    exact ⟨index, hentry⟩
  · rintro ⟨index, hentry⟩
    exact (hwf.listed index inode fd hentry).2

theorem Wf.slot_unique (hwf : h.Wf) (hlive : h.Live inode) :
    ∃! index, (h.entry index).map Prod.fst = some inode := by
  obtain ⟨fd, hfile⟩ := hlive
  obtain ⟨index, hentry⟩ := hwf.file_iff.1 hfile
  refine ⟨index, by dsimp only; rw [hentry]; rfl, ?_⟩
  intro index' hkey
  obtain ⟨⟨inode', fd'⟩, hentry', hinode⟩ := Option.map_eq_some_iff.1 hkey
  dsimp only at hinode
  subst hinode
  exact hwf.once _ _ _ _ _ hentry' hentry

theorem hashGenerate_of_lt (hlt : kernelStart < inode) :
    hashGenerate inode = .ok ((inode - kernelStart) % fileHashSize) := by
  rw [hashGenerate, assertk_pos hlt]

theorem Wf.hashFindf_iff (hwf : h.Wf) : (∃ index, h.hashFindf inode = .ok (some index)) ↔ h.Live inode := by
  constructor
  · rintro ⟨index, hfind⟩
    obtain ⟨fd, _, hfile⟩ := hwf.hashFindf_some hfind
    exact ⟨fd, hfile⟩
  · rintro ⟨fd, hfile⟩
    obtain ⟨index, hfind, _⟩ := hwf.hashFindf_open hfile
    exact ⟨index, hfind⟩

theorem Wf.hashFindf_absent (hwf : h.Wf) (hlt : kernelStart < inode) (habsent : ¬h.Live inode) :
    h.hashFindf inode = .ok none := by
  have hfindf : h.hashFindf inode = .ok (List.find? (fun index =>
      decide ((h.entry index).map Prod.fst = some inode))
        (probes ((inode - kernelStart) % fileHashSize))) := by
    rw [hashFindf, hashGenerate_of_lt hlt, ok_bind]
  rw [hfindf, List.find?_eq_none.2]
  intro index _ hkey
  obtain ⟨⟨inode', fd⟩, hentry, hinode⟩ := Option.map_eq_some_iff.1 (of_decide_eq_true hkey)
  dsimp only at hinode
  subst hinode
  exact habsent ⟨fd, (hwf.listed _ _ _ hentry).2⟩

theorem Wf.allocFd_live (hwf : h.Wf) (hfile : h.fileTable fd = some inode) :
    h.allocFd inode = .ok (fd, h) := by
  obtain ⟨index, hfind, hentry⟩ := hwf.hashFindf_open hfile
  obtain ⟨hash, hhash, _⟩ := bind_eq_ok hfind
  obtain ⟨_, hassert, _⟩ := bind_eq_ok hhash
  have hlt : kernelStart < inode := of_assertk hassert
  have hne : inode ≠ 0 := by omega
  rw [FdHash.allocFd, assertk_pos hne, hfind, ok_bind]
  dsimp only
  rw [hentry]

/-- Along every run the two tables are inverse to each other. -/
theorem fdRun_inverse (hrun : FdRun h) :
    (∀ fd inode, h.fileTable fd = some inode ↔ ∃ index, h.entry index = some (inode, fd)) ∧
    (∀ inode fd h', h.allocFd inode = .ok (fd, h') → h'.getInode fd = .ok (some inode)) ∧
    (∀ fd inode, h.fileTable fd = some inode → h.allocFd inode = .ok (fd, h)) ∧
    (∀ fd fd' inode, h.fileTable fd = some inode → h.fileTable fd' = some inode → fd = fd') ∧
    (∀ inode, (∃ index, h.hashFindf inode = .ok (some index)) ↔ h.Live inode) ∧
    (∀ inode, kernelStart < inode → ¬h.Live inode → h.hashFindf inode = .ok none) ∧
    (∀ inode, h.Live inode → ∃! index, (h.entry index).map Prod.fst = some inode) ∧
    ∀ fd, h.fileTable fd ≠ none → ∃ h', h.freeFd fd = .ok h' := by
  have hwf := hrun.wf
  refine ⟨fun _ _ => hwf.file_iff, ?_, fun _ _ => hwf.allocFd_live, fun _ _ _ => hwf.inj,
    fun _ => hwf.hashFindf_iff, fun _ => hwf.hashFindf_absent, fun _ => hwf.slot_unique, ?_⟩
  · intro inode fd h' halloc
    obtain ⟨hwf', htable, _⟩ := hwf.allocFd halloc
    have hfile : h'.fileTable fd = some inode := by
      rw [htable]
      exact update_self ..
    exact hwf'.getInode_eq hfile
  · intro fd hlive
    obtain ⟨inode, hfile⟩ := Option.ne_none_iff_exists'.1 hlive
    obtain ⟨h', hfree, _⟩ := hwf.freeFd hfile
    exact ⟨h', hfree⟩

/-- The inodes with a descriptor, in the order of the descriptors. -/
def liveInodes (h : FdHash) : List Nat := (List.range Fs.fileTableSize).filterMap h.fileTable

def allocFds (inodes : List Nat) (h : FdHash) : Except Fault FdHash :=
  inodes.foldlM (fun h inode => Prod.snd <$> h.allocFd inode) h

theorem FdRun.allocFds {inodes : List Nat} (hrun : FdRun h) (hall : allocFds inodes h = .ok h') :
    FdRun h' := by
  induction inodes generalizing h with
  | nil =>
    cases hall
    exact hrun
  | cons inode inodes ih =>
    rw [FdHash.allocFds, List.foldlM_cons] at hall
    obtain ⟨h1, halloc, hall⟩ := bind_eq_ok hall
    cases hstep : h.allocFd inode with
    | error fault =>
      rw [hstep] at halloc
      cases halloc
    | ok r =>
      rw [hstep] at halloc
      cases halloc
      exact ih (.alloc hrun hstep) hall

def collidingInode (k : Nat) : Nat := kernelStart + 128 * fileHashSize * (k + 1)

/-- Two inodes of one hash are opened and the first of them is closed. The second one is found behind
the place that has become empty. -/
theorem exists_collided : ∃ h, FdRun h ∧ h.fileTable 0 = none ∧
    h.fileTable 1 = some (collidingInode 1) ∧ h.entry 0 = none ∧ h.liveInodes = [collidingInode 1] := by
  obtain ⟨h, hrun⟩ := exists_ok (x := do
    let h ← allocFds [collidingInode 0, collidingInode 1] empty
    assertk (h.fileTable 0 ≠ none)
    let h ← h.freeFd 0
    assertk (h.fileTable 0 = none ∧ h.fileTable 1 = some (collidingInode 1) ∧ h.entry 0 = none ∧
      h.liveInodes = [collidingInode 1])
    Except.ok h) (by decide +kernel)
  simp only [bind_ok_iff] at hrun
  obtain ⟨h1, hall, _, hlive, h2, hfree, _, hafter, _⟩ := hrun
  exact ⟨h2, .free (FdRun.start.allocFds hall) (of_assertk hlive) hfree,
    of_assertk hafter⟩

theorem fdRun_inverse_collided : ∃ h, FdRun h ∧ h.entry 0 = none ∧
    h.fileTable 1 = some (collidingInode 1) ∧ (∃ index, h.entry index = some (collidingInode 1, 1)) ∧
    h.allocFd (collidingInode 1) = .ok (1, h) ∧ ∃ h', h.freeFd 1 = .ok h' := by
  obtain ⟨h, hrun, _, hfile, hempty, _⟩ := exists_collided
  obtain ⟨hinverse, _, halloc, _, _, _, _, hfree⟩ := fdRun_inverse hrun
  exact ⟨h, hrun, hempty, hfile, (hinverse _ _).1 hfile, halloc _ _ hfile, hfree 1 (by simp [hfile])⟩

theorem exists_free_of_liveInodes (hroom : h.liveInodes.length < Fs.fileTableSize) :
    ∃ fd, (List.range Fs.fileTableSize).find? (fun fd => decide (h.fileTable fd = none)) =
      some fd := by
  rw [← Option.isSome_iff_exists, List.find?_isSome]
  by_contra hfull
  have hlength : h.liveInodes.length = (List.range Fs.fileTableSize).length := by
    rw [liveInodes, List.filterMap_length_eq_length]
    intro fd hmem
    rw [← Option.ne_none_iff_isSome]
    intro hnone
    exact hfull ⟨fd, hmem, decide_eq_true hnone⟩
  rw [List.length_range] at hlength
  omega

/-- While a descriptor is left, a further inode gets one exactly when one of the places where it may
stand in the hash table is empty. -/
theorem fdRun_allocFd_iff (hrun : FdRun h) (hroom : h.liveInodes.length < Fs.fileTableSize)
    (hlt : kernelStart < inode) (hnew : ¬h.Live inode) :
    (∃ fd h', h.allocFd inode = .ok (fd, h')) ↔
      ∃ index ∈ probes ((inode - kernelStart) % fileHashSize), h.entry index = none := by
  obtain ⟨fd, hfd⟩ := exists_free_of_liveInodes hroom
  have hne : inode ≠ 0 := by omega
  have halloc : h.allocFd inode = (do
      let h ← (h.setFile fd (some inode)).hashInsert inode fd
      .ok (fd, h)) := by
    rw [allocFd, assertk_pos hne, hrun.wf.hashFindf_absent hlt hnew, ok_bind]
    dsimp only
    rw [hfd]
  rw [halloc, hashInsert, hashGenerate_of_lt hlt, ok_bind]
  constructor
  · rintro ⟨_, _, hok⟩
    obtain ⟨_, hinsert, _⟩ := bind_eq_ok hok
    split at hinsert
    · rename_i index hfind
      have hempty := List.find?_some hfind
      exact ⟨index, List.mem_of_find?_eq_some hfind, of_decide_eq_true hempty⟩
    · cases hinsert
  · rintro ⟨index, hmem, hempty⟩
    split
    · exact ⟨fd, _, rfl⟩
    · rename_i hfind
      exact absurd (decide_eq_true hempty) (List.find?_eq_none.1 hfind index hmem)

theorem fdRun_allocFd_collided : ∃ h fd h', FdRun h ∧ h.liveInodes = [collidingInode 1] ∧
    h.allocFd (collidingInode 2) = .ok (fd, h') := by
  obtain ⟨h, hrun, _, _, hempty, hlive⟩ := exists_collided
  have hnew : ¬h.Live (collidingInode 2) := by
    rintro ⟨fd, hfile⟩
    have hmem : collidingInode 2 ∈ h.liveInodes :=
      List.mem_filterMap.2 ⟨fd, List.mem_range.2 (hrun.wf.lt hfile), hfile⟩
    rw [hlive] at hmem
    revert hmem
    decide
  obtain ⟨fd, h', halloc⟩ := (fdRun_allocFd_iff hrun (by rw [hlive]; decide) (by decide) hnew).2
    ⟨0, by decide +kernel, hempty⟩
  exact ⟨h, fd, h', hrun, hlive, halloc⟩

/-- With 33 inodes of one hash open, one more cannot be opened. -/
theorem fdRun_allocFd_full : ∃ h, FdRun h ∧ h.liveInodes.length < Fs.fileTableSize ∧
    kernelStart < collidingInode 33 ∧ ¬h.Live (collidingInode 33) ∧
      h.allocFd (collidingInode 33) = .error .assertk := by
  have hrun : ∃ h, (do
      let h ← allocFds ((List.range 33).map collidingInode) empty
      assertk (h.liveInodes.length < Fs.fileTableSize)
      assertk (faults (h.allocFd (collidingInode 33)) .assertk)
      Except.ok h) = .ok h := exists_ok (by decide +kernel)
  obtain ⟨h, hrun⟩ := hrun
  simp only [bind_ok_iff] at hrun
  obtain ⟨h1, hall, _, hroom, _, hfault, _⟩ := hrun
  have hstop := eq_error_of_faults (assertk_eq_ok hfault)
  have hrun1 : FdRun h1 := FdRun.start.allocFds hall
  refine ⟨h1, hrun1, of_assertk hroom, by decide, ?_, hstop⟩
  rintro ⟨fd, hfile⟩
  rw [hrun1.wf.allocFd_live hfile] at hstop
  cases hstop

end FdHash

end QuarkOS
