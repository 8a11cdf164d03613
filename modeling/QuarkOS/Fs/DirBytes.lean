import Mathlib.Data.List.Nodup
import QuarkOS.Fs.DirBlock

/-!
# The bytes of a directory block

The loops of `dir.c` on the bytes of a block. An entry is a header of eight bytes, the number of the inode,
the size of the entry, the length of the name and the type, and then the name. `for_each_dir` goes on by
the size that it reads from the block, and nothing else keeps it going or within the block: a scan ends if
it comes to no entry of size zero, and stays inside if the fields it reads do.

A read outside the block is undefined. An offset is one into the page, and the block starts the page.
-/

namespace QuarkOS

open Bytes

namespace DirBytes

def field (blockSize : Nat) (a : Area) (off w : Nat) : Except Fault Nat :=
  if off + w ≤ blockSize then .ok (load a off w) else .error .undefined

section Fields

variable (blockSize : Nat) (a : Area) (dir : Nat)

def inode : Except Fault Nat := field blockSize a dir 4

def entrySize : Except Fault Nat := field blockSize a (dir + 4) 2

def nameLen : Except Fault Nat := field blockSize a (dir + 6) 1

/-- `DIR_END`: the block size is a power of two, so the mask rounds down. -/
def dirEnd : Nat := dir / blockSize * blockSize + blockSize

/-- `for_each_dir` with a body that may end the loop, and the entries it was at. -/
def forEachDir {β : Type} (body : Nat → Except Fault (Option β)) (stop : Nat) :
    Nat → Nat → Except Fault (List Nat × Option β)
  | 0, _ => .error .spin
  | fuel + 1, dir =>
    if dir < stop then do
      match ← body dir with
      | some b => .ok ([dir], some b)
      | none => do
        let size ← entrySize blockSize a dir
        let (visited, b) ← forEachDir body stop fuel (dir + size)
        .ok (dir :: visited, b)
    else .ok ([], none)

/-- `memcmp` with the bytes at an offset, up to the first that differs. -/
def memcmp : Name → Nat → Except Fault Bool
  | [], _ => .ok true
  | c :: name, off => do
    let b ← field blockSize a off 1
    if b = c.toNat then memcmp name (off + 1) else .ok false

/-- The test of `find_entry_disk` and `remove_from_parent`. -/
def isEntry (name : Name) : Except Fault (Option Nat) := do
  let ino ← inode blockSize a dir
  if ino = 0 then .ok none
  else do
    let len ← nameLen blockSize a dir
    if len ≠ name.length then .ok none
    else do
      let same ← memcmp blockSize a name (dir + sizeofExt2Dir)
      if same then .ok (some dir) else .ok none

/-- The test of `dir_empty`, which ends the loop at an entry other than `.` and `..`. -/
def isOther : Except Fault (Option Unit) := do
  let ino ← inode blockSize a dir
  if ino = 0 then .ok none
  else do
    let c ← field blockSize a (dir + sizeofExt2Dir) 1
    if c ≠ 0x2e then .ok (some ())
    else do
      let len ← nameLen blockSize a dir
      if len = 1 then .ok none
      else if len ≠ 2 then .ok (some ())
      else do
        let c ← field blockSize a (dir + sizeofExt2Dir + 1) 1
        if c = 0x2e then .ok none else .ok (some ())

/-- The loop of `merge_dir_entry`, which adds up the sizes of the empty entries. -/
def mergeLoop (stop : Nat) : Nat → Nat → Nat → Except Fault Nat
  | 0, _, _ => .error .spin
  | fuel + 1, hdr, size =>
    if hdr < stop then do
      let ino ← inode blockSize a hdr
      if ino ≠ 0 then .ok size
      else do
        let step ← entrySize blockSize a hdr
        mergeLoop stop fuel (hdr + step) (size + step)
    else .ok size

end Fields

section Loops

variable (blockSize fuel : Nat) (a : Area)

def findEntryDisk (name : Name) : Except Fault (List Nat × Option Nat) :=
  forEachDir blockSize a (fun dir => isEntry blockSize a dir name) (dirEnd blockSize 0) fuel 0

def dirEmpty : Except Fault (List Nat × Option Unit) :=
  forEachDir blockSize a (isOther blockSize a) (dirEnd blockSize 0) fuel 0

def mergeDirEntry (dir : Nat) : Except Fault Area := do
  let ino ← inode blockSize a dir
  if ino ≠ 0 then .ok a
  else do
    let size ← mergeLoop blockSize a (dirEnd blockSize dir) fuel dir 0
    .ok (store a (dir + 4) 2 size)

def removeFromParent (name : Name) : Except Fault (List Nat × Option Area) := do
  let (visited, found) ← findEntryDisk blockSize fuel a name
  match found with
  | none => .ok (visited, none)
  | some dir => do
    let a ← mergeDirEntry blockSize fuel (store a dir 4 0) dir
    .ok (visited, some a)

end Loops

/-- The entries that a loop from `start` on comes to, when it ends at those with the property `stops`. -/
inductive Visits (blockSize : Nat) (a : Area) (stops : Nat → Prop) (start : Nat) : Nat → Prop
  | start (hlt : start < blockSize) : Visits blockSize a stops start start
  | next {dir : Nat} (hdir : Visits blockSize a stops start dir) (hgo : ¬ stops dir)
      (hlt : dir + load a (dir + 4) 2 < blockSize) :
      Visits blockSize a stops start (dir + load a (dir + 4) 2)

/-- The size of the entry is inside the block and leads on. -/
def GoesOn (blockSize : Nat) (a : Area) (dir : Nat) : Prop :=
  dir + 6 ≤ blockSize ∧ load a (dir + 4) 2 ≠ 0

variable {blockSize start dir fuel : Nat} {a : Area} {stops reads : Nat → Prop} {β : Type}
  {body : Nat → Except Fault (Option β)} {visited : List Nat} {r : Option β} {name : Name}

theorem field_ok {off w : Nat} (h : off + w ≤ blockSize) : field blockSize a off w = .ok (load a off w) :=
  if_pos h

theorem field_eq_ok {off w n : Nat} :
    field blockSize a off w = .ok n ↔ off + w ≤ blockSize ∧ load a off w = n := by
  rw [field]
  split
  · rename_i hin
    exact ⟨fun h => ⟨hin, Except.ok.inj h⟩, fun h => congrArg Except.ok h.2⟩
  · rename_i hout
    exact ⟨nofun, fun h => absurd h.1 hout⟩

theorem entrySize_eq_ok {size : Nat} : entrySize blockSize a dir = .ok size ↔
    dir + 6 ≤ blockSize ∧ load a (dir + 4) 2 = size := field_eq_ok

/-- A test returns if what it reads is inside the block, and says whether the loop ends. -/
structure Test (x : Except Fault (Option β)) (reads stops : Prop) : Prop where
  inside : ∀ r, x = .ok r → reads
  ends : ∀ r, x = .ok r → (r.isSome ↔ stops)
  returns : reads → ∃ r, x = .ok r

def Tests (body : Nat → Except Fault (Option β)) (reads stops : Nat → Prop) : Prop :=
  ∀ dir, Test (body dir) (reads dir) (stops dir)

namespace Test

variable {α : Type} {x y : Except Fault (Option β)} {R S R' S' : Prop}

theorem none : Test (.ok none : Except Fault (Option β)) True False where
  inside _ _ := trivial
  ends _ h := by
    cases h
    exact ⟨nofun, False.elim⟩
  returns _ := ⟨_, rfl⟩

theorem some (b : β) : Test (.ok (some b)) True True where
  inside _ _ := trivial
  ends _ h := by
    cases h
    exact ⟨fun _ => trivial, fun _ => rfl⟩
  returns _ := ⟨_, rfl⟩

theorem ite {c : Prop} [Decidable c] (hx : Test x R S) (hy : Test y R' S') :
    Test (if c then x else y) ((c → R) ∧ (¬ c → R')) (c ∧ S ∨ ¬ c ∧ S') := by
  by_cases hc : c
  · simpa only [hc, if_true, true_imp_iff, not_true, false_imp_iff, and_true, true_and, false_and, or_false]
      using hx
  · simpa only [hc, if_false, true_imp_iff, not_false_iff, false_imp_iff, true_and, false_and, false_or]
      using hy

theorem bind {z : Except Fault α} {f : α → Except Fault (Option β)} {v : α}
    (hz : ∀ v', z = .ok v' ↔ R ∧ v = v') (hf : Test (f v) R' S) : Test (z >>= f) (R ∧ R') S where
  inside r h := by
    obtain ⟨v', hv', h⟩ := bind_eq_ok h
    obtain ⟨hR, rfl⟩ := (hz v').1 hv'
    exact ⟨hR, hf.inside r h⟩
  ends r h := by
    obtain ⟨v', hv', h⟩ := bind_eq_ok h
    obtain ⟨_, rfl⟩ := (hz v').1 hv'
    exact hf.ends r h
  returns h := by
    rw [(hz v).2 ⟨h.1, rfl⟩, ok_bind]
    exact hf.returns h.2

theorem congr (h : Test x R S) (hR : R ↔ R') (hS : S ↔ S') : Test x R' S' where
  inside r hr := hR.1 (h.inside r hr)
  ends r hr := (h.ends r hr).trans hS
  returns hr := h.returns (hR.2 hr)

end Test

theorem Visits.first (h : Visits blockSize a stops (start + load a (start + 4) 2) dir)
    (hgo : ¬ stops start) (hlt : start < blockSize) : Visits blockSize a stops start dir := by
  induction h with
  | start hlt' => exact .next (.start hlt) hgo hlt'
  | next _ hgo' hlt' ih => exact .next ih hgo' hlt'

section

variable (h : Visits blockSize a stops start dir)
include h

theorem Visits.cases_start :
    dir = start ∨ ¬ stops start ∧ Visits blockSize a stops (start + load a (start + 4) 2) dir := by
  induction h with
  | start _ => exact .inl rfl
  | next _ hgo hlt ih =>
    rcases ih with rfl | ⟨hstart, hdir⟩
    · exact .inr ⟨hgo, .start hlt⟩
    · exact .inr ⟨hstart, hdir.next hgo hlt⟩

theorem Visits.start_lt : start < blockSize := by
  induction h with
  | start hlt => exact hlt
  | next _ _ _ ih => exact ih

theorem Visits.lt : dir < blockSize := by
  cases h with
  | start hlt => exact hlt
  | next _ _ hlt => exact hlt

end

theorem forEachDir_stuck (hlt : dir < blockSize) (hbody : body dir = .ok none)
    (hsize : load a (dir + 4) 2 = 0) :
    forEachDir blockSize a body blockSize fuel dir ≠ .ok (visited, r) := by
  induction fuel generalizing visited with
  | zero => exact nofun
  | succ fuel ih =>
    intro h
    rw [forEachDir, if_pos hlt, hbody, ok_bind] at h
    obtain ⟨size, hsize', h⟩ := bind_eq_ok h
    obtain ⟨⟨rest, r'⟩, hrest, hret⟩ := bind_eq_ok h
    obtain ⟨_, rfl⟩ := entrySize_eq_ok.1 hsize'
    rw [hsize, Nat.add_zero] at hrest
    cases hret
    exact ih hrest

section

variable (htests : Tests body reads stops)
include htests

theorem forEachDir_visits (h : forEachDir blockSize a body blockSize fuel start = .ok (visited, r))
    (hdir : Visits blockSize a stops start dir) : reads dir ∧ (¬ stops dir → GoesOn blockSize a dir) := by
  induction fuel generalizing start visited with
  | zero => cases h
  | succ fuel ih =>
    rw [forEachDir, if_pos hdir.start_lt] at h
    obtain ⟨r', hbody, h⟩ := bind_eq_ok h
    cases r' with
    | some b =>
      have hstops : stops start := ((htests start).ends _ hbody).1 rfl
      rcases hdir.cases_start with rfl | ⟨hgo, _⟩
      · exact ⟨(htests dir).inside _ hbody, fun hgo => absurd hstops hgo⟩
      · exact absurd hstops hgo
    | none =>
      obtain ⟨size, hsize, h⟩ := bind_eq_ok h
      obtain ⟨⟨rest, r'⟩, hrest, hret⟩ := bind_eq_ok h
      obtain ⟨hin, rfl⟩ := entrySize_eq_ok.1 hsize
      cases hret
      rcases hdir.cases_start with rfl | ⟨_, hdir⟩
      · refine ⟨(htests dir).inside _ hbody, fun _ => ⟨hin, fun hzero => ?_⟩⟩
        rw [hzero, Nat.add_zero] at hrest
        exact forEachDir_stuck hdir.lt hbody hzero hrest
      · exact ih hrest hdir

/-- A loop that comes to entries of some size, inside the block, ends, and is at each of them once. -/
theorem forEachDir_returns
    (h : ∀ dir, Visits blockSize a stops start dir → reads dir ∧ (¬ stops dir → GoesOn blockSize a dir)) :
    ∃ fuel visited r, forEachDir blockSize a body blockSize fuel start = .ok (visited, r) ∧
      visited.Nodup ∧ ∀ dir ∈ visited, start ≤ dir := by
  induction hn : blockSize - start using Nat.strong_induction_on generalizing start with
  | _ n ih =>
    by_cases hlt : start < blockSize
    · obtain ⟨hreads, hgoes⟩ := h start (.start hlt)
      obtain ⟨r, hbody⟩ := (htests start).returns hreads
      cases r with
      | some b =>
        refine ⟨1, [start], some b, ?_, List.nodup_singleton _, fun dir hdir => ?_⟩
        · rw [forEachDir, if_pos hlt, hbody, ok_bind]
        · exact (List.mem_singleton.1 hdir).ge
      | none =>
        have hgo : ¬ stops start := fun hstops => absurd (((htests start).ends _ hbody).2 hstops) nofun
        obtain ⟨hin, hne⟩ := hgoes hgo
        have hsize : entrySize blockSize a start = .ok (load a (start + 4) 2) :=
          entrySize_eq_ok.2 ⟨hin, rfl⟩
        obtain ⟨fuel, visited, r, hrest, hnodup, hle⟩ := ih (blockSize - (start + load a (start + 4) 2))
          (by omega) (fun dir hdir => h dir (hdir.first hgo hlt)) rfl
        refine ⟨fuel + 1, start :: visited, r, ?_, List.nodup_cons.2 ⟨fun hmem => ?_, hnodup⟩, ?_⟩
        · rw [forEachDir, if_pos hlt, hbody, ok_bind]
          dsimp only
          rw [hsize, ok_bind, hrest, ok_bind]
        · have := hle start hmem
          omega
        · intro dir hdir
          rcases List.mem_cons.1 hdir with rfl | hdir
          · exact Nat.le_refl dir
          · have := hle dir hdir
            omega
    · exact ⟨1, [], none, by rw [forEachDir, if_neg hlt], List.nodup_nil, nofun⟩

theorem forEachDir_iff : (∃ fuel visited r,
      forEachDir blockSize a body blockSize fuel start = .ok (visited, r) ∧ visited.Nodup) ↔
      ∀ dir, Visits blockSize a stops start dir → reads dir ∧ (¬ stops dir → GoesOn blockSize a dir) := by
  constructor
  · rintro ⟨fuel, visited, r, h, _⟩ dir hdir
    exact forEachDir_visits htests h hdir
  · intro h
    obtain ⟨fuel, visited, r, hok, hnodup, _⟩ := forEachDir_returns htests h
    exact ⟨fuel, visited, r, hok, hnodup⟩

theorem forEachDir_found (h : forEachDir blockSize a body blockSize fuel start = .ok (visited, r)) :
    (∀ dir, Visits blockSize a stops start dir → stops dir → body dir = .ok r) ∧
      (r.isSome → ∃ dir, Visits blockSize a stops start dir ∧ stops dir ∧ body dir = .ok r) := by
  induction fuel generalizing start visited with
  | zero => cases h
  | succ fuel ih =>
    rw [forEachDir] at h
    split at h
    · rename_i hlt
      obtain ⟨r', hbody, h⟩ := bind_eq_ok h
      have hends := (htests start).ends r' hbody
      cases r' with
      | some b =>
        cases h
        refine ⟨fun dir hdir hstops => ?_, fun _ => ⟨start, .start hlt, hends.1 rfl, hbody⟩⟩
        rcases hdir.cases_start with rfl | ⟨hgo, _⟩
        · exact hbody
        · exact absurd (hends.1 rfl) hgo
      | none =>
        obtain ⟨size, hsize, h⟩ := bind_eq_ok h
        obtain ⟨⟨rest, r'⟩, hrest, hret⟩ := bind_eq_ok h
        obtain ⟨_, rfl⟩ := entrySize_eq_ok.1 hsize
        cases hret
        have hgo : ¬ stops start := fun hstops => absurd (hends.2 hstops) nofun
        obtain ⟨hall, hsome⟩ := ih hrest
        refine ⟨fun dir hdir hstops => ?_, fun hr => ?_⟩
        · rcases hdir.cases_start with rfl | ⟨_, hdir⟩
          · exact absurd hstops hgo
          · exact hall dir hdir hstops
        · obtain ⟨dir, hdir, hfound⟩ := hsome hr
          exact ⟨dir, hdir.first hgo hlt, hfound⟩
    · rename_i hge
      cases h
      exact ⟨fun dir hdir _ => absurd hdir.start_lt hge, nofun⟩

end

theorem forEachDir_mono {fuel' : Nat} (hle : fuel ≤ fuel')
    (h : forEachDir blockSize a body blockSize fuel start = .ok (visited, r)) :
    forEachDir blockSize a body blockSize fuel' start = .ok (visited, r) := by
  induction fuel generalizing fuel' start visited with
  | zero => cases h
  | succ fuel ih =>
    obtain ⟨fuel', rfl⟩ := Nat.exists_eq_add_of_le' (Nat.le_trans (Nat.le_add_left 1 fuel) hle)
    rw [forEachDir] at h ⊢
    split
    · rename_i hlt
      rw [if_pos hlt] at h
      obtain ⟨r', hbody, h⟩ := bind_eq_ok h
      rw [hbody, ok_bind]
      cases r' with
      | some b => exact h
      | none =>
        obtain ⟨size, hsize, h⟩ := bind_eq_ok h
        obtain ⟨⟨rest, r'⟩, hrest, hret⟩ := bind_eq_ok h
        cases hret
        dsimp only
        rw [hsize, ok_bind, ih (by omega) hrest, ok_bind]
    · rename_i hge
      rwa [if_neg hge] at h

/-- The bytes that are compared with a name are in the block. -/
def CmpInside (blockSize : Nat) (a : Area) : Name → Nat → Prop
  | [], _ => True
  | c :: name, off => off < blockSize ∧ (a off = c → CmpInside blockSize a name (off + 1))

theorem slice_cons (a : Area) (off n : Nat) : slice a off (n + 1) = a off :: slice a (off + 1) n := by
  rw [Nat.add_comm n 1, slice_add]
  rfl

theorem memcmp_eq_ok {off : Nat} {same : Bool} : memcmp blockSize a name off = .ok same ↔
    CmpInside blockSize a name off ∧ decide (slice a off name.length = name) = same := by
  induction name generalizing off with
  | nil => exact ⟨fun h => ⟨trivial, Except.ok.inj h⟩, fun h => congrArg Except.ok h.2⟩
  | cons c name ih =>
    rw [memcmp, CmpInside, List.length_cons, slice_cons]
    by_cases hin : off < blockSize
    · rw [field_ok hin, ok_bind]
      by_cases hbyte : a off = c
      · have heq : load a off 1 = c.toNat := congrArg BitVec.toNat hbyte
        rw [if_pos heq, ih, hbyte]
        simp only [hin, true_and, true_imp_iff, List.cons.injEq]
      · have hne : load a off 1 ≠ c.toNat := fun h => hbyte (BitVec.eq_of_toNat_eq h)
        rw [if_neg hne]
        simp [hin, hbyte]
    · rw [field, if_neg (show ¬ off + 1 ≤ blockSize from hin)]
      exact ⟨nofun, fun h => absurd h.1.1 hin⟩

def Live (a : Area) (dir : Nat) : Prop := load a dir 4 ≠ 0

def Hit (a : Area) (name : Name) (dir : Nat) : Prop :=
  Live a dir ∧ load a (dir + 6) 1 = name.length ∧ slice a (dir + sizeofExt2Dir) name.length = name

/-- What is read of an entry to compare its name is in the block. -/
def HitInside (blockSize : Nat) (a : Area) (name : Name) (dir : Nat) : Prop :=
  dir + 4 ≤ blockSize ∧ (Live a dir → dir + 7 ≤ blockSize ∧
    (load a (dir + 6) 1 = name.length → CmpInside blockSize a name (dir + sizeofExt2Dir)))

theorem isEntry_tests (name : Name) :
    Tests (fun dir => isEntry blockSize a dir name) (HitInside blockSize a name) (Hit a name) := by
  intro dir
  have h : Test (isEntry blockSize a dir name) _ _ := .bind (fun _ => field_eq_ok) (.ite .none
    (.bind (fun _ => field_eq_ok) (.ite .none (.bind (fun _ => memcmp_eq_ok) (.ite (.some dir) .none)))))
  refine h.congr ?_ ?_
  · simp only [HitInside, Live, ne_eq, not_not, decide_eq_true_eq, implies_true, and_self, and_true, true_and]
  · simp [Hit, Live]

theorem eq_dot {off : Nat} : load a off 1 = 0x2e ↔ a off = 0x2e :=
  ⟨fun h => BitVec.eq_of_toNat_eq h, fun h => congrArg BitVec.toNat h⟩

/-- The name is neither `.` nor `..`. -/
def Other (a : Area) (dir : Nat) : Prop :=
  Live a dir ∧ ¬ (a (dir + sizeofExt2Dir) = 0x2e ∧
    (load a (dir + 6) 1 = 1 ∨ load a (dir + 6) 1 = 2 ∧ a (dir + sizeofExt2Dir + 1) = 0x2e))

/-- What is read of an entry to tell `.` and `..` from other names is in the block. -/
def OtherInside (blockSize : Nat) (a : Area) (dir : Nat) : Prop :=
  dir + 4 ≤ blockSize ∧ (Live a dir → dir + 9 ≤ blockSize ∧
    (a (dir + sizeofExt2Dir) = 0x2e → load a (dir + 6) 1 = 2 → dir + 10 ≤ blockSize))

theorem isOther_tests : Tests (isOther blockSize a) (OtherInside blockSize a) (Other a) := by
  intro dir
  have h : Test (isOther blockSize a dir) _ _ := .bind (fun _ => field_eq_ok) (.ite .none
    (.bind (fun _ => field_eq_ok) (.ite (.some ()) (.bind (fun _ => field_eq_ok) (.ite .none (.ite (.some ())
      (.bind (fun _ => field_eq_ok) (.ite .none (.some ())))))))))
  refine h.congr ?_ ?_
  · simp only [OtherInside, Live, eq_dot, sizeofExt2Dir, ne_eq]
    clear h
    grind
  · simp only [Other, Live, eq_dot, ne_eq]
    tauto

/-- The test of `merge_dir_entry`. -/
def isLive (blockSize : Nat) (a : Area) (dir : Nat) : Except Fault (Option Unit) := do
  let ino ← inode blockSize a dir
  if ino = 0 then .ok none else .ok (some ())

theorem isLive_tests : Tests (isLive blockSize a) (fun dir => dir + 4 ≤ blockSize) (Live a) := by
  intro dir
  have h : Test (isLive blockSize a dir) _ _ := .bind (fun _ => field_eq_ok) (.ite .none (.some ()))
  refine h.congr ?_ ?_
  · simp
  · simp [Live]

theorem mergeLoop_returns_iff {stop size : Nat} : (∃ n, mergeLoop blockSize a stop fuel dir size = .ok n) ↔
    ∃ r, forEachDir blockSize a (isLive blockSize a) stop fuel dir = .ok r := by
  induction fuel generalizing dir size with
  | zero => exact ⟨fun ⟨_, h⟩ => absurd h nofun, fun ⟨_, h⟩ => absurd h nofun⟩
  | succ fuel ih =>
    rw [mergeLoop, forEachDir, isLive]
    split
    · cases hino : inode blockSize a dir with
      | error e => exact ⟨fun ⟨_, h⟩ => absurd h nofun, fun ⟨_, h⟩ => absurd h nofun⟩
      | ok ino =>
        rw [ok_bind, ok_bind]
        by_cases hzero : ino = 0
        · rw [if_neg (not_not.2 hzero), if_pos hzero, ok_bind]
          dsimp only
          cases hsize : entrySize blockSize a dir with
          | error e => exact ⟨fun ⟨_, h⟩ => absurd h nofun, fun ⟨_, h⟩ => absurd h nofun⟩
          | ok step =>
            rw [ok_bind, ok_bind, ih]
            constructor
            · rintro ⟨r, hr⟩
              exact ⟨_, by rw [hr, ok_bind]⟩
            · rintro ⟨r, hr⟩
              obtain ⟨r', hr', _⟩ := bind_eq_ok hr
              exact ⟨r', hr'⟩
        · rw [if_pos hzero, if_neg hzero, ok_bind]
          exact ⟨fun _ => ⟨_, rfl⟩, fun _ => ⟨_, rfl⟩⟩
    · exact ⟨fun _ => ⟨_, rfl⟩, fun _ => ⟨_, rfl⟩⟩

theorem dirEnd_of_lt (hlt : dir < blockSize) : dirEnd blockSize dir = blockSize := by
  rw [dirEnd, Nat.div_eq_of_lt hlt, Nat.zero_mul, Nat.zero_add]

theorem dirEnd_zero : dirEnd blockSize 0 = blockSize := by
  rw [dirEnd, Nat.zero_div, Nat.zero_mul, Nat.zero_add]

theorem mergeDirEntry_ok_iff (hlt : dir + 4 ≤ blockSize) (hempty : ¬ Live a dir) :
    (∃ a', mergeDirEntry blockSize fuel a dir = .ok a') ↔
      ∃ r, forEachDir blockSize a (isLive blockSize a) blockSize fuel dir = .ok r := by
  have hloop : (∃ n, mergeLoop blockSize a blockSize fuel dir 0 = .ok n) ↔ _ := mergeLoop_returns_iff
  have hino : ¬ load a dir 4 ≠ 0 := hempty
  rw [← hloop, mergeDirEntry, inode, field_ok hlt, ok_bind, if_neg hino, dirEnd_of_lt (by omega)]
  constructor
  · rintro ⟨a', h⟩
    obtain ⟨n, hn, _⟩ := bind_eq_ok h
    exact ⟨n, hn⟩
  · rintro ⟨n, hn⟩
    exact ⟨_, by rw [hn, ok_bind]⟩

/-- What merging from `dir` on comes to is inside the block, and no entry has size zero. -/
def MergeFits (blockSize : Nat) (a : Area) (dir : Nat) : Prop :=
  ∀ hdr, Visits blockSize a (Live a) dir hdr →
    hdr + 4 ≤ blockSize ∧ (¬ Live a hdr → GoesOn blockSize a hdr)

theorem mergeFits_of_ok {a' : Area} (hlt : dir + 4 ≤ blockSize) (hempty : ¬ Live a dir)
    (h : mergeDirEntry blockSize fuel a dir = .ok a') : MergeFits blockSize a dir := by
  obtain ⟨⟨visited, r⟩, hr⟩ := (mergeDirEntry_ok_iff hlt hempty).1 ⟨a', h⟩
  exact fun hdr hhdr => forEachDir_visits isLive_tests hr hhdr

theorem MergeFits.returns (h : MergeFits blockSize a dir) (hlt : dir + 4 ≤ blockSize)
    (hempty : ¬ Live a dir) :
    ∃ fuel0, ∀ fuel, fuel0 ≤ fuel → ∃ a', mergeDirEntry blockSize fuel a dir = .ok a' := by
  obtain ⟨fuel0, visited, r, hr, _⟩ := forEachDir_returns isLive_tests h
  exact ⟨fuel0, fun fuel hle => (mergeDirEntry_ok_iff hlt hempty).2 ⟨_, forEachDir_mono hle hr⟩⟩

/-- The scans of a block end, are at each entry once and read inside the block only. -/
structure ScansEnd (blockSize : Nat) (a : Area) (name : Name) : Prop where
  find : ∃ fuel visited r, findEntryDisk blockSize fuel a name = .ok (visited, r) ∧ visited.Nodup
  empty : ∃ fuel visited r, dirEmpty blockSize fuel a = .ok (visited, r) ∧ visited.Nodup
  remove : ∃ fuel visited r, removeFromParent blockSize fuel a name = .ok (visited, r) ∧ visited.Nodup

/-- What the scans come to is inside the block, and no entry has size zero. -/
structure ScanFits (blockSize : Nat) (a : Area) (name : Name) : Prop where
  find : ∀ dir, Visits blockSize a (Hit a name) 0 dir →
    HitInside blockSize a name dir ∧ (¬ Hit a name dir → GoesOn blockSize a dir)
  empty : ∀ dir, Visits blockSize a (Other a) 0 dir →
    OtherInside blockSize a dir ∧ (¬ Other a dir → GoesOn blockSize a dir)
  /-- The entry of the name and the empty ones after it. -/
  merge : ∀ dir, Visits blockSize a (Hit a name) 0 dir → Hit a name dir →
    MergeFits blockSize (store a dir 4 0) dir

theorem isEntry_some {d : Nat} (h : isEntry blockSize a dir name = .ok (some d)) : d = dir := by
  obtain ⟨ino, _, h⟩ := bind_eq_ok h
  split at h
  · cases h
  · obtain ⟨len, _, h⟩ := bind_eq_ok h
    split at h
    · cases h
    · obtain ⟨same, _, h⟩ := bind_eq_ok h
      split at h
      · cases h
        rfl
      · cases h

theorem not_live_store (a : Area) (dir : Nat) : ¬ Live (store a dir 4 0) dir :=
  fun h => h load_store

theorem findEntryDisk_hit {found : Option Nat}
    (h : findEntryDisk blockSize fuel a name = .ok (visited, found))
    (hdir : Visits blockSize a (Hit a name) 0 dir) (hhit : Hit a name dir) : found = some dir := by
  rw [findEntryDisk, dirEnd_zero] at h
  have hbody := (forEachDir_found (isEntry_tests name) h).1 dir hdir hhit
  obtain ⟨d, rfl⟩ := Option.isSome_iff_exists.1 (((isEntry_tests name dir).ends found hbody).2 hhit)
  rw [isEntry_some hbody]

theorem scansEnd_iff : ScansEnd blockSize a name ↔ ScanFits blockSize a name := by
  have hfind : (∃ fuel visited r, findEntryDisk blockSize fuel a name = .ok (visited, r) ∧ visited.Nodup) ↔
      ∀ dir, Visits blockSize a (Hit a name) 0 dir →
        HitInside blockSize a name dir ∧ (¬ Hit a name dir → GoesOn blockSize a dir) := by
    simp only [findEntryDisk, dirEnd_zero]
    exact forEachDir_iff (isEntry_tests name)
  have hempty : (∃ fuel visited r, dirEmpty blockSize fuel a = .ok (visited, r) ∧ visited.Nodup) ↔
      ∀ dir, Visits blockSize a (Other a) 0 dir →
        OtherInside blockSize a dir ∧ (¬ Other a dir → GoesOn blockSize a dir) := by
    simp only [dirEmpty, dirEnd_zero]
    exact forEachDir_iff isOther_tests
  constructor
  · intro h
    refine ⟨hfind.1 h.find, hempty.1 h.empty, fun dir hdir hhit => ?_⟩
    obtain ⟨fuel, visited, r, hremove, _⟩ := h.remove
    obtain ⟨⟨visited', found⟩, hfound, hmerge⟩ := bind_eq_ok hremove
    obtain rfl := findEntryDisk_hit hfound hdir hhit
    obtain ⟨a', ha', _⟩ := bind_eq_ok hmerge
    exact mergeFits_of_ok (hfind.1 h.find dir hdir).1.1 (not_live_store a dir) ha'
  · intro h
    refine ⟨hfind.2 h.find, hempty.2 h.empty, ?_⟩
    obtain ⟨fuel, visited, found, hfound, hnodup⟩ := hfind.2 h.find
    have hmono : ∀ fuel', fuel ≤ fuel' → findEntryDisk blockSize fuel' a name = .ok (visited, found) := by
      rw [findEntryDisk, dirEnd_zero] at hfound
      intro fuel' hle
      rw [findEntryDisk, dirEnd_zero]
      exact forEachDir_mono hle hfound
    cases found with
    | none => exact ⟨fuel, visited, none, by rw [removeFromParent, hfound, ok_bind], hnodup⟩
    | some d =>
      rw [findEntryDisk, dirEnd_zero] at hfound
      obtain ⟨dir, hdir, hhit, hbody⟩ := (forEachDir_found (isEntry_tests name) hfound).2 rfl
      obtain rfl := isEntry_some hbody
      obtain ⟨fuel0, hreturns⟩ := (h.merge d hdir hhit).returns (h.find d hdir).1.1 (not_live_store a d)
      obtain ⟨a', ha'⟩ := hreturns (max fuel fuel0) (Nat.le_max_right _ _)
      refine ⟨max fuel fuel0, visited, some a', ?_, hnodup⟩
      rw [removeFromParent, hmono _ (Nat.le_max_left _ _), ok_bind]
      dsimp only
      rw [ha', ok_bind]

/-- A block of zeros: the first entry has size zero. -/
theorem zeros_not_scansEnd : ¬ ScansEnd 4096 (fun _ => 0) [0x61] := by
  intro h
  obtain ⟨fuel, visited, r, hfind, _⟩ := h.find
  rw [findEntryDisk, dirEnd_zero] at hfind
  have hbody : isEntry 4096 (fun _ => 0) 0 [0x61] = .ok none := by decide
  exact forEachDir_stuck (by decide) hbody (load_zero 4 2) hfind

end DirBytes

end QuarkOS
