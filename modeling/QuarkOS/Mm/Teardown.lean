import QuarkOS.Mm.Boot
import QuarkOS.Mm.Live

/-!
# Building an address space and tearing it down

An address space is built from an empty one by loading segments, by `vm_brk_init`, `vm_stack_init` and
`sbrk`, in any order, and `vm_struct_unmaps` is to give everything back that was taken on the way.
-/

namespace QuarkOS

open CList Dyadic BuddyAllocator Function

namespace Vm

variable {s s' : Vm} {A A0 : Set Block} {N : PageNode → List PageNode} {X Y : Set Nat} {d : Dir}
  {va : Nat} {f : Nat → Option Nat}

/-- The state of the loop over the page directory, with the entries `l` to go. -/
structure Recycling (s : Vm) (A0 : Set Block) (X : Set Nat) (N : PageNode → List PageNode) (d : Dir)
    (l : List Nat) : Prop where
  taken : Taken s A0 X N
  dir : ⟨d.dir, 0⟩ ∈ A0
  mapped : KMapped s d.dir
  inj : ∀ i j t, d.table i = some t → d.table j = some t → i = j
  pde_none : ∀ i ∈ l, d.table i = none → s.mem (s.frame d.dir) i = 0
  pde_some : ∀ i ∈ l, ∀ t, d.table i = some t → s.mem (s.frame d.dir) i &&& vmPres ≠ 0 ∧
    pageCeil (s.mem (s.frame d.dir) i).toNat = s.alloc.pageAddr t
  table : ∀ i ∈ l, ∀ t, d.table i = some t → t ∈ X ∧ KMapped s t
  lt : ∀ i ∈ l, i < 1024
  nodup : l.Nodup

theorem Kernel.setEntry_keeps {b : Block} {p : Nat} {e : Pte} (hk : Kernel s A N) (hb : b ∈ A)
    (hp : p ∈ b) : Keeps s (s.setEntry (s.frame p) e) (A \ {b}) ∅ := by
  refine ⟨rfl, rfl, fun _ _ _ _ => rfl, ?_, fun _ _ _ _ _ => rfl⟩
  intro c hc q hq
  refine if_neg fun he => hc.2 ?_
  obtain rfl := hk.frame_inj (hk.owns.lt_of_mem hc.1 hq) (hk.owns.lt_of_mem hb hp) he
  exact hk.owns.eq_of_mem hc.1 hb hq hp

variable {i : Nat} {l : List Nat} {s0 : Vm} {mm mm' mm0 : MmStruct} {area : VmArea}

theorem Recycling.skip (hr : Recycling s A0 X N d (i :: l)) : Recycling s A0 X N d l where
  taken := hr.taken
  dir := hr.dir
  mapped := hr.mapped
  inj := hr.inj
  pde_none j hj := hr.pde_none j (List.mem_cons_of_mem _ hj)
  pde_some j hj := hr.pde_some j (List.mem_cons_of_mem _ hj)
  table j hj := hr.table j (List.mem_cons_of_mem _ hj)
  lt j hj := hr.lt j (List.mem_cons_of_mem _ hj)
  nodup := (List.nodup_cons.1 hr.nodup).2

theorem Recycling.load (hr : Recycling s A0 X N d (i :: l)) :
    s.load (s.kva d.dir + 4 * i) = .ok (s.mem (s.frame d.dir) i) :=
  hr.mapped.load (hr.taken.kernel.pageAddr_mod (hr.taken.kernel.owns.start_lt (Or.inl hr.dir)))
    (hr.lt i List.mem_cons_self)

theorem Recycling.step {t : Nat} (hr : Recycling s A0 X N d (i :: l)) (ht : d.table i = some t) :
    ∃ s', recycleTables (s.kva d.dir) (i :: l) s = recycleTables (s.kva d.dir) l s' ∧
      Recycling s' A0 (X \ {t}) N d l ∧ SameBase s s' ∧ s'.mem = s.mem := by
  have hk := hr.taken.kernel
  obtain ⟨hpres, haddr⟩ := hr.pde_some i List.mem_cons_self t ht
  obtain ⟨htX, hm⟩ := hr.table i List.mem_cons_self t ht
  have hb : (⟨t, 0⟩ : Block) ∈ withPages A0 X := page_mem_withPages htX
  have hunmap := kvmUnmap_spec hk hb hm
  have htaken : Taken (s.setEntry (s.frame t) vmNpres) A0 X N := hr.taken.congr rfl
  obtain ⟨a, hfree, htaken', hkeeps⟩ := htaken.free htX
  -- Every other page of the loop is in a block of its own.
  have hall : Keeps s ((s.setEntry (s.frame t) vmNpres).setAlloc a) (withPages A0 (X \ {t})) ∅ := by
    have hset := withPages_sdiff (X := X) (hr.taken.new t htX)
    refine Keeps.trans ?_ hkeeps
    rw [hset]
    exact hk.setEntry_keeps hb (Block.start_mem _)
  have hdir : (⟨d.dir, 0⟩ : Block) ∈ withPages A0 (X \ {t}) := Or.inl hr.dir
  have hne : ∀ j ∈ l, d.table j ≠ some t := by
    intro j hj hjt
    exact (List.nodup_cons.1 hr.nodup).1 (hr.inj i j t ht hjt ▸ hj)
  have hr' := hr.skip
  refine ⟨(s.setEntry (s.frame t) vmNpres).setAlloc a, ?_, ⟨htaken', hr.dir, ?_, hr.inj, ?_, ?_, ?_,
    hr'.lt, hr'.nodup⟩, hall.sameBase, rfl⟩
  · have hlt : t < s.alloc.pageCnt := hk.owns.start_lt hb
    simp only [recycleTables, hr.load, ok_bind, hpres, if_false, haddr, hk.getPage hlt, hunmap, hfree]
  · exact hall.kMapped hr.mapped hdir (Block.start_mem _)
  · intro j hj hnone
    rw [hall.frame]
    exact hr'.pde_none j hj hnone
  · intro j hj t' hjt
    rw [hall.frame, hall.pageAddr]
    exact hr'.pde_some j hj t' hjt
  · intro j hj t' hjt
    obtain ⟨ht'X, hm'⟩ := hr'.table j hj t' hjt
    have hmem : t' ∈ X \ {t} := ⟨ht'X, fun he => hne j hj (he ▸ hjt)⟩
    exact ⟨hmem, hall.kMapped hm' (page_mem_withPages hmem) (Block.start_mem _)⟩

theorem Recycling.run (l : List Nat) : ∀ {s : Vm} {X : Set Nat}, Recycling s A0 X N d l →
    ∃ s' X', recycleTables (s.kva d.dir) l s = .ok s' ∧ Recycling s' A0 X' N d [] ∧
      SameBase s s' ∧ s'.mem = s.mem ∧ ∀ p ∈ X', p ∈ X ∧ ∀ i ∈ l, d.table i ≠ some p := by
  induction l with
  | nil =>
    intro s X hr
    exact ⟨s, X, rfl, hr, ⟨rfl, rfl⟩, rfl, fun p hp => ⟨hp, fun i hi => absurd hi List.not_mem_nil⟩⟩
  | cons i l ih =>
    intro s X hr
    cases ht : d.table i with
    | none =>
      obtain ⟨s', X', hrun, hr', hbase, hmem, hX⟩ := ih hr.skip
      have hzero : (0 : Pte) &&& vmPres = 0 := by decide
      refine ⟨s', X', ?_, hr', hbase, hmem, ?_⟩
      · rw [← hrun]
        simp only [recycleTables, hr.load, ok_bind, hr.pde_none i List.mem_cons_self ht, hzero, if_true]
      · intro p hp
        refine ⟨(hX p hp).1, List.forall_mem_cons.2 ⟨?_, (hX p hp).2⟩⟩
        rw [ht]
        exact (Option.some_ne_none p).symm
    | some t =>
      obtain ⟨s1, hstep, hr1, hbase1, hmem1⟩ := hr.step ht
      obtain ⟨s', X', hrun, hr', hbase, hmem, hX⟩ := ih hr1
      refine ⟨s', X', ?_, hr', hbase1.trans hbase, hmem.trans hmem1, ?_⟩
      · rw [hstep, ← hbase1.kva, hrun]
      · intro p hp
        refine ⟨(hX p hp).1.1, List.forall_mem_cons.2 ⟨?_, (hX p hp).2⟩⟩
        rw [ht]
        exact fun he => (hX p hp).1.2 (Option.some.inj he).symm

theorem Live.recycling (hl : Live s A0 X N d f Y) : Recycling s A0 X N d (List.range 768) where
  taken := hl.taken
  dir := hl.dir
  mapped := hl.space.mapped _ (Space.dir_mem_pages d)
  inj := hl.space.inj
  pde_none i hi := hl.space.pde_none i (List.mem_range.1 hi)
  pde_some i _ t ht := hl.space.pde_some i t ht
  table i _ t ht := ⟨hl.table i t ht, hl.space.mapped t (Space.table_mem_pages ht)⟩
  lt i hi := (List.mem_range.1 hi).trans (by decide)
  nodup := List.nodup_range

theorem lt_of_pdeIndex (h : pdeIndex va < 768) : va < kernelStart := by
  have hks : kernelStart = 0xc0000000 := rfl
  rw [pdeIndex, Nat.shiftRight_eq_div_pow] at h
  omega

/-- The address space goes back: every page of its areas is unmapped and the free pages are those of
the state `s0`. -/
def TornDown (s0 s : Vm) (mm : MmStruct) : Prop :=
  ∃ s', s.vmStructUnmaps mm = .ok s' ∧ (∀ va ∈ mm.pages, s'.userPte mm.pgdir va = 0) ∧
    s'.alloc.freePages = s0.alloc.freePages

theorem vmStructUnmaps_eq (s : Vm) (mm : MmStruct) :
    s.vmStructUnmaps mm = (mm.areas.foldlM (fun s area => s.vmUnmap area mm.pgdir) s >>=
      recycleTables mm.pgdir (List.range 768)) := by
  simp only [vmStructUnmaps, MmStruct.areas, List.foldlM_cons, List.foldlM_nil, bind_assoc, pure_bind]

theorem Live.tornDown (hl : Live s A0 X N d f ∅)
    (h0 : s0.alloc.freePages = {i | i < s.alloc.pageCnt ∧ ∀ c ∈ A0, i ∉ c})
    (hpgdir : mm.pgdir = s.kva d.dir) (hm : Mapped f mm.pages)
    (hall : ∀ v, f v ≠ none → v ∈ mm.pages.map vpn) : TornDown s0 s mm := by
  obtain ⟨s1, X1, hunmap, hl1, hbase1⟩ := hl.unmapAreas mm.areas hpgdir.symm hm
  have hkva1 : s1.kva d.dir = mm.pgdir := (hbase1.kva _).trans hpgdir.symm
  have hnone : ∀ v, without f mm.pages v = none := by
    intro v
    rw [without]
    split
    · rfl
    · rename_i hv
      by_contra h
      exact hv (hall v h)
  obtain ⟨s', X', hrun, hr, hbase, hmem, hX⟩ := hl1.recycling.run
  have hX' : X' = ∅ := by
    ext p
    refine iff_of_false (fun hp => ?_) (Set.notMem_empty p)
    obtain ⟨hpX, hno⟩ := hX p hp
    rcases hl1.cover p hpX with h | ⟨i, hi⟩ | ⟨v, hv⟩
    · exact h
    · exact hno i (List.mem_range.2 (hl1.space.user i p hi)) hi
    · exact absurd ((hnone v).symm.trans hv) (Option.some_ne_none p).symm
  refine ⟨s', ?_, ?_, ?_⟩
  · rw [vmStructUnmaps_eq, hunmap, ok_bind, ← hkva1]
    exact hrun
  · intro va hva
    have hlt : va < kernelStart := by
      obtain ⟨q, hq⟩ := Option.ne_none_iff_exists'.1 (hm.ne_none va hva)
      obtain ⟨t, ht⟩ := hl.table_of_some hq
      exact lt_of_pdeIndex (hl.space.user _ t ht)
    have hframe : s'.frameAt mm.pgdir = s1.frameAt mm.pgdir := by
      have hk' := hr.taken.kernel
      have hlt' := hk'.owns.start_lt (Or.inl hr.dir)
      have h1 := hr.mapped.frameAt (o := 0) (hk'.pageAddr_mod hlt') (by decide)
      have h2 := hl1.space.frameAt hl1.taken.kernel
      rw [Nat.add_zero, hbase.kva, hkva1, hbase.frame] at h1
      rw [hkva1] at h2
      rw [h1, h2]
    have hpte : s'.userPte mm.pgdir va = s1.userPte mm.pgdir va := by
      rw [Vm.userPte, Vm.userPte, hframe, hmem]
    rw [hpte, ← hkva1, hl1.space.userPte hl1.taken.kernel hlt]
    exact hl1.pte_none _ (hnone _)
  · subst hX'
    have hk := hr.taken.kernel
    have hcounted := hr.taken.counted
    rw [withPages_empty] at hk hcounted
    rw [hk.owns.freePages_eq hcounted, h0, hbase.pageCnt, hbase1.pageCnt]

inductive MmStep
  | segment (pgh : Segment)
  | brk
  | stack
  | sbrk (size : Nat)
deriving DecidableEq, Repr

def mmStep (s : Vm) (mm : MmStruct) : MmStep → Except Fault (MmStruct × Vm)
  | .segment pgh => s.loadSegment mm pgh
  | .brk => do
    let mm ← vmBrkInit mm
    .ok (mm, s)
  | .stack => s.vmStackInit mm
  | .sbrk size => do
    let (_, mm, s) ← s.sbrk mm size
    .ok (mm, s)

/-- What steps that all meet the condition `C` can make of the address space `mm0`. -/
inductive Built (C : Vm → MmStruct → MmStep → Prop) (s0 : Vm) (mm0 : MmStruct) : Vm → MmStruct → Prop
  | start : Built C s0 mm0 s0 mm0
  | step {s s' : Vm} {mm mm' : MmStruct} {a : MmStep} (hrun : Built C s0 mm0 s mm) (hcond : C s mm a)
      (hstep : s.mmStep mm a = .ok (mm', s')) : Built C s0 mm0 s' mm'

/-- An address space without pages, in a state where nothing is locked. -/
def EmptySpace (s : Vm) (mm : MmStruct) : Prop :=
  ∃ A N d, Kernel s A N ∧ Counted s.alloc A ∧ s.alloc.lock = false ∧ Space s A d ∧
    (∀ i, d.table i = none) ∧ mm.pgdir = s.kva d.dir ∧ ∀ area ∈ mm.areas, area.size = 0

/-- A segment has one page, in user space, that is not mapped yet, and does not take the place of an
earlier one. The heap does not grow. -/
def OnePage (s : Vm) (mm : MmStruct) : MmStep → Prop
  | .segment pgh => pageFloor pgh.memsz = pageSize ∧ pgh.vaddr < kernelStart ∧
    s.userPte mm.pgdir pgh.vaddr = 0 ∧ (pgh.filesz = 0 → mm.bss.size = 0)
  | .brk => True
  | .stack => True
  | .sbrk _ => False

/-- The areas of `mm` are what is mapped. -/
structure Loaded (s : Vm) (A0 : Set Block) (N : PageNode → List PageNode) (mm : MmStruct) (d : Dir)
    (f : Nat → Option Nat) : Prop where
  live : ∃ X, Live s A0 X N d f ∅
  pgdir : mm.pgdir = s.kva d.dir
  mapped : Mapped f mm.pages
  all : ∀ v, f v ≠ none → v ∈ mm.pages.map vpn
  brk : mm.brk.size = 0
  stack : mm.stack.size = 0 ∨ mm.stack.va ∈ mm.pages ∧ mm.stack.va = kernelStart - 2 * pageSize

theorem VmArea.pages_empty (h : area.size = 0) : area.pages = [] := by
  rw [VmArea.pages, h]
  rfl

theorem VmArea.pages_one (h : area.size = pageSize) : area.pages = [area.va] := by
  rw [VmArea.pages, h]
  rfl

theorem Live.mapPage {q ptr : Nat} {x : Pte} {s1 : Vm} (hl : Live s A0 X N d f {q})
    (hva : va < kernelStart) (hiter : s.vmPageIter va (s.kva d.dir) true = .ok (ptr, s1))
    (hfree : f (vpn va) = none) (hpres : x &&& vmPres ≠ 0)
    (haddr : pageCeil x.toNat = s.alloc.pageAddr q) :
    s1.load ptr = .ok 0 ∧ ∃ X' d' s', s1.store ptr x = .ok s' ∧ d'.dir = d.dir ∧
      Live s' A0 X' N d' (update f (vpn va) (some q)) ∅ ∧ SameBase s s' := by
  obtain ⟨X', t, hl1, rfl, hbase⟩ := hl.iter hva hiter
  have ht : (d.addTable (pdeIndex va) t).table (pdeIndex va) = some t := by
    rw [Dir.addTable_table, if_pos rfl]
  have haddr1 : pageCeil x.toNat = s1.alloc.pageAddr q := by
    rw [haddr, hbase.pageAddr]
  obtain ⟨hload, s', hstore, hl', hbase'⟩ := hl1.enter ht hfree hpres haddr1
  exact ⟨hload, X', d.addTable (pdeIndex va) t, s', hstore, rfl, hl', hbase.trans hbase'⟩

theorem Loaded.add {d' : Dir} {q : Nat} (hl : Loaded s A0 N mm d f)
    (hlive : ∃ X, Live s' A0 X N d' (update f (vpn va) (some q)) ∅)
    (hdir : d'.dir = d.dir) (hbase : SameBase s s') (hfree : f (vpn va) = none)
    (hpgdir : mm'.pgdir = mm.pgdir) (hperm : mm'.pages.Perm (va :: mm.pages))
    (hbrk : mm'.brk.size = 0)
    (hstack : mm'.stack = mm.stack ∨ mm'.stack.va = va ∧ va = kernelStart - 2 * pageSize) :
    Loaded s' A0 N mm' d' (update f (vpn va) (some q)) := by
  have hmem : ∀ {a}, a ∈ mm'.pages ↔ a = va ∨ a ∈ mm.pages := by
    intro a
    rw [hperm.mem_iff, List.mem_cons]
  have hout : ∀ a ∈ mm.pages, vpn a ≠ vpn va := by
    intro a ha he
    exact hl.mapped.ne_none a ha (he ▸ hfree)
  refine ⟨hlive, ?_, ⟨?_, ?_⟩, ?_, hbrk, ?_⟩
  · rw [hpgdir, hl.pgdir, hdir, hbase.kva]
  · rw [(hperm.map vpn).nodup_iff, List.map_cons, List.nodup_cons]
    refine ⟨fun h => ?_, hl.mapped.nodup⟩
    obtain ⟨a, ha, he⟩ := List.mem_map.1 h
    exact hout a ha he
  · intro a ha
    rcases hmem.1 ha with rfl | ha
    · rw [update_self]
      exact Option.some_ne_none q
    · rw [update_of_ne (hout a ha)]
      exact hl.mapped.ne_none a ha
  · intro v hv
    rw [(hperm.map vpn).mem_iff, List.map_cons, List.mem_cons]
    by_cases hvv : v = vpn va
    · exact Or.inl hvv
    · rw [update_of_ne hvv] at hv
      exact Or.inr (hl.all v hv)
  · rcases hstack with h | ⟨h, hva⟩
    · rw [h]
      exact hl.stack.imp_right fun h => ⟨hmem.2 (Or.inr h.1), h.2⟩
    · rw [h]
      exact Or.inr ⟨hmem.2 (Or.inl rfl), hva⟩

theorem segmentFlags (pgh : Segment) :
    (getFlags pgh ||| vmPres).getLsbD 0 = true ∧ (getFlags pgh ||| vmPres).toNat < 4096 := by
  rw [getFlags]
  cases pgh.write <;> decide

theorem vpn_pageCeil (va : Nat) : vpn (pageCeil va) = vpn va := by
  rw [vpn, vpn, pageCeil, Nat.shiftRight_eq_div_pow, Nat.shiftRight_eq_div_pow]
  omega

theorem areas_perm {old : VmArea} (hold : old.size = 0) (hsize : area.size = pageSize)
    (l l' : List VmArea) : ((l ++ area :: l').flatMap VmArea.pages).Perm
      (area.va :: (l ++ old :: l').flatMap VmArea.pages) := by
  simp only [List.flatMap_append, List.flatMap_cons, VmArea.pages_empty hold,
    VmArea.pages_one hsize, List.nil_append]
  exact List.perm_middle

theorem placeSegment_spec {pgh : Segment}
    (hbss : pgh.filesz = 0 → mm.bss.size = 0) (hsize : area.size = pageSize)
    (hok : placeSegment mm pgh area = .ok mm') :
    mm'.pgdir = mm.pgdir ∧ mm'.pages.Perm (area.va :: mm.pages) ∧ mm'.brk = mm.brk ∧
      mm'.stack = mm.stack := by
  rw [placeSegment] at hok
  simp only [assertk_bind, decide_eq_true_eq] at hok
  split_ifs at hok with hfile hexec htext hwrite hdata hro
  · cases hok
    exact ⟨rfl, areas_perm (hbss hfile) hsize [mm.text, mm.data] [mm.rodata, mm.brk, mm.stack], rfl, rfl⟩
  · cases hok
    exact ⟨rfl, areas_perm htext hsize [] [mm.data, mm.bss, mm.rodata, mm.brk, mm.stack], rfl, rfl⟩
  · cases hok
    exact ⟨rfl, areas_perm hdata hsize [mm.text] [mm.bss, mm.rodata, mm.brk, mm.stack], rfl, rfl⟩
  · cases hok
    exact ⟨rfl, areas_perm hro hsize [mm.text, mm.data, mm.bss] [mm.brk, mm.stack], rfl, rfl⟩

theorem Loaded.userPte (hl : Loaded s A0 N mm d f) (hva : va < kernelStart) :
    s.userPte mm.pgdir va = d.pte s (vpn va) := by
  obtain ⟨X, hlive⟩ := hl.live
  rw [hl.pgdir]
  exact hlive.space.userPte hlive.taken.kernel hva

theorem Loaded.free_of_zero (hl : Loaded s A0 N mm d f) (hva : va < kernelStart)
    (h : s.userPte mm.pgdir va = 0) : f (vpn va) = none := by
  obtain ⟨X, hlive⟩ := hl.live
  rw [hl.userPte hva] at h
  cases hf : f (vpn va) with
  | none => rfl
  | some q =>
    have hpres := (hlive.pte_some _ q hf).1
    rw [h] at hpres
    exact absurd (by decide) hpres

theorem pageCeil_le (va : Nat) : pageCeil va ≤ va := Nat.div_mul_le_self va 4096

section

variable (hl : Loaded s A0 N mm d f)
include hl

theorem Loaded.segment {pgh : Segment}
    (hcond : OnePage s mm (.segment pgh)) (hok : s.loadSegment mm pgh = .ok (mm', s')) :
    ∃ d' f', Loaded s' A0 N mm' d' f' ∧ SameBase s s' := by
  obtain ⟨hsize, hva, hzero, hbss⟩ := hcond
  have hfree := hl.free_of_zero hva hzero
  obtain ⟨X, hlive⟩ := hl.live
  rw [loadSegment, hsize] at hok
  simp only [bind_ok_iff, Prod.exists] at hok
  obtain ⟨q, s1, halloc, s2, hmaps, mm1, hplace, hret⟩ := hok
  cases hret
  obtain ⟨hlive1, hbase1⟩ := hlive.alloc halloc
  have hlt : q < s1.alloc.pageCnt :=
    hlive1.taken.kernel.owns.start_lt (page_mem_withPages (Or.inl rfl))
  have hmod := hlive1.taken.kernel.pageAddr_mod hlt
  -- One round of the loop of `vm_maps`.
  obtain ⟨_, _, hmaps⟩ := bind_eq_ok hmaps
  rw [show pageRounds pageSize = 1 from rfl, vmMapsLoop] at hmaps
  obtain ⟨⟨ptr, s3⟩, hiter, hmaps⟩ := bind_eq_ok hmaps
  rw [hl.pgdir, ← hbase1.kva] at hiter
  have hfree' : f (vpn (pageCeil pgh.vaddr)) = none := by
    rw [vpn_pageCeil]
    exact hfree
  obtain ⟨hload, X', d', s4, hstore, hdir, hlive', hbase'⟩ := hlive1.mapPage
    ((pageCeil_le _).trans_lt hva) hiter hfree' (entry_present (segmentFlags pgh).1)
    (pageCeil_entry hmod (hlive1.taken.kernel.pageAddr_lt hlt) (segmentFlags pgh).2)
  have hz : (0 : Pte) &&& vmPres = 0 := by decide
  simp only [hload, ok_bind, hz, if_true, hstore, vmMapsLoop] at hmaps
  cases hmaps
  rw [vpn_pageCeil] at hlive'
  obtain ⟨hpgdir, hperm, hbrk, hstack⟩ := placeSegment_spec hbss rfl hplace
  refine ⟨d', _, hl.add ⟨X', hlive'⟩ hdir (hbase1.trans hbase') hfree hpgdir hperm ?_ (Or.inl hstack),
    hbase1.trans hbase'⟩
  rw [hbrk]
  exact hl.brk

theorem Loaded.stackInit (hok : s.vmStackInit mm = .ok (mm', s')) :
    ∃ d' f', Loaded s' A0 N mm' d' f' ∧ SameBase s s' := by
  have hva : kernelStart - 2 * pageSize < kernelStart := by decide
  obtain ⟨X, hlive⟩ := hl.live
  obtain ⟨⟨q, s1⟩, halloc, hok⟩ := bind_eq_ok hok
  obtain ⟨s2, hmap, hret⟩ := bind_eq_ok hok
  cases hret
  obtain ⟨hlive1, hbase1⟩ := hlive.alloc halloc
  have hlive2 := hlive1.modifyData (a := kernelStart - 2 * pageSize) rfl
  have hlt : q < s1.alloc.pageCnt :=
    hlive1.taken.kernel.owns.start_lt (page_mem_withPages (Or.inl rfl))
  -- One round of the loop of `vm_map_area`, which wants the page to be free.
  rw [vmMapArea, show pageRounds pageSize = 1 from rfl, vmMapAreaLoop] at hmap
  obtain ⟨⟨ptr, s3⟩, hiter, hmap⟩ := bind_eq_ok hmap
  rw [hl.pgdir, ← hbase1.kva] at hiter
  have hfree : f (vpn (kernelStart - 2 * pageSize)) = none := by
    by_contra hsome
    obtain ⟨p, hp⟩ := Option.ne_none_iff_exists'.1 hsome
    obtain ⟨X', t, hlive3, rfl, _⟩ := hlive2.iter hva hiter
    have ht : (d.addTable (pdeIndex (kernelStart - 2 * pageSize)) t).table
        (pdeIndex (kernelStart - 2 * pageSize)) = some t := by
      rw [Dir.addTable_table, if_pos rfl]
    have hload := hlive3.space.load_pte hlive3.taken.kernel ht
    have hpres := (hlive3.pte_some _ p hp).1
    simp only [hload, ok_bind, hpres, decide_false, assertk_false, error_bind] at hmap
    cases hmap
  obtain ⟨hload, X', d', s4, hstore, hdir, hlive', hbase'⟩ := hlive2.mapPage hva hiter hfree
    (entry_present tableFlags.1)
    (pageCeil_entry (hlive1.taken.kernel.pageAddr_mod hlt) (hlive1.taken.kernel.pageAddr_lt hlt)
      tableFlags.2)
  have hz : (0 : Pte) &&& vmPres = 0 := by decide
  simp only [hload, ok_bind, hz, decide_true, assertk_true, vmMapAreaLoop] at hmap
  rw [hstore] at hmap
  cases hmap
  have hbase : SameBase s s' := SameBase.trans hbase1 ⟨hbase'.addr, hbase'.pageCnt⟩
  have hempty : mm.stack.size = 0 := by
    refine hl.stack.resolve_right fun h => ?_
    have hne := hl.mapped.ne_none _ h.1
    rw [h.2] at hne
    exact hne hfree
  refine ⟨d', _, hl.add ⟨X', hlive'⟩ hdir hbase hfree rfl ?_ hl.brk (Or.inr ⟨rfl, rfl⟩), hbase⟩
  exact areas_perm hempty rfl [mm.text, mm.data, mm.bss, mm.rodata, mm.brk] []

theorem Loaded.brkInit (hok : vmBrkInit mm = .ok mm') :
    Loaded s A0 N mm' d f := by
  obtain ⟨_, _, hret⟩ := bind_eq_ok hok
  cases hret
  have hpages : ∀ brk : VmArea, brk.size = 0 → { mm with brk := brk }.pages = mm.pages := by
    intro brk hbrk
    simp only [MmStruct.pages, MmStruct.areas, List.flatMap_cons, VmArea.pages_empty hbrk,
      VmArea.pages_empty hl.brk]
  refine ⟨hl.live, hl.pgdir, ?_, ?_, rfl, ?_⟩ <;> rw [hpages _ rfl]
  · exact hl.mapped
  · exact hl.all
  · exact hl.stack

theorem Loaded.step {a : MmStep}
    (hcond : OnePage s mm a) (hok : s.mmStep mm a = .ok (mm', s')) :
    ∃ d' f', Loaded s' A0 N mm' d' f' ∧ SameBase s s' := by
  cases a with
  | segment pgh => exact hl.segment hcond hok
  | brk =>
    obtain ⟨mm1, hbrk, hret⟩ := bind_eq_ok hok
    cases hret
    exact ⟨d, f, hl.brkInit hbrk, ⟨rfl, rfl⟩⟩
  | stack => exact hl.stackInit hok
  | sbrk size => exact hcond.elim

end

theorem EmptySpace.loaded (h : EmptySpace s mm) : ∃ A N d, Loaded s A N mm d (fun _ => none) ∧
      s.alloc.freePages = {i | i < s.alloc.pageCnt ∧ ∀ c ∈ A, i ∉ c} := by
  obtain ⟨A, N, d, hk, hc, hlock, hd, hnone, hpgdir, hsize⟩ := h
  have htable : ∀ i t, d.table i ≠ some t := by
    intro i t ht
    rw [hnone i] at ht
    cases ht
  have hpages : mm.pages = [] := by
    rw [MmStruct.pages, List.flatMap_eq_nil_iff]
    exact fun area ha => VmArea.pages_empty (hsize area ha)
  have hempty := withPages_empty A
  refine ⟨A, N, d, ⟨⟨∅, ?_⟩, hpgdir, ?_, ?_, ?_, ?_⟩, hk.owns.freePages_eq hc⟩
  · refine ⟨⟨hempty.symm ▸ hk, hempty.symm ▸ hc, hlock, ?_, ?_, ?_, ?_⟩, hempty.symm ▸ hd, ?_, ?_, ?_, ?_,
      ?_, ?_, ?_, ?_⟩
    · exact fun p hp => absurd hp (Set.notMem_empty p)
    · exact fun p hp => absurd hp (Set.notMem_empty p)
    · exact fun p hp => absurd hp (Set.notMem_empty p)
    · exact fun p hp => absurd hp (Set.notMem_empty p)
    · exact hd.mem _ (Space.dir_mem_pages d)
    · exact fun i t ht => absurd ht (htable i t)
    · exact fun v _ => Dir.pte_none (hnone _)
    · exact fun v q hv => absurd hv.symm (Option.some_ne_none q)
    · exact fun v q hv => absurd hv.symm (Option.some_ne_none q)
    · exact fun v v' q hv => absurd hv.symm (Option.some_ne_none q)
    · exact fun p hp => absurd hp (Set.notMem_empty p)
    · exact fun p hp => absurd hp (Set.notMem_empty p)
  · rw [hpages]
    exact ⟨List.nodup_nil, fun va hva => absurd hva List.not_mem_nil⟩
  · exact fun v hv => absurd rfl hv
  · exact hsize _ (by simp [MmStruct.areas])
  · exact Or.inl (hsize _ (by simp [MmStruct.areas]))

theorem Built.loaded {s : Vm} (hrun : Built OnePage s0 mm0 s mm) {d0 : Dir}
    (hl0 : Loaded s0 A N mm0 d0 f) : ∃ d f, Loaded s A N mm d f ∧ SameBase s0 s := by
  induction hrun with
  | start => exact ⟨d0, f, hl0, ⟨rfl, rfl⟩⟩
  | step _ hcond hstep ih =>
    obtain ⟨d, f, hl, hbase⟩ := ih
    obtain ⟨d', f', hl', hbase'⟩ := hl.step hcond hstep
    exact ⟨d', f', hl', hbase.trans hbase'⟩

/-- Every address space that is built with one page a segment is torn down completely. -/
theorem built_tornDown {s0 s : Vm} {mm0 mm : MmStruct} (h0 : EmptySpace s0 mm0)
    (hrun : Built OnePage s0 mm0 s mm) : TornDown s0 s mm := by
  obtain ⟨A, N, d0, hl0, hfree⟩ := h0.loaded
  obtain ⟨d, f, hl, hbase⟩ := hrun.loaded hl0
  obtain ⟨X, hlive⟩ := hl.live
  refine hlive.tornDown ?_ hl.pgdir hl.mapped hl.all
  rw [hfree, hbase.pageCnt]

theorem emptySpace_of_vmMapInit (hk : Kernel s A N) (hc : Counted s.alloc A)
    (hsize : ∀ area ∈ mm.areas, area.size = 0) (hok : s.vmMapInit mm = .ok (mm', s')) :
    EmptySpace s' mm' := by
  obtain ⟨⟨addr, s1⟩, hcalloc, hret⟩ := bind_eq_ok hok
  cases hret
  obtain ⟨p, rfl, hk', hm, hg, hfresh, hzero⟩ := kcallocPage_spec hk hcalloc
  exact ⟨_, N, ⟨p, fun _ => none⟩, hk', hfresh.counted hg.pageCnt hc, hfresh.lock,
    Space.of_zero (Or.inl rfl) hm hzero, fun _ => rfl, rfl, hsize⟩

instance (s : Vm) (mm : MmStruct) : (a : MmStep) → Decidable (OnePage s mm a)
  | .segment _ => inferInstanceAs (Decidable (_ ∧ _ ∧ _ ∧ (_ → _)))
  | .brk => .isTrue trivial
  | .stack => .isTrue trivial
  | .sbrk _ => .isFalse id

/-- The steps one after the other, as long as the condition holds. -/
def buildMm (C : Vm → MmStruct → MmStep → Bool) :
    List MmStep → Vm → MmStruct → Except Fault (MmStruct × Vm)
  | [], s, mm => .ok (mm, s)
  | a :: l, s, mm => do
    assertk (C s mm a)
    let (mm, s) ← s.mmStep mm a
    buildMm C l s mm

theorem built_of_buildMm {C : Vm → MmStruct → MmStep → Bool}
    (l : List MmStep) : ∀ {s s' : Vm} {mm mm' : MmStruct},
      Built (fun s mm a => C s mm a = true) s0 mm0 s mm → buildMm C l s mm = .ok (mm', s') →
      Built (fun s mm a => C s mm a = true) s0 mm0 s' mm' := by
  induction l with
  | nil =>
    intro s s' mm mm' hrun hok
    cases hok
    exact hrun
  | cons a l ih =>
    intro s s' mm mm' hrun hok
    rw [buildMm, assertk_bind] at hok
    split at hok
    · rename_i hcond
      obtain ⟨⟨mm1, s1⟩, hstep, hok⟩ := bind_eq_ok hok
      exact ih (hrun.step hcond hstep) hok
    · cases hok

theorem Built.mono {C C' : Vm → MmStruct → MmStep → Prop}
    (hC : ∀ s mm a, C s mm a → C' s mm a) (h : Built C s0 mm0 s mm) : Built C' s0 mm0 s mm := by
  induction h with
  | start => exact .start
  | step _ hcond hstep ih => exact ih.step (hC _ _ _ hcond) hstep

theorem EmptySpace.switchUvm {pgdir : Nat} (h : EmptySpace s mm)
    (hok : s.switchUvm pgdir = .ok s') : EmptySpace s' mm := by
  obtain ⟨cr3, _, hret⟩ := bind_eq_ok hok
  cases hret
  obtain ⟨A, N, d, hk, hc, hlock, hd, hnone, hpgdir, hsize⟩ := h
  have hkeeps : Keeps s { s with cr3 } A ∅ :=
    ⟨rfl, rfl, fun _ _ _ _ => rfl, fun _ _ _ _ => rfl, fun _ _ _ _ _ => rfl⟩
  obtain ⟨hd', _⟩ := hd.keeps hkeeps hd.mem hd.mem fun _ _ h => h
  exact ⟨A, N, d, hk.congr rfl, hc, hlock, hd', hnone, hpgdir, hsize⟩

def smallSpace (C : Vm → MmStruct → MmStep → Bool) (write : Bool) (n : Nat) :
    Except Fault ((MmStruct × Vm) × MmStruct × Vm) := do
  let area : VmArea := { va := 0, size := 0, flag := 0 }
  let (mm0, s0) ← (boot 4).vmMapInit ⟨area, area, area, area, area, area, 0, 0⟩
  let s0 ← s0.switchUvm mm0.pgdir
  let segment : Segment := { vaddr := 0x1000, memsz := n, filesz := n, write, exec := !write }
  let (mm, s) ← buildMm C [.segment segment, .brk, .stack] s0 mm0
  .ok ((mm0, s0), mm, s)

theorem smallSpace_built {C : Vm → MmStruct → MmStep → Bool} {write : Bool} {n : Nat}
    (hok : smallSpace C write n = .ok ((mm0, s0), mm, s)) :
    EmptySpace s0 mm0 ∧ Built (fun s mm a => C s mm a = true) s0 mm0 s mm := by
  obtain ⟨⟨mm1, s1⟩, hinit, hok⟩ := bind_eq_ok hok
  obtain ⟨s2, hswitch, hok⟩ := bind_eq_ok hok
  obtain ⟨⟨mm2, s3⟩, hbuild, hret⟩ := bind_eq_ok hok
  cases hret
  obtain ⟨hk, hc⟩ := boot_kernel (k := 4) (by decide)
  refine ⟨(emptySpace_of_vmMapInit hk hc ?_ hinit).switchUvm hswitch, built_of_buildMm _ .start hbuild⟩
  simp [MmStruct.areas]

theorem built_tornDown_onePage : ∃ s0 mm0 s mm, EmptySpace s0 mm0 ∧ Built OnePage s0 mm0 s mm ∧
    mm.pages = [0x1000, kernelStart - 2 * pageSize] ∧ TornDown s0 s mm := by
  obtain ⟨⟨⟨mm0, s0⟩, mm, s⟩, hs, hrun⟩ :=
    exists_of_passes (x := smallSpace (fun s mm a => OnePage s mm a) false 4096)
      (fun r => r.2.1.pages = [0x1000, kernelStart - 2 * pageSize]) (by decide +kernel)
  obtain ⟨hempty, hbuilt⟩ := smallSpace_built hs
  have hgood : Built OnePage s0 mm0 s mm := hbuilt.mono fun s mm a h => of_decide_eq_true h
  exact ⟨s0, mm0, s, mm, hempty, hgood, of_decide_eq_true hrun, built_tornDown hempty hgood⟩

/-- Two pages of one block: the second is freed as if it were a block. -/
theorem twoPages_not_tornDown : ∃ s0 mm0 s mm, EmptySpace s0 mm0 ∧
    Built (fun _ _ _ => True) s0 mm0 s mm ∧
    mm.pages = [0x1000, 0x2000, kernelStart - 2 * pageSize] ∧ ¬ TornDown s0 s mm := by
  obtain ⟨⟨⟨mm0, s0⟩, mm, s⟩, hs, hrun⟩ := exists_of_passes (x := smallSpace (fun _ _ _ => true) false 8192)
    (fun (_, mm, s) => decide (mm.pages = [0x1000, 0x2000, kernelStart - 2 * pageSize] ∧
      faults (s.vmStructUnmaps mm) .assertk)) (by decide +kernel)
  obtain ⟨hempty, hbuilt⟩ := smallSpace_built hs
  obtain ⟨hpages, hfail⟩ := of_decide_eq_true hrun
  refine ⟨s0, mm0, s, mm, hempty, hbuilt.mono fun _ _ _ _ => trivial, hpages, ?_⟩
  rintro ⟨s', hok, _⟩
  cases (eq_error_of_faults hfail).symm.trans hok

end Vm

end QuarkOS
