import QuarkOS.Mm.AllocRuns
import QuarkOS.Mm.Space

/-!
# Pages that an address space has taken

`Live` relates an address space to the blocks `A0` that were allocated before it was built: every page
taken since is a page table or is mapped at one place, as a block of its own. Taking a page, mapping
it and unmapping it again are the steps that keep this.
-/

namespace QuarkOS

open CList Dyadic BuddyAllocator Function

/-- The addresses that a loop in steps of a page goes through. -/
def pageRun : Nat → Nat → List Nat
  | 0, _ => []
  | n + 1, va => va :: pageRun n (nextPage va)

def VmArea.pages (area : VmArea) : List Nat := pageRun (pageRounds area.size) area.va

/-- The areas in the order of `vm_struct_unmaps`. -/
def MmStruct.areas (mm : MmStruct) : List VmArea :=
  [mm.text, mm.data, mm.bss, mm.rodata, mm.brk, mm.stack]

def MmStruct.pages (mm : MmStruct) : List Nat := mm.areas.flatMap VmArea.pages

namespace Vm

variable {s s' : Vm} {A A0 : Set Block} {N : PageNode → List PageNode} {X Y : Set Nat} {d : Dir}
  {va : Nat} {f : Nat → Option Nat}

/-- The page table entry of `va` that the processor finds through the page directory at `pgdir`. -/
def userPte (s : Vm) (pgdir va : Nat) : Pte :=
  match s.frameAt pgdir with
  | .error _ => 0
  | .ok dir =>
    let pde := s.mem dir (pdeIndex va)
    if pde &&& vmPres = 0 then 0 else s.mem (pde.toNat >>> 12) (pteIndex va)

theorem Space.frameAt (hk : Kernel s A N) (hd : Space s A d) :
    s.frameAt (s.kva d.dir) = .ok (s.frame d.dir) :=
  (hd.mapped _ (Space.dir_mem_pages d)).frameAt (o := 0)
    (hk.pageAddr_mod (hd.lt hk (Space.dir_mem_pages d))) (by decide)

variable {p q : Nat}

theorem frame_of_pageCeil {x : Nat} (h : pageCeil x = s.alloc.pageAddr p) : x >>> 12 = s.frame p := by
  rw [frame, ← h, pageCeil, Nat.shiftRight_eq_div_pow, Nat.shiftRight_eq_div_pow]
  omega

theorem Space.userPte (hk : Kernel s A N) (hd : Space s A d) (hva : va < kernelStart) :
    s.userPte (s.kva d.dir) va = d.pte s (vpn va) := by
  rw [Vm.userPte, hd.frameAt hk]
  cases ht : d.table (pdeIndex va) with
  | none =>
    have hzero := hd.pde_none _ (pdeIndex_lt hva) ht
    rw [pdeIndex_eq] at ht
    rw [Dir.pte_none ht]
    simp only [hzero]
    exact if_pos (by decide)
  | some t =>
    obtain ⟨hpres, haddr⟩ := hd.pde_some _ t ht
    rw [pdeIndex_eq] at ht
    rw [Dir.pte_some ht]
    simp only [hpres, if_false]
    rw [frame_of_pageCeil haddr, pteIndex_eq]

structure SameBase (s s' : Vm) : Prop where
  addr : s'.alloc.addr = s.alloc.addr
  pageCnt : s'.alloc.pageCnt = s.alloc.pageCnt

theorem SameBase.trans {s'' : Vm} (h : SameBase s s') (h' : SameBase s' s'') : SameBase s s'' :=
  ⟨h'.addr.trans h.addr, h'.pageCnt.trans h.pageCnt⟩

theorem SameBase.pageAddr (h : SameBase s s') (p : Nat) : s'.alloc.pageAddr p = s.alloc.pageAddr p := by
  rw [BuddyAllocator.pageAddr, BuddyAllocator.pageAddr, h.addr]

theorem SameBase.kva (h : SameBase s s') (p : Nat) : s'.kva p = s.kva p := by
  rw [Vm.kva, Vm.kva, h.pageAddr]

theorem SameBase.frame (h : SameBase s s') (p : Nat) : s'.frame p = s.frame p := by
  rw [Vm.frame, Vm.frame, h.pageAddr]

theorem Keeps.sameBase {B : Set Block} {P : Set Nat} (h : Keeps s s' B P) : SameBase s s' :=
  ⟨h.addr, h.pageCnt⟩

theorem Kernel.free {b : Block} (hk : Kernel s A N) (hpos : ∀ c ∈ A, 0 < (s.alloc.pages c.start).refCnt)
    (hb : b ∈ A) (hlist : ¬ Listed N b.start) (hlock : s.alloc.lock = false)
    (hwl : (s.alloc.pages b.start).rwlock.writelock = false)
    (href : (s.alloc.pages b.start).refCnt = 1) :
    ∃ a, s._freePage b.start = .ok (s.setAlloc a) ∧ Kernel (s.setAlloc a) (A \ {b}) N ∧
      FreeFrame s.alloc a A b := by
  have hout : ∀ a ∈ heads, a ∉ roots → .page b.start ∉ N a :=
    fun a ha hroot hmem => hlist ⟨a, ha, hroot, hmem⟩
  obtain ⟨a, hrun, howns, hframe, _⟩ := _freePage_spec hk.owns hpos hb hout hlock hwl href
  refine ⟨a, ?_, hk.setAlloc howns hframe.addr hframe.pageCnt hframe.magic, hframe⟩
  rw [Vm._freePage, hrun]
  rfl

theorem FreeFrame.keeps {a : BuddyAllocator} {b : Block} (hframe : FreeFrame s.alloc a A b) :
    Keeps s (s.setAlloc a) (A \ {b}) ∅ :=
  ⟨hframe.addr, hframe.pageCnt,
    fun c hc q hq => congrArg Page.data (hframe.pages c hc.1 hc.2 q hq), fun _ _ _ _ => rfl,
    fun _ _ _ _ _ => rfl⟩

theorem kvmUnmap_spec (hk : Kernel s A N) (hb : ⟨p, 0⟩ ∈ A) (hm : KMapped s p) :
    s.kvmUnmap p = .ok (s.setEntry (s.frame p) vmNpres) := by
  have hlt : p < s.alloc.pageCnt := hk.owns.start_lt hb
  have hsz : (s.alloc.pages p).size = 4096 := hk.owns.size hb
  have hphys : s.alloc.pageAddr p < 0x3e000000 := hm.lt
  have hks : kernelStart = 0xc0000000 := rfl
  have hpos := hk.pos
  have haddr := hk.pageAddr_eq hlt
  have hgt : kernelStart < s.kva p := by
    rw [kva]
    omega
  have hcount : ((s.kva p + 4096) % 2 ^ 32 - s.kva p + 4095) / 4096 = 1 := by
    have hkva : s.kva p < 2 ^ 32 - 4096 := by
      rw [kva]
      omega
    rw [Nat.mod_eq_of_lt (by omega)]
    omega
  have hidx : (s.kva p - kernelStart) >>> 12 = s.frame p := by
    rw [kva, frame, Nat.add_sub_cancel_left]
  rw [kvmUnmap, kvmUnmap3, hm.data, hsz]
  simp only [hgt, Nat.mod_self, decide_true, assertk_true, ok_bind, getPageTableEntry, hgt.le, hidx,
    hcount, kvmUnmapLoop]

/-- The blocks `A0` and the pages `X`. -/
def withPages (A0 : Set Block) (X : Set Nat) : Set Block := {b | b ∈ A0 ∨ b.order = 0 ∧ b.start ∈ X}

theorem page_mem_withPages (hp : p ∈ X) : (⟨p, 0⟩ : Block) ∈ withPages A0 X :=
  Or.inr ⟨rfl, hp⟩

theorem withPages_insert (A0 : Set Block) (X : Set Nat) (p : Nat) :
    withPages A0 (insert p X) = insert ⟨p, 0⟩ (withPages A0 X) := by
  ext ⟨q, k⟩
  simp only [withPages, Set.mem_ofPred_eq, Set.mem_insert_iff, Block.mk.injEq]
  tauto

theorem withPages_sdiff (hp : (⟨p, 0⟩ : Block) ∉ A0) :
    withPages A0 (X \ {p}) = withPages A0 X \ {⟨p, 0⟩} := by
  ext ⟨q, k⟩
  simp only [withPages, Set.mem_ofPred_eq, Set.mem_sdiff, Set.mem_singleton_iff, Block.mk.injEq]
  constructor
  · rintro (h | ⟨hk, hq, hne⟩)
    · refine ⟨Or.inl h, ?_⟩
      rintro ⟨rfl, rfl⟩
      exact hp h
    · exact ⟨Or.inr ⟨hk, hq⟩, fun h => hne h.1⟩
  · rintro ⟨h | ⟨hk, hq⟩, hne⟩
    · exact Or.inl h
    · exact Or.inr ⟨hk, hq, fun he => hne ⟨he, hk⟩⟩

theorem withPages_empty (A0 : Set Block) : withPages A0 ∅ = A0 := by
  ext b
  simp [withPages]

/-- Since `A0` the pages `X` were allocated one by one, and whoever took them holds the only
reference. -/
structure Taken (s : Vm) (A0 : Set Block) (X : Set Nat) (N : PageNode → List PageNode) : Prop where
  kernel : Kernel s (withPages A0 X) N
  counted : Counted s.alloc (withPages A0 X)
  lock : s.alloc.lock = false
  new : ∀ p ∈ X, ⟨p, 0⟩ ∉ A0
  refCnt : ∀ p ∈ X, (s.alloc.pages p).refCnt = 1
  rwlock : ∀ p ∈ X, (s.alloc.pages p).rwlock.writelock = false
  unlisted : ∀ p ∈ X, ¬ Listed N p

theorem Taken.congr (ht : Taken s A0 X N) (h : s'.alloc = s.alloc) : Taken s' A0 X N := by
  refine ⟨ht.kernel.congr h, ?_, ?_, ht.new, ?_, ?_, ht.unlisted⟩ <;> rw [h]
  · exact ht.counted
  · exact ht.lock
  · exact ht.refCnt
  · exact ht.rwlock

theorem Taken.insert {P : Set Nat} {A' : Set Block} (ht : Taken s A0 X N)
    (hk : Kernel s' (insert ⟨p, 0⟩ (withPages A0 X)) N) (hg : Grows s s' (withPages A0 X) A' P)
    (hf : Fresh s s' (withPages A0 X) p) : Taken s' A0 (insert p X) N := by
  have hcounted := hf.counted hg.pageCnt ht.counted
  have hold : ∀ q ∈ X, s'.alloc.pages q = s.alloc.pages q :=
    fun q hq => hg.page _ (page_mem_withPages hq) q (Block.start_mem _)
  rw [← withPages_insert] at hk hcounted
  refine ⟨hk, hcounted, hf.lock, ?_, ?_, ?_, ?_⟩
  · rintro q (rfl | hq) hmem
    · exact hf.notMem _ (Or.inl hmem) (Block.start_mem _)
    · exact ht.new q hq hmem
  · rintro q (rfl | hq)
    · exact hf.refCnt
    · rw [hold q hq]
      exact ht.refCnt q hq
  · rintro q (rfl | hq)
    · rw [hf.rwlock]
      rfl
    · rw [hold q hq]
      exact ht.rwlock q hq
  · rintro q (rfl | hq)
    · rintro ⟨a, ha, hroot, hmem⟩
      obtain ⟨b, hb, hstart⟩ := ht.kernel.owns.exists_of_mem ha hroot hmem
      exact hf.notMem b hb (hstart ▸ b.start_mem)
    · exact ht.unlisted q hq

theorem Taken.alloc (ht : Taken s A0 X N) (hok : s._allocPage pageSize = .ok (p, s')) :
    Taken s' A0 (Insert.insert p X) N ∧ Fresh s s' (withPages A0 X) p ∧
      Grows s s' (withPages A0 X) (withPages A0 (Insert.insert p X)) ∅ := by
  obtain ⟨hk, hframe, hg, _⟩ := allocPage_spec ht.kernel (Nat.zero_le _) (by decide) hok
  have hf : Fresh s s' (withPages A0 X) p :=
    ⟨fun c hc => hframe.fresh c hc p (Block.start_mem _), hframe.managed p (Block.start_mem _),
      hframe.refCnt, hframe.refCnt_other, hframe.rwlock, hframe.lock⟩
  refine ⟨ht.insert hk hg hf, hf, ?_⟩
  rw [withPages_insert]
  exact hg

theorem Taken.free (ht : Taken s A0 X N) (hp : p ∈ X) :
    ∃ a, s._freePage p = .ok (s.setAlloc a) ∧ Taken (s.setAlloc a) A0 (X \ {p}) N ∧
      Keeps s (s.setAlloc a) (withPages A0 (X \ {p})) ∅ := by
  have hb : (⟨p, 0⟩ : Block) ∈ withPages A0 X := page_mem_withPages hp
  obtain ⟨a, hrun, hk, hframe⟩ := ht.kernel.free ht.counted.pos hb (ht.unlisted p hp) ht.lock
    (ht.rwlock p hp) (ht.refCnt p hp)
  have hset := withPages_sdiff (X := X) (ht.new p hp)
  have hsame : ∀ q ∈ X \ {p}, a.pages q = s.alloc.pages q := by
    intro q hq
    refine hframe.pages _ (page_mem_withPages hq.1) ?_ q (Block.start_mem _)
    rintro ⟨⟩
    exact hq.2 rfl
  refine ⟨a, hrun, ⟨hset ▸ hk, hset ▸ ht.counted.free hframe, hframe.lock, ?_, ?_, ?_, ?_⟩, ?_⟩
  · exact fun q hq => ht.new q hq.1
  · intro q hq
    rw [setAlloc_alloc, hsame q hq]
    exact ht.refCnt q hq.1
  · intro q hq
    rw [setAlloc_alloc, hsame q hq]
    exact ht.rwlock q hq.1
  · exact fun q hq => ht.unlisted q hq.1
  · rw [hset]
    exact FreeFrame.keeps hframe

/-- The page number `v` is mapped to the page `f v`, and every page of `X` is mapped at one place or
is a page table; the pages `Y` are not in use yet. -/
structure Live (s : Vm) (A0 : Set Block) (X : Set Nat) (N : PageNode → List PageNode) (d : Dir)
    (f : Nat → Option Nat) (Y : Set Nat) : Prop where
  taken : Taken s A0 X N
  space : Space s (withPages A0 X) d
  dir : ⟨d.dir, 0⟩ ∈ A0
  table : ∀ i t, d.table i = some t → t ∈ X
  pte_none : ∀ v, f v = none → d.pte s v = 0
  pte_some : ∀ v q, f v = some q → d.pte s v &&& vmPres ≠ 0 ∧
    pageCeil (d.pte s v).toNat = s.alloc.pageAddr q
  page : ∀ v q, f v = some q → q ∈ X ∧ q ∉ d.pages
  inj : ∀ v v' q, f v = some q → f v' = some q → v = v'
  cover : ∀ p ∈ X, p ∈ Y ∨ (∃ i, d.table i = some p) ∨ ∃ v, f v = some p
  idle : ∀ q ∈ Y, q ∈ X ∧ q ∉ d.pages ∧ ∀ v, f v ≠ some q

theorem Live.alloc (hl : Live s A0 X N d f ∅) (hok : s._allocPage pageSize = .ok (p, s')) :
    Live s' A0 (insert p X) N d f {p} ∧ SameBase s s' := by
  obtain ⟨ht, hf, hg⟩ := hl.taken.alloc hok
  have hpX : p ∉ X := fun h => hf.notMem _ (page_mem_withPages h) (Block.start_mem _)
  obtain ⟨hd, hpte⟩ := hl.space.grows hg fun _ _ h => h
  have hpd : p ∉ d.pages := fun h => hf.notMem _ (hl.space.mem p h) (Block.start_mem _)
  refine ⟨⟨ht, hd, hl.dir, ?_, ?_, ?_, ?_, hl.inj, ?_, ?_⟩, hg.keeps.sameBase⟩
  · exact fun i t h => Or.inr (hl.table i t h)
  · intro v hv
    rw [hpte]
    exact hl.pte_none v hv
  · intro v q hv
    rw [hpte, hg.pageAddr]
    exact hl.pte_some v q hv
  · exact fun v q hv => ⟨Or.inr (hl.page v q hv).1, (hl.page v q hv).2⟩
  · rintro q (rfl | hq)
    · exact Or.inl rfl
    · exact Or.inr ((hl.cover q hq).resolve_left (Set.notMem_empty q))
  · rintro q rfl
    exact ⟨Or.inl rfl, hpd, fun v hv => hpX (hl.page v q hv).1⟩

theorem Live.modifyData {a : Nat} (hl : Live s A0 X N d f Y) (hp : p ∈ Y) :
    Live (s.modifyPage p fun q => { q with data := a }) A0 X N d f Y := by
  obtain ⟨hpX, hpd, _⟩ := hl.idle p hp
  have hself : ∀ i, ((s.modifyPage p fun q => { q with data := a }).alloc.pages i).refCnt =
      (s.alloc.pages i).refCnt ∧
      ((s.modifyPage p fun q => { q with data := a }).alloc.pages i).rwlock =
      (s.alloc.pages i).rwlock := by
    intro i
    rw [modifyPage_alloc, BuddyAllocator.modifyPage_pages]
    split <;> exact ⟨rfl, rfl⟩
  obtain ⟨hd, hpte⟩ := hl.space.modifyPage (f := fun q => { q with data := a }) hpd
  have ht := hl.taken
  refine ⟨⟨ht.kernel.modifyPage rfl rfl rfl, ⟨?_, ?_⟩, ht.lock, ht.new, ?_, ?_, ht.unlisted⟩, hd, hl.dir,
    hl.table, ?_, ?_, hl.page, hl.inj, hl.cover, hl.idle⟩
  · intro b hb
    rw [(hself _).1]
    exact ht.counted.pos b hb
  · intro i hi hno
    rw [(hself i).1]
    exact ht.counted.zero i hi hno
  · intro q hq
    rw [(hself q).1]
    exact ht.refCnt q hq
  · intro q hq
    rw [(hself q).2]
    exact ht.rwlock q hq
  · intro v hv
    rw [hpte]
    exact hl.pte_none v hv
  · intro v q hv
    rw [hpte]
    exact hl.pte_some v q hv

theorem Live.iter {ptr : Nat} (hl : Live s A0 X N d f Y) (hva : va < kernelStart)
    (hok : s.vmPageIter va (s.kva d.dir) true = .ok (ptr, s')) :
    ∃ X' t, Live s' A0 X' N (d.addTable (pdeIndex va) t) f Y ∧ ptr = s'.kva t + 4 * pteIndex va ∧
      SameBase s s' := by
  obtain ⟨t, hk, hd, hg, hptr, hpte, hcase⟩ := hl.space.iter_new hl.taken.kernel hva hok
  rcases hcase with ⟨ht, rfl⟩ | ⟨hnone, hf⟩
  · refine ⟨X, t, ?_, hptr, rfl, rfl⟩
    rw [Dir.addTable_self ht]
    exact hl
  · have htX : t ∉ X := fun h => hf.notMem _ (page_mem_withPages h) (Block.start_mem _)
    have hpages : ∀ q ∈ X, q ∉ d.pages → q ∉ (d.addTable (pdeIndex va) t).pages := by
      intro q hq hqd hmem
      rcases Dir.mem_addTable hmem with h | rfl
      · exact hqd h
      · exact htX hq
    refine ⟨insert t X, t, ⟨hl.taken.insert hk hg hf, ?_, hl.dir, ?_, ?_, ?_, ?_, hl.inj, ?_, ?_⟩, hptr,
      hg.keeps.sameBase⟩
    · rw [withPages_insert]
      exact hd
    · intro i t' hi
      rw [Dir.addTable_table] at hi
      split at hi
      · exact Or.inl (Option.some.inj hi).symm
      · exact Or.inr (hl.table i t' hi)
    · intro v hv
      rw [hpte]
      exact hl.pte_none v hv
    · intro v q hv
      rw [hpte, hg.pageAddr]
      exact hl.pte_some v q hv
    · intro v q hv
      obtain ⟨hq, hqd⟩ := hl.page v q hv
      exact ⟨Or.inr hq, hpages q hq hqd⟩
    · rintro q (rfl | hq)
      · refine Or.inr (Or.inl ⟨pdeIndex va, ?_⟩)
        rw [Dir.addTable_table, if_pos rfl]
      · rcases hl.cover q hq with h | ⟨i, hi⟩ | h
        · exact Or.inl h
        · refine Or.inr (Or.inl ⟨i, ?_⟩)
          rw [Dir.addTable_table, if_neg, hi]
          rintro rfl
          rw [hnone] at hi
          cases hi
        · exact Or.inr (Or.inr h)
    · intro q hq
      obtain ⟨hqX, hqd, hfree⟩ := hl.idle q hq
      exact ⟨Or.inr hqX, hpages q hqX hqd, hfree⟩

theorem Live.enter {t : Nat} {x : Pte} (hl : Live s A0 X N d f {q})
    (ht : d.table (pdeIndex va) = some t) (hfree : f (vpn va) = none) (hpres : x &&& vmPres ≠ 0)
    (haddr : pageCeil x.toNat = s.alloc.pageAddr q) :
    s.load (s.kva t + 4 * pteIndex va) = .ok 0 ∧
      ∃ s', s.store (s.kva t + 4 * pteIndex va) x = .ok s' ∧
        Live s' A0 X N d (update f (vpn va) (some q)) ∅ ∧ SameBase s s' := by
  have hk := hl.taken.kernel
  obtain ⟨hqX, hqd, hqf⟩ := hl.idle q rfl
  refine ⟨?_, ?_⟩
  · rw [hl.space.load_pte hk ht, hl.pte_none _ hfree]
  obtain ⟨s', hstore, _, hd, hg, hpte, halloc⟩ := hl.space.store_pte (x := x) hk ht
  have hcase : ∀ {v p}, update f (vpn va) (some q) v = some p →
      v = vpn va ∧ p = q ∨ v ≠ vpn va ∧ f v = some p := by
    intro v p h
    by_cases hv : v = vpn va
    · rw [hv, update_self] at h
      exact Or.inl ⟨hv, (Option.some.inj h).symm⟩
    · rw [update_of_ne hv] at h
      exact Or.inr ⟨hv, h⟩
  refine ⟨s', hstore, ⟨hl.taken.congr halloc, hd, hl.dir, hl.table, ?_, ?_, ?_, ?_, ?_, ?_⟩, hg.keeps.sameBase⟩
  · intro v hv
    by_cases hvv : v = vpn va
    · rw [hvv, update_self] at hv
      cases hv
    · rw [update_of_ne hvv] at hv
      rw [hpte, if_neg hvv]
      exact hl.pte_none v hv
  · intro v p hv
    rw [hpte, halloc]
    rcases hcase hv with ⟨rfl, rfl⟩ | ⟨hne, hv⟩
    · rw [if_pos rfl]
      exact ⟨hpres, haddr⟩
    · rw [if_neg hne]
      exact hl.pte_some v p hv
  · intro v p hv
    rcases hcase hv with ⟨rfl, rfl⟩ | ⟨_, hv⟩
    · exact ⟨hqX, hqd⟩
    · exact hl.page v p hv
  · intro v v' p hv hv'
    rcases hcase hv with ⟨rfl, rfl⟩ | ⟨_, hw⟩
    · rcases hcase hv' with ⟨rfl, _⟩ | ⟨_, hw'⟩
      · rfl
      · exact absurd hw' (hqf v')
    · rcases hcase hv' with ⟨rfl, rfl⟩ | ⟨_, hw'⟩
      · exact absurd hw (hqf v)
      · exact hl.inj v v' p hw hw'
  · intro p hp
    rcases hl.cover p hp with rfl | h | ⟨v, hv⟩
    · exact Or.inr (Or.inr ⟨vpn va, update_self _ _ _⟩)
    · exact Or.inr (Or.inl h)
    · refine Or.inr (Or.inr ⟨v, ?_⟩)
      rw [update_of_ne, hv]
      rintro rfl
      rw [hfree] at hv
      cases hv
  · exact fun q hq => absurd hq (Set.notMem_empty q)

theorem Taken.freePage (ht : Taken s A0 X N) (hp : p ∈ X) :
    ∃ a, s.freePage (s.alloc.pageAddr p) = .ok (0, s.setAlloc a) ∧
      Taken (s.setAlloc a) A0 (X \ {p}) N ∧
      Keeps s (s.setAlloc a) (withPages A0 (X \ {p})) ∅ := by
  obtain ⟨a, hrun, ht', hkeeps⟩ := ht.free hp
  have hb : (⟨p, 0⟩ : Block) ∈ withPages A0 X := page_mem_withPages hp
  have hlt : p < s.alloc.pageCnt := ht.kernel.owns.start_lt hb
  have hhead : pageHead (s.alloc.pages p) = true := ht.kernel.owns.head hb
  refine ⟨a, ?_, ht', hkeeps⟩
  obtain ⟨a', hfree, he⟩ := bind_eq_ok hrun
  have haa : a' = a := congrArg Vm.alloc (Except.ok.inj he)
  rw [Vm.freePage, BuddyAllocator.freePage]
  simp only [ht.kernel.pageAddr_mod hlt, decide_true, assertk_true, ok_bind, ht.kernel.getPage hlt,
    hhead, hfree, haa]

theorem Live.table_of_some (hl : Live s A0 X N d f Y) (hq : f (vpn va) = some q) :
    ∃ t, d.table (pdeIndex va) = some t := by
  rw [pdeIndex_eq]
  cases ht : d.table (vpn va / 1024) with
  | none =>
    have hpres := (hl.pte_some _ q hq).1
    rw [Dir.pte_none ht] at hpres
    exact absurd (by decide) hpres
  | some t => exact ⟨t, rfl⟩

theorem Live.unmapPage (hl : Live s A0 X N d f ∅) (hq : f (vpn va) = some q) :
    ∃ s', (∀ n, vmUnmapLoop (s.kva d.dir) (n + 1) s va =
        vmUnmapLoop (s.kva d.dir) n s' (nextPage va)) ∧
      Live s' A0 (X \ {q}) N d (update f (vpn va) none) ∅ ∧
      SameBase s s' := by
  have hk := hl.taken.kernel
  obtain ⟨t, ht⟩ := hl.table_of_some hq
  obtain ⟨hpres, haddr⟩ := hl.pte_some _ q hq
  obtain ⟨hqX, hqd⟩ := hl.page _ q hq
  obtain ⟨a, hfree, ht', hkeeps⟩ := hl.taken.freePage hqX
  have hpages : ∀ p ∈ d.pages, (⟨p, 0⟩ : Block) ∈ withPages A0 (X \ {q}) := by
    rintro p (rfl | ⟨i, hi⟩)
    · exact Or.inl hl.dir
    · refine page_mem_withPages ⟨hl.table i p hi, ?_⟩
      rintro rfl
      exact hqd (Space.table_mem_pages hi)
  obtain ⟨hd, hpte⟩ := hl.space.keeps hkeeps hpages hpages fun _ _ h => h
  obtain ⟨s', hstore, _, hd', hg, hpte', halloc⟩ := hd.store_pte (x := vmNpres) ht'.kernel ht
  have hcase : ∀ {v p}, update f (vpn va) none v = some p → v ≠ vpn va ∧ f v = some p := by
    intro v p h
    have hv : v ≠ vpn va := by
      rintro rfl
      rw [update_self] at h
      cases h
    rw [update_of_ne hv] at h
    exact ⟨hv, h⟩
  refine ⟨s', ?_, ⟨ht'.congr halloc, hd', hl.dir, ?_, ?_, ?_, ?_, ?_, ?_, ?_⟩, ?_⟩
  · intro n
    rw [hkeeps.kva] at hstore
    have hiter := hl.space.iter_some hk ht false
    have hload := hl.space.load_pte hk ht
    simp only [vmUnmapLoop, hiter, ok_bind, hload, hpres, ne_eq, not_false_eq_true, decide_true,
      assertk_true, haddr, hfree, not_true_eq_false, if_false, hstore]
  · intro i t' hi
    refine ⟨hl.table i t' hi, ?_⟩
    rintro rfl
    exact hqd (Space.table_mem_pages hi)
  · intro v hv
    rw [hpte', hpte]
    by_cases hvv : v = vpn va
    · rw [if_pos hvv]
      rfl
    · rw [update_of_ne hvv] at hv
      rw [if_neg hvv]
      exact hl.pte_none v hv
  · intro v p hv
    obtain ⟨hne, hv⟩ := hcase hv
    rw [hpte', if_neg hne, hpte, hg.pageAddr, hkeeps.pageAddr]
    exact hl.pte_some v p hv
  · intro v p hv
    obtain ⟨hne, hv⟩ := hcase hv
    refine ⟨⟨(hl.page v p hv).1, ?_⟩, (hl.page v p hv).2⟩
    rintro rfl
    exact hne (hl.inj _ _ _ hv hq)
  · intro v v' p hv hv'
    exact hl.inj v v' p (hcase hv).2 (hcase hv').2
  · rintro p ⟨hp, hpq⟩
    rcases hl.cover p hp with h | h | ⟨v, hv⟩
    · exact Or.inl h
    · exact Or.inr (Or.inl h)
    · refine Or.inr (Or.inr ⟨v, ?_⟩)
      rw [update_of_ne, hv]
      rintro rfl
      rw [hq] at hv
      exact hpq (Option.some.inj hv).symm
  · exact fun p hp => absurd hp (Set.notMem_empty p)
  · exact hkeeps.sameBase.trans hg.keeps.sameBase

/-- `f` without the page numbers of `l`. -/
def without (f : Nat → Option Nat) (l : List Nat) (v : Nat) : Option Nat :=
  if v ∈ l.map vpn then none else f v

theorem without_nil (f : Nat → Option Nat) : without f [] = f := by
  funext v
  exact if_neg (List.not_mem_nil)

theorem without_append (f : Nat → Option Nat) (l l' : List Nat) :
    without (without f l) l' = without f (l ++ l') := by
  funext v
  simp only [without, List.map_append, List.mem_append]
  split_ifs <;> tauto

theorem without_cons (f : Nat → Option Nat) (l : List Nat) :
    without (update f (vpn va) none) l = without f (va :: l) := by
  funext v
  simp only [without, List.map_cons, List.mem_cons, update_apply]
  split_ifs <;> tauto

/-- The pages of `l` are different pages that `f` maps. -/
structure Mapped (f : Nat → Option Nat) (l : List Nat) : Prop where
  nodup : (l.map vpn).Nodup
  ne_none : ∀ va ∈ l, f (vpn va) ≠ none

theorem Mapped.append {l l' : List Nat} (h : Mapped f (l ++ l')) :
    Mapped f l ∧ Mapped (without f l) l' := by
  have hnodup := h.nodup
  rw [List.map_append, List.nodup_append] at hnodup
  refine ⟨⟨hnodup.1, fun va hva => h.ne_none va (List.mem_append_left _ hva)⟩, ⟨hnodup.2.1, ?_⟩⟩
  intro va hva
  rw [without, if_neg]
  · exact h.ne_none va (List.mem_append_right _ hva)
  · intro hmem
    exact hnodup.2.2 _ hmem _ (List.mem_map_of_mem hva) rfl

theorem Live.unmapLoop (n : Nat) : ∀ {s : Vm} {X : Set Nat} {f : Nat → Option Nat} {va : Nat},
    Live s A0 X N d f ∅ → Mapped f (pageRun n va) →
    ∃ s' X', vmUnmapLoop (s.kva d.dir) n s va = .ok s' ∧
      Live s' A0 X' N d (without f (pageRun n va)) ∅ ∧ SameBase s s' := by
  induction n with
  | zero =>
    intro s X f va hl _
    refine ⟨s, X, rfl, ?_, ⟨rfl, rfl⟩⟩
    rw [pageRun, without_nil]
    exact hl
  | succ n ih =>
    intro s X f va hl hm
    obtain ⟨q, hq⟩ := Option.ne_none_iff_exists'.1 (hm.ne_none va List.mem_cons_self)
    obtain ⟨s1, hstep, hl1, hbase⟩ := hl.unmapPage hq
    have hm1 : Mapped (update f (vpn va) none) (pageRun n (nextPage va)) := by
      have hm' := (Mapped.append (l := [va]) hm).2
      rwa [← without_cons, without_nil] at hm'
    obtain ⟨s', X', hrun, hl', hbase'⟩ := ih hl1 hm1
    refine ⟨s', X', ?_, ?_, hbase.trans hbase'⟩
    · rw [hstep, ← hbase.kva]
      exact hrun
    · rw [pageRun, ← without_cons]
      exact hl'

theorem Live.unmapAreas {pgdir : Nat} (l : List VmArea) :
    ∀ {s : Vm} {X : Set Nat} {f : Nat → Option Nat}, Live s A0 X N d f ∅ → s.kva d.dir = pgdir →
      Mapped f (l.flatMap VmArea.pages) →
      ∃ s' X', l.foldlM (fun s area => s.vmUnmap area pgdir) s = .ok s' ∧
        Live s' A0 X' N d (without f (l.flatMap VmArea.pages)) ∅ ∧ SameBase s s' := by
  induction l with
  | nil =>
    intro s X f hl hkva _
    refine ⟨s, X, rfl, ?_, ⟨rfl, rfl⟩⟩
    rw [List.flatMap_nil, without_nil]
    exact hl
  | cons area l ih =>
    intro s X f hl hkva hm
    rw [List.flatMap_cons] at hm
    obtain ⟨hm1, hm2⟩ := hm.append
    obtain ⟨s1, X1, hrun, hl1, hbase⟩ := hl.unmapLoop _ hm1
    obtain ⟨s', X', hrest, hl', hbase'⟩ := ih hl1 ((hbase.kva _).trans hkva) hm2
    refine ⟨s', X', ?_, ?_, hbase.trans hbase'⟩
    · rw [List.foldlM_cons, vmUnmap, ← hkva, hrun, ok_bind, hkva]
      exact hrest
    · rw [List.flatMap_cons, ← without_append]
      exact hl'

end Vm

end QuarkOS
