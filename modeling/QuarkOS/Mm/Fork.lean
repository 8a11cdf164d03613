import QuarkOS.Mm.Teardown
import QuarkOS.Mm.SlabSpec

/-!
# Fork

`vm_struct_copy` walks the areas of the parent page by page. `Copied` is the state after the pages `l`
were walked: parent and child have the same entry there, which is the old one after `demote`, and the
page it maps has one reference more.
-/

namespace QuarkOS

open CList Dyadic BuddyAllocator Function

namespace Vm

variable {s s' s0 : Vm} {A A0 : Set Block} {N : PageNode → List PageNode} {d src dst : Dir}
  {va : Nat} {l : List Nat} {g : Nat → Pte}

variable {e : Pte} {a p q n : Nat} {page : Option Nat} {s1 s2 : Vm} {mm : MmStruct}

theorem demote_of_ne (h : e &&& vmUrw ≠ vmUrw) : demote e = e := if_neg h

theorem demote_demote (e : Pte) : demote (demote e) = demote e := by
  by_cases h : e &&& vmUrw = vmUrw
  · apply demote_of_ne
    rw [demote, if_pos h]
    intro he
    have hbit := congrArg (fun x => BitVec.getLsbD x 2) he
    simp [vmIgnoreBit1, vmUrw, vmRwBit] at hbit
  · rw [demote_of_ne h, demote_of_ne h]

/-- The page that the entry of `va` in the address space `src` points to after the walk. -/
def sharedAddr (s0 : Vm) (src : Dir) (va : Nat) : Nat :=
  pageCeil (demote (src.pte s0 (vpn va))).toNat

/-- Of the pages `l` so many map the page `q`. -/
def mapCount (s0 : Vm) (src : Dir) (l : List Nat) (q : Nat) : Nat :=
  l.countP fun va => sharedAddr s0 src va = s0.alloc.pageAddr q

/-- From `s0` with the allocated blocks `A0` the pages `l` of the address space `src` were copied to
`dst`; the other entries of `dst` are `g`. -/
structure Copied (s0 : Vm) (A0 : Set Block) (src : Dir) (s : Vm) (A : Set Block)
    (N : PageNode → List PageNode) (dst : Dir) (g : Nat → Pte) (l : List Nat) : Prop where
  kernel : Kernel s A N
  base : SameBase s0 s
  sub : A0 ⊆ A
  parent : Space s A src
  child : Space s A dst
  apart : ∀ p ∈ src.pages, p ∉ dst.pages
  pte_parent : ∀ v, src.pte s v = if v ∈ l.map vpn then demote (src.pte s0 v) else src.pte s0 v
  pte_child : ∀ v, dst.pte s v = if v ∈ l.map vpn then demote (src.pte s0 v) else g v
  refCnt : ∀ b ∈ A0, ∀ q ∈ b,
    (s.alloc.pages q).refCnt = ((s0.alloc.pages q).refCnt + mapCount s0 src l q) % 2 ^ 16
  pos : ∀ b ∈ A, b ∉ A0 → 0 < (s.alloc.pages b.start).refCnt

theorem modifyRefCnt_keeps (s : Vm) (p : Nat) (f : Nat → Nat) (B : Set Block) :
    Keeps s (s.modifyPage p fun q => { q with refCnt := f q.refCnt }) B ∅ := by
  refine ⟨rfl, rfl, ?_, fun _ _ _ _ => rfl, fun _ _ _ _ _ => rfl⟩
  intro b _ q _
  rw [modifyPage_alloc, BuddyAllocator.modifyPage_pages]
  split <;> rfl

theorem Kernel.getPage_eq_some (hk : Kernel s A N) (hq : q < s.alloc.pageCnt)
    (ha : a % 4096 = 0) (hget : s.alloc.getPage a = .ok (some p)) :
    p = q ↔ a = s.alloc.pageAddr q := by
  have hmod := hk.aligned
  rw [hk.pageAddr_eq hq]
  rw [BuddyAllocator.getPage, if_neg (by omega)] at hget
  split at hget
  · cases hget
  · rename_i hge
    obtain ⟨_, _, hret⟩ := bind_eq_ok hget
    have hp : (a - s.alloc.addr) >>> 12 = p := Option.some.inj (Except.ok.inj hret)
    rw [Nat.shiftRight_eq_div_pow] at hp
    omega

theorem Kernel.getPage_eq_none (hk : Kernel s A N) (hq : q < s.alloc.pageCnt)
    (ha : a % 4096 = 0) (hget : s.alloc.getPage a = .ok none) : a ≠ s.alloc.pageAddr q := by
  rw [hk.pageAddr_eq hq]
  rw [BuddyAllocator.getPage, if_neg (by omega)] at hget
  split at hget
  · omega
  · obtain ⟨_, _, hret⟩ := bind_eq_ok hget
    cases hret

/-- The reference that the child gets. -/
def addRef (s : Vm) : Option Nat → Vm
  | none => s
  | some page => s.modifyPage page fun p => { p with refCnt := (p.refCnt + 1) % 2 ^ 16 }

theorem addRef_keeps (s : Vm) (page : Option Nat) (B : Set Block) : Keeps s (s.addRef page) B ∅ := by
  cases page with
  | none => exact (Grows.rfl s B ∅).keeps
  | some p => exact modifyRefCnt_keeps s p (fun n => (n + 1) % 2 ^ 16) B

theorem addRef_kernel (hk : Kernel s A N) : Kernel (s.addRef page) A N := by
  cases page with
  | none => exact hk
  | some p => exact hk.modifyPage rfl rfl rfl

theorem addRef_refCnt (hk : Kernel s A N) (hq : q < s.alloc.pageCnt)
    (ha : a % 4096 = 0) (hget : s.alloc.getPage a = .ok page) :
    ((s.addRef page).alloc.pages q).refCnt =
      if a = s.alloc.pageAddr q then ((s.alloc.pages q).refCnt + 1) % 2 ^ 16
      else (s.alloc.pages q).refCnt := by
  cases page with
  | none =>
    rw [if_neg (hk.getPage_eq_none hq ha hget)]
    rfl
  | some p =>
    have hiff := hk.getPage_eq_some hq ha hget
    rw [addRef, modifyPage_alloc, BuddyAllocator.modifyPage_pages]
    by_cases hpq : q = p
    · rw [if_pos hpq, if_pos (hiff.1 hpq.symm)]
    · rw [if_neg hpq, if_neg fun h => hpq (hiff.2 h).symm]

theorem vmAreaCopyLoop_succ {pte new : Nat} {sPgdir dPgdir : Nat}
    (hpte : s.vmPageIter va sPgdir false = .ok (pte, s1))
    (hnew : s1.vmPageIter va dPgdir true = .ok (new, s2))
    (hok : vmAreaCopyLoop sPgdir dPgdir (n + 1) s va = .ok s') :
    ∃ e s3 s4 page, s2.load pte = .ok e ∧
      (if e &&& vmUrw = vmUrw then s2.store pte (demote e) else .ok s2) = .ok s3 ∧
      (∃ e', s3.load pte = .ok e' ∧ s3.store new e' = .ok s4) ∧
      (∃ e', s4.load pte = .ok e' ∧ s4.alloc.getPage (pageCeil e'.toNat) = .ok page) ∧
      vmAreaCopyLoop sPgdir dPgdir n (s4.addRef page) (nextPage va) = .ok s' := by
  rw [vmAreaCopyLoop, hpte, ok_bind] at hok
  simp only [hnew, ok_bind] at hok
  obtain ⟨e, he, hok⟩ := bind_eq_ok hok
  have hrest : ∃ s3, (if e &&& vmUrw = vmUrw then s2.store pte (demote e) else .ok s2) = .ok s3 ∧
      (do let e ← s3.load pte
          let s ← s3.store new e
          let e ← s.load pte
          let page ← s.alloc.getPage (pageCeil e.toNat)
          vmAreaCopyLoop sPgdir dPgdir n (s.addRef page) (nextPage va)) = .ok s' := by
    by_cases hurw : e &&& vmUrw = vmUrw
    · rw [if_pos hurw] at hok ⊢
      exact bind_eq_ok hok
    · rw [if_neg hurw] at hok ⊢
      exact ⟨s2, rfl, hok⟩
  obtain ⟨s3, hs3, hok⟩ := hrest
  simp only [bind_ok_iff] at hok
  obtain ⟨e', he', s4, hs4, e'', he'', page, hpage, hok⟩ := hok
  exact ⟨e, s3, s4, page, he, hs3, ⟨e', he', hs4⟩, ⟨e'', he'', hpage⟩, hok⟩

theorem Copied.iter {ptr : Nat} (hc : Copied s0 A0 src s A N dst g l) (hva : va < kernelStart)
    (hok : s.vmPageIter va (s.kva dst.dir) true = .ok (ptr, s')) :
    ∃ t, Copied s0 A0 src s' (insert ⟨t, 0⟩ A) N (dst.addTable (pdeIndex va) t) g l ∧
      ptr = s'.kva t + 4 * pteIndex va ∧ Grows s s' A (insert ⟨t, 0⟩ A) {dst.dir} := by
  obtain ⟨t, hk, hd, hg, hptr, hpte, hcase⟩ := hc.child.iter_new hc.kernel hva hok
  have hsrc : ∀ p ∈ src.pages, p ∉ ({dst.dir} : Set Nat) := by
    rintro p hp rfl
    exact hc.apart _ hp (Space.dir_mem_pages dst)
  obtain ⟨hparent, hptes⟩ := hc.parent.grows hg hsrc
  have hfresh : t ∈ dst.pages ∨ Fresh s s' A t := by
    rcases hcase with ⟨ht, _⟩ | ⟨_, hf⟩
    · exact Or.inl (Space.table_mem_pages ht)
    · exact Or.inr hf
  refine ⟨t, ⟨hk, hc.base.trans hg.keeps.sameBase, hc.sub.trans hg.sub, hparent, hd, ?_, ?_, ?_, ?_, ?_⟩,
    hptr, hg⟩
  · intro p hp hmem
    rcases Dir.mem_addTable hmem with h | rfl
    · exact hc.apart p hp h
    · rcases hfresh with h | hf
      · exact hc.apart p hp h
      · exact hf.notMem _ (hc.parent.mem p hp) (Block.start_mem _)
  · intro v
    rw [hptes]
    exact hc.pte_parent v
  · intro v
    rw [hpte]
    exact hc.pte_child v
  · intro b hb q hq
    rw [hg.page b (hc.sub hb) q hq]
    exact hc.refCnt b hb q hq
  · intro b hb hbA
    have hold : b ∈ A → 0 < (s'.alloc.pages b.start).refCnt := by
      intro h
      rw [hg.page b h _ b.start_mem]
      exact hc.pos b h hbA
    rcases hb with rfl | hb
    · rcases hfresh with h | hf
      · exact hold (hc.child.mem t h)
      · exact hf.refCnt.symm ▸ Nat.one_pos
    · exact hold hb

theorem mapCount_append (s0 : Vm) (src : Dir) (l : List Nat) (va q : Nat) : mapCount s0 src (l ++ [va]) q =
      mapCount s0 src l q + if sharedAddr s0 src va = s0.alloc.pageAddr q then 1 else 0 := by
  simp only [mapCount, List.countP_append, List.countP_singleton, decide_eq_true_eq]

/-- A page that the entry of `va` maps belonged to somebody before. -/
def Owned (s0 : Vm) (A0 : Set Block) (src : Dir) (va : Nat) : Prop :=
  ∀ q < s0.alloc.pageCnt, sharedAddr s0 src va = s0.alloc.pageAddr q → ∃ b ∈ A0, q ∈ b

theorem Copied.entry {ts td : Nat} {e1 e2 : Pte}
    (hc : Copied s0 A0 src s A N dst g l) (hva : Owned s0 A0 src va)
    (hts : src.table (pdeIndex va) = some ts)
    (htd : dst.table (pdeIndex va) = some td) (he : s.load (s.kva ts + 4 * pteIndex va) = .ok e)
    (hs1 : (if e &&& vmUrw = vmUrw then s.store (s.kva ts + 4 * pteIndex va) (demote e) else .ok s) =
      .ok s1)
    (he1 : s1.load (s.kva ts + 4 * pteIndex va) = .ok e1)
    (hs2 : s1.store (s.kva td + 4 * pteIndex va) e1 = .ok s2)
    (he2 : s2.load (s.kva ts + 4 * pteIndex va) = .ok e2)
    (hpage : s2.alloc.getPage (pageCeil e2.toNat) = .ok page) :
    Copied s0 A0 src (s2.addRef page) A N dst g (l ++ [va]) ∧ SameBase s (s2.addRef page) := by
  have hk := hc.kernel
  have htsp := Space.table_mem_pages hts
  have htdp := Space.table_mem_pages htd
  rw [hc.parent.load_pte hk hts] at he
  obtain rfl := Except.ok.inj he
  -- The parent's entry: it is stored only when that changes it.
  have hparent : Kernel s1 A N ∧ Space s1 A src ∧ Grows s s1 A A {ts} ∧ s1.alloc = s.alloc ∧
      ∀ v, src.pte s1 v = if v = vpn va then demote (src.pte s (vpn va)) else src.pte s v := by
    split at hs1
    · obtain ⟨s'', hst, hk1, hd1, hg1, hpte1, halloc⟩ := hc.parent.store_pte hk hts
      rw [hst] at hs1
      cases hs1
      exact ⟨hk1, hd1, hg1, halloc, hpte1⟩
    · rename_i hne
      cases hs1
      refine ⟨hk, hc.parent, Grows.rfl _ _ _, rfl, fun v => ?_⟩
      split
      · rename_i hv
        rw [demote_of_ne hne, hv]
      · rfl
  obtain ⟨hk1, hd1, hg1, halloc1, hpte1⟩ := hparent
  rw [← hg1.kva, hd1.load_pte hk1 hts, hpte1, if_pos rfl] at he1
  obtain rfl := Except.ok.inj he1
  obtain ⟨hchild1, hcpte1⟩ := hc.child.grows hg1 fun p hp h => hc.apart ts htsp (h ▸ hp)
  -- The child's entry.
  obtain ⟨s'', hst, hk2, hd2, hg2, hpte2, halloc2⟩ :=
    hchild1.store_pte (x := demote (src.pte s (vpn va))) hk1 htd
  rw [hg1.kva, hs2] at hst
  cases hst
  obtain ⟨hparent2, hppte2⟩ := hd1.grows hg2 fun p hp h => hc.apart p hp (h ▸ htdp)
  rw [← hg1.kva, ← hg2.kva, hparent2.load_pte hk2 hts, hppte2, hpte1, if_pos rfl] at he2
  obtain rfl := Except.ok.inj he2
  have hkeeps := addRef_keeps s2 page A
  obtain ⟨hparent3, hppte3⟩ := hparent2.keeps hkeeps hparent2.mem hparent2.mem fun _ _ h => h
  obtain ⟨hchild3, hcpte3⟩ := hd2.keeps hkeeps hd2.mem hd2.mem fun _ _ h => h
  have halloc : s2.alloc = s.alloc := halloc2.trans halloc1
  have hbase : SameBase s (s2.addRef page) :=
    (hg1.keeps.sameBase.trans hg2.keeps.sameBase).trans hkeeps.sameBase
  have hdem : demote (src.pte s (vpn va)) = demote (src.pte s0 (vpn va)) := by
    rw [hc.pte_parent]
    split
    · exact demote_demote _
    · rfl
  have hmem : ∀ v, v ∈ (l ++ [va]).map vpn ↔ v ∈ l.map vpn ∨ v = vpn va := by
    intro v
    rw [List.map_append, List.mem_append, List.map_singleton, List.mem_singleton]
  have hentry : ∀ v (x : Pte), (if v = vpn va then demote (src.pte s (vpn va))
      else if v ∈ l.map vpn then demote (src.pte s0 v) else x) =
        if v ∈ (l ++ [va]).map vpn then demote (src.pte s0 v) else x := by
    intro v x
    by_cases hv : v = vpn va
    · rw [if_pos hv, if_pos ((hmem v).2 (Or.inr hv)), hdem, hv]
    · simp only [if_neg hv, (hmem v).trans (or_iff_left hv)]
  refine ⟨⟨addRef_kernel hk2, hc.base.trans hbase, hc.sub, hparent3, hchild3, hc.apart, ?_, ?_, ?_, ?_⟩,
    hbase⟩
  · intro v
    rw [hppte3, hppte2, hpte1, hc.pte_parent v, hentry]
  · intro v
    rw [hcpte3, hpte2, hcpte1, hc.pte_child v, hentry]
  · intro b hb q hq
    have hqlt : q < s.alloc.pageCnt := hk.owns.lt_of_mem (hc.sub hb) hq
    have hqlt2 : q < s2.alloc.pageCnt := halloc ▸ hqlt
    rw [addRef_refCnt hk2 hqlt2 (pageCeil_mod _) hpage, halloc, hc.refCnt b hb q hq, mapCount_append, hdem]
    rw [hc.base.pageAddr, ← sharedAddr]
    split <;> omega
  · intro b hb hbA
    have hblt : b.start < s.alloc.pageCnt := hk.owns.start_lt hb
    have hblt2 : b.start < s2.alloc.pageCnt := halloc ▸ hblt
    rw [addRef_refCnt hk2 hblt2 (pageCeil_mod _) hpage, halloc, hdem, if_neg]
    · exact hc.pos b hb hbA
    · intro he
      rw [BuddyAllocator.pageAddr, hc.base.addr] at he
      obtain ⟨c, hcA, hmem⟩ := hva b.start (hc.base.pageCnt ▸ hblt) he
      exact hbA (hk.owns.eq_of_mem hb (hc.sub hcA) b.start_mem hmem ▸ hcA)

theorem Copied.round (hc : Copied s0 A0 src s A N dst g l) (hlt : va < kernelStart)
    (hva : Owned s0 A0 src va)
    (hok : vmAreaCopyLoop (s.kva src.dir) (s.kva dst.dir) (n + 1) s va = .ok s') :
    ∃ s1 A1 dst1, Copied s0 A0 src s1 A1 N dst1 g (l ++ [va]) ∧ dst1.dir = dst.dir ∧ SameBase s s1 ∧
      vmAreaCopyLoop (s.kva src.dir) (s.kva dst.dir) n s1 (nextPage va) = .ok s' := by
  have hk := hc.kernel
  cases hts : src.table (pdeIndex va) with
  | none =>
    -- Without a page table of the parent the lookup fails.
    rw [vmAreaCopyLoop, hc.parent.iter_none hk hlt hts] at hok
    cases hok
  | some ts =>
    have hpte := hc.parent.iter_some hk hts false
    have hnewOk : ∃ new s1, s.vmPageIter va (s.kva dst.dir) true = .ok (new, s1) := by
      rw [vmAreaCopyLoop, hpte, ok_bind] at hok
      obtain ⟨⟨new, s1⟩, hnew, _⟩ := bind_eq_ok hok
      exact ⟨new, s1, hnew⟩
    obtain ⟨new, s1, hnew⟩ := hnewOk
    obtain ⟨e, s2, s3, page, he, hs2, ⟨e2, he2, hs3⟩, ⟨e3, he3, hpage⟩, hrest⟩ :=
      vmAreaCopyLoop_succ hpte hnew hok
    obtain ⟨t, hc1, rfl, hg1⟩ := hc.iter hlt hnew
    have htd : (dst.addTable (pdeIndex va) t).table (pdeIndex va) = some t := by
      rw [Dir.addTable_table, if_pos rfl]
    rw [← hg1.kva] at he hs2 he2 he3
    obtain ⟨hc2, hbase⟩ := hc1.entry hva hts htd he hs2 he2 hs3 he3 hpage
    exact ⟨_, _, _, hc2, rfl, hg1.keeps.sameBase.trans hbase, hrest⟩

theorem Copied.loop (n : Nat) : ∀ {s : Vm} {A : Set Block} {dst : Dir} {l : List Nat} {va : Nat},
    Copied s0 A0 src s A N dst g l →
    (∀ a ∈ pageRun n va, a < kernelStart ∧ Owned s0 A0 src a) →
    vmAreaCopyLoop (s.kva src.dir) (s.kva dst.dir) n s va = .ok s' →
    ∃ A' dst', Copied s0 A0 src s' A' N dst' g (l ++ pageRun n va) ∧ dst'.dir = dst.dir := by
  induction n with
  | zero =>
    intro s A dst l va hc _ hok
    cases hok
    refine ⟨A, dst, ?_, rfl⟩
    rw [pageRun, List.append_nil]
    exact hc
  | succ n ih =>
    intro s A dst l va hc hall hok
    obtain ⟨hlt, hva⟩ := hall va List.mem_cons_self
    obtain ⟨s1, A1, dst1, hc1, hdir, hbase, hrest⟩ := hc.round hlt hva hok
    rw [← hbase.kva, ← hbase.kva, ← hdir] at hrest
    obtain ⟨A', dst', hc', hdir'⟩ := ih hc1 (fun a ha => hall a (List.mem_cons_of_mem _ ha)) hrest
    refine ⟨A', dst', ?_, hdir'.trans hdir⟩
    rw [pageRun, List.append_cons]
    exact hc'

theorem Copied.area {addr size : Nat} (hc : Copied s0 A0 src s A N dst g l)
    (hall : ∀ a ∈ pageRun (pageRounds size) addr, a < kernelStart ∧ Owned s0 A0 src a)
    (hok : s.vmAreaCopy addr size (s0.kva src.dir) (s0.kva dst.dir) = .ok s') :
    ∃ A' dst', Copied s0 A0 src s' A' N dst' g (l ++ pageRun (pageRounds size) addr) ∧
      dst'.dir = dst.dir := by
  rw [vmAreaCopy, ← hc.base.kva, ← hc.base.kva] at hok
  exact hc.loop _ hall hok

/-- The entry lets a user program write. -/
def UserWritable (e : Pte) : Prop := e &&& (vmPres ||| vmUrw) = vmPres ||| vmUrw

instance (e : Pte) : Decidable (UserWritable e) := inferInstanceAs (Decidable (_ = _))

theorem userWritable_or (x : Pte) : UserWritable (x ||| vmPres ||| vmUrw) := by
  rw [UserWritable, BitVec.or_assoc, BitVec.and_comm, BitVec.and_or_distrib_left, BitVec.and_self]
  apply BitVec.eq_of_getLsbD_eq
  intro i _
  simp only [BitVec.getLsbD_or, BitVec.getLsbD_and]
  cases x.getLsbD i <;> cases vmPres.getLsbD i <;> cases vmUrw.getLsbD i <;> rfl

/-- The copy so far survives everything that leaves the pages of both address spaces and the
references alone. -/
theorem Copied.keeps {A' B : Set Block} {N' : PageNode → List PageNode} {P : Set Nat}
    (hc : Copied s0 A0 src s A N dst g l) (hk : Kernel s' A' N') (hsub : A ⊆ A') (h : Keeps s s' B P)
    (hB : ∀ p, p ∈ src.pages ∨ p ∈ dst.pages → ⟨p, 0⟩ ∈ B)
    (hP : ∀ p, p ∈ src.pages ∨ p ∈ dst.pages → p ∉ P)
    (href : ∀ b ∈ A, ∀ q ∈ b, (s'.alloc.pages q).refCnt = (s.alloc.pages q).refCnt)
    (hpos : ∀ b ∈ A', b ∉ A → 0 < (s'.alloc.pages b.start).refCnt) :
    Copied s0 A0 src s' A' N' dst g l := by
  obtain ⟨hparent, hpte⟩ := hc.parent.keeps h (fun p hp => hB p (Or.inl hp))
    (fun p hp => hsub (hc.parent.mem p hp)) fun p hp => hP p (Or.inl hp)
  obtain ⟨hchild, hcpte⟩ := hc.child.keeps h (fun p hp => hB p (Or.inr hp))
    (fun p hp => hsub (hc.child.mem p hp)) fun p hp => hP p (Or.inr hp)
  refine ⟨hk, hc.base.trans h.sameBase, hc.sub.trans hsub, hparent, hchild, hc.apart, ?_, ?_, ?_, ?_⟩
  · intro v
    rw [hpte]
    exact hc.pte_parent v
  · intro v
    rw [hcpte]
    exact hc.pte_child v
  · intro b hb q hq
    rw [href b (hc.sub hb) q hq]
    exact hc.refCnt b hb q hq
  · intro b hb hbA
    by_cases hbA' : b ∈ A
    · rw [href b hbA' _ b.start_mem]
      exact hc.pos b hbA' hbA
    · exact hpos b hb hbA'

theorem Copied.setChild {td : Nat} {x : Pte} (hc : Copied s0 A0 src s A N dst g l)
    (htd : dst.table (pdeIndex va) = some td) (hout : vpn va ∉ l.map vpn)
    (hok : s.store (s.kva td + 4 * pteIndex va) x = .ok s') :
    Copied s0 A0 src s' A N dst (update g (vpn va) x) l ∧ Grows s s' A A {td} := by
  obtain ⟨s'', hst, hk, hd, hg, hpte, halloc⟩ := hc.child.store_pte (x := x) hc.kernel htd
  rw [hst] at hok
  cases hok
  have htdp := Space.table_mem_pages htd
  obtain ⟨hparent, hppte⟩ := hc.parent.grows hg fun p hp h => hc.apart p hp (h ▸ htdp)
  refine ⟨⟨hk, hc.base.trans hg.keeps.sameBase, hc.sub, hparent, hd, hc.apart, ?_, ?_, ?_, ?_⟩, hg⟩
  · intro v
    rw [hppte]
    exact hc.pte_parent v
  · intro v
    rw [hpte]
    by_cases hv : v = vpn va
    · rw [if_pos hv, if_neg (hv ▸ hout), hv, update_self]
    · rw [if_neg hv, update_of_ne hv]
      exact hc.pte_child v
  · rw [halloc]
    exact hc.refCnt
  · rw [halloc]
    exact hc.pos

theorem kvmUnmap2_spec (hk : Kernel s A N) (hb : ⟨p, 0⟩ ∈ A) (hm : KMapped s p) :
    s.kvmUnmap2 (s.kva p) = .ok (s.setEntry (s.frame p) vmNpres) := by
  have hlt : p < s.alloc.pageCnt := hk.owns.start_lt hb
  have hpage : s.kvmVm2page (s.kva p) = .ok (some p) := by
    have hv2p := hm.v2p (hk.pageAddr_mod hlt)
    obtain ⟨pte, hpte, hret⟩ := bind_eq_ok hv2p
    rw [kvmVm2page, hpte, ok_bind, Except.ok.inj hret]
    exact hk.getPage hlt
  rw [kvmUnmap2, hpage]
  exact kvmUnmap_spec hk hb hm

theorem copyPage_keeps (hk : Kernel s A N) (hb : ⟨p, 0⟩ ∈ A) (hm : KMapped s p)
    (hok : s.copyPage (s.kva p) a = .ok s') :
    Kernel s' A N ∧ KMapped s' p ∧ s'.alloc = s.alloc ∧ Keeps s s' (A \ {⟨p, 0⟩}) ∅ := by
  have hlt : p < s.alloc.pageCnt := hk.owns.start_lt hb
  obtain ⟨source, _, hok⟩ := bind_eq_ok hok
  obtain ⟨target, htarget, hret⟩ := bind_eq_ok hok
  have hframe := hm.frameAt (o := 0) (hk.pageAddr_mod hlt) (by decide)
  rw [Nat.add_zero, htarget] at hframe
  obtain rfl := Except.ok.inj hframe
  cases hret
  refine ⟨hk.congr rfl, ⟨hm.data, hm.lt, hm.entry⟩, rfl, rfl, rfl, fun _ _ _ _ => rfl,
    fun _ _ _ _ => rfl, ?_⟩
  intro c hc q hq _
  funext w
  refine if_neg fun he => hc.2 ?_
  obtain rfl := hk.frame_inj (hk.owns.lt_of_mem hc.1 hq) hlt he
  exact hk.owns.eq_of_mem hc.1 hb hq (Block.start_mem _)

theorem Copied.stackTop {s3 s4 s5 : Vm} {pde new stack pa top : Nat} {e' : Pte}
    (hc : Copied s0 A0 src s A N dst (fun _ => 0) l) (htop : top < kernelStart)
    (hpde : s.vmPageIter top (s.kva src.dir) false = .ok (pde, s1))
    (hnew : s1.vmPageIter top (s.kva dst.dir) true = .ok (new, s2))
    (he : s2.load pde = .ok e) (he' : s2.load new = .ok e') (hee : e ≠ 0 ∧ e' = 0)
    (hstack : s2.kmalloc pageSize = .ok (stack, s3)) (hpa : s3.v2p stack = .ok pa)
    (hstore : s3.store new (BitVec.ofNat 32 pa ||| vmPres ||| vmUrw) = .ok s4)
    (hcopy : s4.copyPage stack a = .ok s5) (hunmap : s5.kvmUnmap2 stack = .ok s') :
    ∃ A' dst' p, Copied s0 A0 src s' A' N dst'
      (update (fun _ => 0) (vpn top) (BitVec.ofNat 32 (s0.alloc.pageAddr p) ||| vmPres ||| vmUrw))
      l ∧ dst'.dir = dst.dir ∧ vpn top ∉ l.map vpn := by
  have hk := hc.kernel
  cases hts : src.table (pdeIndex top) with
  | none =>
    rw [hc.parent.iter_none hk htop hts] at hpde
    cases hpde
  | some ts =>
    rw [hc.parent.iter_some hk hts] at hpde
    cases hpde
    obtain ⟨t, hc2, rfl, hg2⟩ := hc.iter htop hnew
    have htd : (dst.addTable (pdeIndex top) t).table (pdeIndex top) = some t := by
      rw [Dir.addTable_table, if_pos rfl]
    -- Had the page been walked before, both entries would be the same.
    have hout : vpn top ∉ l.map vpn := by
      intro hmem
      rw [← hg2.kva, hc2.parent.load_pte hc2.kernel hts, hc2.pte_parent, if_pos hmem] at he
      rw [hc2.child.load_pte hc2.kernel htd, hc2.pte_child, if_pos hmem] at he'
      exact hee.1 ((Except.ok.inj he).symm.trans ((Except.ok.inj he').trans hee.2))
    obtain ⟨p, rfl, hk3, hm3, hg3, hf3, _⟩ := kmalloc_page_spec hc2.kernel hstack
    have hb : (⟨p, 0⟩ : Block) ∈ insert ⟨p, 0⟩ (insert ⟨t, 0⟩ A) := Or.inl rfl
    have hpages : ∀ q, q ∈ src.pages ∨ q ∈ (dst.addTable (pdeIndex top) t).pages →
        (⟨q, 0⟩ : Block) ∈ insert ⟨t, 0⟩ A := by
      rintro q (hq | hq)
      · exact hc2.parent.mem q hq
      · exact hc2.child.mem q hq
    have hc3 := hc2.keeps hk3 hg3.sub hg3.keeps hpages (fun _ _ h => h)
      (fun b hb q hq => congrArg Page.refCnt (hg3.page b hb q hq)) (by
        rintro b (rfl | h) hb
        · exact hf3.refCnt.symm ▸ Nat.one_pos
        · exact absurd h hb)
    rw [hm3.v2p (hk3.pageAddr_mod (hk3.owns.start_lt hb))] at hpa
    cases hpa
    rw [← hg3.kva] at hstore
    obtain ⟨hc4, hg4⟩ := hc3.setChild htd hout hstore
    have hm4 := hg4.kMapped hm3 hb (Block.start_mem _)
    rw [← hg4.kva] at hcopy hunmap
    obtain ⟨hk5, hm5, halloc5, hkeeps5⟩ := copyPage_keeps hc4.kernel hb hm4 hcopy
    rw [← hkeeps5.kva, kvmUnmap2_spec hk5 hb hm5] at hunmap
    cases hunmap
    have hkeeps6 := hkeeps5.trans (hk5.setEntry_keeps (e := vmNpres) hb (Block.start_mem _))
    rw [hc3.base.pageAddr] at hc4
    refine ⟨_, _, p, hc4.keeps (hk5.congr rfl) subset_rfl hkeeps6 ?_ (fun _ _ h => h) ?_ ?_, rfl, hout⟩
    · intro q hq
      refine ⟨Or.inr (hpages q hq), ?_⟩
      rintro ⟨⟩
      exact hf3.notMem _ (hpages _ hq) (Block.start_mem _)
    · intro b _ q _
      rw [setEntry_alloc, halloc5]
    · exact fun b hb hbA => absurd hb hbA

theorem Copied.stack {area : VmArea} (hc : Copied s0 A0 src s A N dst (fun _ => 0) l)
    (hsize : pageSize ≤ area.size) (htop : area.va + area.size ≤ kernelStart)
    (hall : ∀ a ∈ pageRun (pageRounds (area.size - pageSize)) area.va, a < kernelStart ∧ Owned s0 A0 src a)
    (hok : s.vmAreaCopyStack area (s0.kva src.dir) (s0.kva dst.dir) = .ok s') :
    ∃ A' dst' g, Copied s0 A0 src s' A' N dst' g
        (l ++ pageRun (pageRounds (area.size - pageSize)) area.va) ∧ dst'.dir = dst.dir ∧
      ∀ v, g v = 0 ∨ UserWritable (g v) := by
  have hks : kernelStart = 0xc0000000 := rfl
  have hps : pageSize = 4096 := rfl
  have hstart : (area.va + area.size + 2 ^ 32 - pageSize) % 2 ^ 32 = area.va + area.size - pageSize := by
    omega
  have hrest : (area.size + 2 ^ 32 - pageSize) % 2 ^ 32 = area.size - pageSize := by
    omega
  rw [vmAreaCopyStack] at hok
  simp only [hstart, hrest] at hok
  simp only [bind_ok_iff, Prod.exists] at hok
  obtain ⟨pde, s1, hpde, new, s2, hnew, e, he, e', he', _, hassert, stack, s3, hstack, pa, hpa, s4, hstore, _,
    _, a, _, s5, hcopy, s6, hunmap, hok⟩ := hok
  have hee : e ≠ 0 ∧ e' = 0 := of_assertk hassert
  rw [← hc.base.kva] at hpde hnew
  obtain ⟨A', dst', p, hc', hdir, _⟩ := hc.stackTop (by omega) hpde hnew he he' hee hstack hpa hstore
    hcopy hunmap
  rw [← hdir] at hok
  obtain ⟨A'', dst'', hc'', hdir'⟩ := hc'.area hall hok
  refine ⟨A'', dst'', _, hc'', hdir'.trans hdir, fun v => ?_⟩
  by_cases hv : v = vpn (area.va + area.size - pageSize)
  · rw [hv, update_self]
    exact Or.inr (userWritable_or _)
  · rw [update_of_ne hv]
    exact Or.inl rfl

theorem Space.setMem_kernel {i : Nat} {x : BitVec 32} (hk : Kernel s A N) (hd : Space s A d)
    (hi : 768 ≤ i) : Space (s.setMem (s.frame d.dir) i x) A d ∧
      ∀ v, d.pte (s.setMem (s.frame d.dir) i x) v = d.pte s v := by
  have hdir : ∀ j < 768, (s.setMem (s.frame d.dir) i x).mem (s.frame d.dir) j =
      s.mem (s.frame d.dir) j := by
    intro j hj
    refine if_neg fun h => ?_
    omega
  refine ⟨⟨hd.mem, fun p hp => (hd.mapped p hp).setMem, hd.user, hd.dir_ne, hd.inj, ?_, ?_⟩, ?_⟩
  · intro j hj hnone
    exact (hdir j hj).trans (hd.pde_none j hj hnone)
  · intro j t hj
    have hold := hd.pde_some j t hj
    rw [← hdir j (hd.user j t hj)] at hold
    exact hold
  · intro v
    cases ht : d.table (v / 1024) with
    | none => rw [Dir.pte_none ht, Dir.pte_none ht]
    | some t =>
      rw [Dir.pte_some ht, Dir.pte_some ht]
      refine if_neg fun h => ?_
      have he := hk.frame_inj (hd.lt hk (Space.table_mem_pages ht))
        (hd.lt hk (Space.dir_mem_pages d)) h.1
      exact hd.dir_ne _ (he ▸ ht)

theorem Copied.kvmCopy (is : List Nat) : ∀ {s : Vm}, (∀ i ∈ is, i < 256) →
    Copied s0 A0 src s A N dst g l → kvmCopyLoop (s.kva dst.dir) is s = .ok s' →
    Copied s0 A0 src s' A N dst g l := by
  induction is with
  | nil =>
    intro s _ hc hok
    cases hok
    exact hc
  | cons i is ih =>
    intro s hlt hc hok
    have hi := hlt i List.mem_cons_self
    have hlt' := fun j hj => hlt j (List.mem_cons_of_mem _ hj)
    rw [kvmCopyLoop] at hok
    split at hok
    · obtain ⟨s1, hstore, hok⟩ := bind_eq_ok hok
      have hdirp := Space.dir_mem_pages dst
      rw [hc.child.store hc.kernel hdirp (by omega)] at hstore
      cases hstore
      obtain ⟨hchild, hcpte⟩ := hc.child.setMem_kernel (x := s.pageDir i) hc.kernel
        (Nat.le_add_right 768 i)
      have hg := (Grows.rfl s A {dst.dir}).setMem (w := 768 + i) (x := s.pageDir i) hc.kernel
        (hc.child.lt hc.kernel hdirp) fun _ => rfl
      obtain ⟨hparent, hppte⟩ := hc.parent.grows hg fun p hp h => hc.apart p hp (h ▸ hdirp)
      have hc1 : Copied s0 A0 src (s.setMem (s.frame dst.dir) (768 + i) (s.pageDir i)) A N dst g l := by
        refine ⟨hc.kernel.congr rfl, hc.base.trans hg.keeps.sameBase, hc.sub, hparent, hchild,
          hc.apart, ?_, ?_, hc.refCnt, hc.pos⟩
        · intro v
          rw [hppte]
          exact hc.pte_parent v
        · intro v
          rw [hcpte]
          exact hc.pte_child v
      exact ih hlt' hc1 hok
    · exact ih hlt' hc hok

/-- The pages that the walk goes through: all but the topmost page of the stack. -/
def forkPages (mm : MmStruct) : List Nat :=
  mm.text.pages ++ mm.rodata.pages ++ mm.data.pages ++ mm.bss.pages ++ mm.brk.pages ++
    pageRun (pageRounds (mm.stack.size - pageSize)) mm.stack.va

/-- An address space that `vm_struct_copy` is made for: the pages it walks are mapped in user space, to
memory that the allocator has handed out or that lies before what it manages, and the stack has a
topmost page. -/
structure Forkable (s : Vm) (A : Set Block) (N : PageNode → List PageNode) (d : Dir) (mm : MmStruct) :
    Prop where
  kernel : Kernel s A N
  space : Space s A d
  pgdir : mm.pgdir = s.kva d.dir
  user : ∀ va ∈ forkPages mm, va < kernelStart
  present : ∀ va ∈ forkPages mm, d.pte s (vpn va) &&& vmPres ≠ 0
  owned : ∀ va ∈ forkPages mm, pageCeil (d.pte s (vpn va)).toNat < s.alloc.addr ∨
    ∃ b ∈ A, ∃ q ∈ b, pageCeil (d.pte s (vpn va)).toNat = s.alloc.pageAddr q
  stack_size : pageSize ≤ mm.stack.size
  stack_top : mm.stack.va + mm.stack.size ≤ kernelStart
  refCnt : ∀ b ∈ A, ∀ q ∈ b, (s.alloc.pages q).refCnt < 2 ^ 16

theorem pageCeil_demote (h : e &&& vmUrw = vmUrw) : pageCeil (demote e).toNat = 0 := by
  have hle : (demote e).toNat ≤ 0x200 := by
    rw [demote, if_pos h, BitVec.toNat_and, BitVec.toNat_and]
    exact Nat.and_le_left.trans Nat.and_le_right
  rw [pageCeil, Nat.div_eq_of_lt (by omega)]

theorem Forkable.exists_block (hf : Forkable s A N d mm)
    (hva : va ∈ forkPages mm) (hq : q < s.alloc.pageCnt)
    (he : pageCeil (d.pte s (vpn va)).toNat = s.alloc.pageAddr q) : ∃ b ∈ A, q ∈ b := by
  have haddr := hf.kernel.pageAddr_eq hq
  rcases hf.owned va hva with hlt | ⟨b, hb, q', hq', he'⟩
  · omega
  · have haddr' := hf.kernel.pageAddr_eq (hf.kernel.owns.lt_of_mem hb hq')
    obtain rfl : q = q' := by omega
    exact ⟨b, hb, hq'⟩

theorem Forkable.shared (hf : Forkable s A N d mm) (hva : va ∈ forkPages mm) : Owned s A d va := by
  intro q hq he
  rw [sharedAddr] at he
  by_cases h : d.pte s (vpn va) &&& vmUrw = vmUrw
  · rw [pageCeil_demote h, hf.kernel.pageAddr_eq hq] at he
    have := hf.kernel.pos
    omega
  · rw [demote_of_ne h] at he
    exact hf.exists_block hva hq he

theorem vmStructCopy_spec {new : MmStruct} (hf : Forkable s A N d mm)
    (hok : s.vmStructCopy mm = .ok (new, s')) :
    ∃ A' N' dst g, Copied s A d s' A' N' dst g (forkPages mm) ∧ new.pgdir = s'.kva dst.dir ∧
      mm.pgdir = s'.kva d.dir ∧ ∀ v, g v = 0 ∨ UserWritable (g v) := by
  obtain ⟨⟨_, s1⟩, hmalloc, hok⟩ := bind_eq_ok hok
  simp only [bind_ok_iff, Prod.exists] at hok
  obtain ⟨mm', s2, hinit, s3, htext, s4, hrodata, s5, hdata, s6, hbss, s7, hbrk, s8, hstack, s9, hkvm, cr3, _,
    hret⟩ := hok
  obtain ⟨⟨addr, s2'⟩, hcalloc, hret'⟩ := bind_eq_ok hinit
  cases hret'
  cases hret
  obtain ⟨A1, N1, hk1, hg1, _, hpos1⟩ := kmalloc_mm_spec hf.kernel hmalloc
  obtain ⟨p, rfl, hk2, hm, hg2, hfresh, hzero⟩ := kcallocPage_spec hk1 hcalloc
  have hg := hg1.trans hg2
  have hc2 : Copied s A d s2 (insert ⟨p, 0⟩ A1) N1 ⟨p, fun _ => none⟩ (fun _ => 0) [] := by
    obtain ⟨hparent, hpte⟩ := hf.space.grows hg fun _ _ h => h
    refine ⟨hk2, hg.keeps.sameBase, hg.sub, hparent, Space.of_zero (Or.inl rfl) hm hzero, ?_, ?_, ?_, ?_,
      ?_⟩
    · rintro q hq (rfl | ⟨i, hi⟩)
      · exact hfresh.notMem _ (hg1.sub (hf.space.mem _ hq)) (Block.start_mem _)
      · cases hi
    · intro v
      rw [hpte]
      rfl
    · intro v
      rfl
    · intro b hb q hq
      rw [hg.page b hb q hq]
      exact (Nat.mod_eq_of_lt (hf.refCnt b hb q hq)).symm
    · rintro b (rfl | hb) hbA
      · exact hfresh.refCnt.symm ▸ Nat.one_pos
      · rw [hg2.page b hb _ b.start_mem]
        exact hpos1 b hb hbA
  have hall : ∀ area : VmArea, (∀ a ∈ area.pages, a ∈ forkPages mm) →
      ∀ a ∈ pageRun (pageRounds area.size) area.va, a < kernelStart ∧ Owned s A d a :=
    fun area harea a ha => ⟨hf.user a (harea a ha), hf.shared (harea a ha)⟩
  have hpgdir : s2.kva p = s.kva p := hg.kva p
  rw [hf.pgdir, hpgdir] at htext hrodata hdata hbss hbrk hstack
  obtain ⟨A3, d3, hc3, hdir3⟩ := hc2.area (hall mm.text fun a ha => by simp [forkPages, ha]) htext
  rw [← show d3.dir = p from hdir3] at hrodata hdata hbss hbrk hstack
  obtain ⟨A4, d4, hc4, hdir4⟩ := hc3.area (hall mm.rodata fun a ha => by simp [forkPages, ha]) hrodata
  rw [← hdir4] at hdata hbss hbrk hstack
  obtain ⟨A5, d5, hc5, hdir5⟩ := hc4.area (hall mm.data fun a ha => by simp [forkPages, ha]) hdata
  rw [← hdir5] at hbss hbrk hstack
  obtain ⟨A6, d6, hc6, hdir6⟩ := hc5.area (hall mm.bss fun a ha => by simp [forkPages, ha]) hbss
  rw [← hdir6] at hbrk hstack
  obtain ⟨A7, d7, hc7, hdir7⟩ := hc6.area (hall mm.brk fun a ha => by simp [forkPages, ha]) hbrk
  rw [← hdir7] at hstack
  obtain ⟨A8, d8, g, hc8, hdir8, hg8⟩ := hc7.stack hf.stack_size hf.stack_top
    (fun a ha => ⟨hf.user a (by simp [forkPages, ha]), hf.shared (by simp [forkPages, ha])⟩) hstack
  have hdir : d8.dir = p := by
    rw [hdir8, hdir7, hdir6, hdir5, hdir4, hdir3]
  rw [hpgdir, ← hdir, ← hc8.base.kva] at hkvm
  have hc9 := hc8.kvmCopy _ (fun i hi => List.mem_range.1 hi) hkvm
  have hc : Copied s A d { s9 with cr3 } A8 N1 d8 g (forkPages mm) := by
    refine hc9.keeps (B := A8) (P := ∅) (hc9.kernel.congr rfl) subset_rfl
      ⟨rfl, rfl, fun _ _ _ _ => rfl, fun _ _ _ _ => rfl, fun _ _ _ _ _ => rfl⟩ ?_ (fun _ _ h => h)
      (fun _ _ _ _ => rfl) (fun b hb hbA => absurd hb hbA)
    rintro q (hq | hq)
    · exact hc9.parent.mem q hq
    · exact hc9.child.mem q hq
  refine ⟨A8, N1, d8, g, hc, ?_, ?_, hg8⟩
  · rw [hc.base.kva, hdir, ← hpgdir]
  · rw [hc.base.kva]
    exact hf.pgdir

/-- The entry `e'` is read-only, maps what `e` mapped and remembers whether it was writable. -/
structure ReadOnlyCopy (e e' : Pte) : Prop where
  present : e' &&& vmPres ≠ 0
  addr : pageCeil e'.toNat = pageCeil e.toNat
  readonly : e' &&& vmKrw = 0
  marked : e' &&& vmIgnoreBit1 ≠ 0 ↔ e &&& vmKrw ≠ 0

structure PageForked (s s' : Vm) (mm new : MmStruct) (va : Nat) : Prop where
  parent : ReadOnlyCopy (s.userPte mm.pgdir va) (s'.userPte mm.pgdir va)
  child : ReadOnlyCopy (s.userPte mm.pgdir va) (s'.userPte new.pgdir va)
  refCnt : ∀ p < s.alloc.pageCnt, pageCeil (s.userPte mm.pgdir va).toNat = s.alloc.pageAddr p →
    (s'.alloc.pages p).refCnt = (s.alloc.pages p).refCnt + 1

/-- So many of the walked pages are mapped to the same place as `va`. -/
def aliases (s : Vm) (mm : MmStruct) (va : Nat) : Nat :=
  (forkPages mm).countP fun a =>
    pageCeil (s.userPte mm.pgdir a).toNat = pageCeil (s.userPte mm.pgdir va).toNat

theorem readOnlyCopy_demote (hpres : e &&& vmPres ≠ 0) :
    ReadOnlyCopy e (demote e) ↔ e &&& vmKrw = 0 ∧ e &&& vmIgnoreBit1 = 0 := by
  by_cases h : e &&& vmUrw = vmUrw
  · -- The mask that should have set the mark keeps nothing else.
    have hgone : demote e &&& vmPres = 0 := by
      rw [and_pres_eq_zero, demote, if_pos h]
      simp [vmIgnoreBit1]
    have hrw : e &&& vmKrw ≠ 0 := by
      intro hzero
      have hbit := congrArg (fun x => BitVec.getLsbD x 1) h
      have hbit' := congrArg (fun x => BitVec.getLsbD x 1) hzero
      simp [vmUrw, vmKrw] at hbit hbit'
      rw [hbit] at hbit'
      cases hbit'
    exact iff_of_false (fun hc => hc.present hgone) fun hc => hrw hc.1
  · rw [demote_of_ne h]
    constructor
    · intro hc
      have hmark := hc.marked
      rw [hc.readonly] at hmark
      exact ⟨hc.readonly, not_not.1 fun hne => hmark.1 hne rfl⟩
    · rintro ⟨hro, hmark⟩
      exact ⟨hpres, rfl, hro, by rw [hro, hmark]⟩

theorem demote_readonly (h : e &&& vmKrw = 0) : demote e = e := by
  apply demote_of_ne
  intro hurw
  have hbit := congrArg (fun x => BitVec.getLsbD x 1) hurw
  have hbit' := congrArg (fun x => BitVec.getLsbD x 1) h
  simp [vmUrw, vmKrw] at hbit hbit'
  rw [hbit] at hbit'
  cases hbit'

/-- The fork keeps the address space exactly when none of the walked pages is writable or carries the
mark already, and every managed page among them is mapped once and has room for a reference. -/
theorem pageForked_iff {mm new : MmStruct} (hf : ∃ A N d, Forkable s A N d mm)
    (hok : s.vmStructCopy mm = .ok (new, s')) :
    (∀ va ∈ forkPages mm, PageForked s s' mm new va) ↔
      ∀ va ∈ forkPages mm, s.userPte mm.pgdir va &&& vmKrw = 0 ∧
        s.userPte mm.pgdir va &&& vmIgnoreBit1 = 0 ∧
        ∀ p < s.alloc.pageCnt, pageCeil (s.userPte mm.pgdir va).toNat = s.alloc.pageAddr p →
          (s.alloc.pages p).refCnt < 2 ^ 16 - 1 ∧ s.aliases mm va % 2 ^ 16 = 1 := by
  obtain ⟨A, N, d, hf⟩ := hf
  obtain ⟨A', N', dst, g, hc, hnew, hold, _⟩ := vmStructCopy_spec hf hok
  have hpte : ∀ va ∈ forkPages mm, s.userPte mm.pgdir va = d.pte s (vpn va) := by
    intro va hva
    rw [hf.pgdir]
    exact hf.space.userPte hf.kernel (hf.user va hva)
  have hptes : ∀ va ∈ forkPages mm, s'.userPte mm.pgdir va = demote (d.pte s (vpn va)) ∧
      s'.userPte new.pgdir va = demote (d.pte s (vpn va)) := by
    intro va hva
    have hmem : vpn va ∈ (forkPages mm).map vpn := List.mem_map_of_mem hva
    rw [hold, hnew, hc.parent.userPte hc.kernel (hf.user va hva),
      hc.child.userPte hc.kernel (hf.user va hva), hc.pte_parent, hc.pte_child, if_pos hmem]
    exact ⟨rfl, if_pos hmem⟩
  -- When nothing is writable, the references count the pages that are mapped to the same place.
  have hcount : (∀ a ∈ forkPages mm, d.pte s (vpn a) &&& vmKrw = 0) → ∀ va ∈ forkPages mm, ∀ p,
      pageCeil (d.pte s (vpn va)).toNat = s.alloc.pageAddr p →
      mapCount s d (forkPages mm) p = s.aliases mm va := by
    intro hro va hva p hp
    apply List.countP_congr
    intro a ha
    rw [sharedAddr, demote_readonly (hro a ha), hpte a ha, hpte va hva, hp]
  have href : ∀ va ∈ forkPages mm, ∀ p < s.alloc.pageCnt,
      pageCeil (d.pte s (vpn va)).toNat = s.alloc.pageAddr p → (s.alloc.pages p).refCnt < 2 ^ 16 ∧
      (s'.alloc.pages p).refCnt =
        ((s.alloc.pages p).refCnt + mapCount s d (forkPages mm) p) % 2 ^ 16 := by
    intro va hva p hp haddr
    obtain ⟨b, hb, hpb⟩ := hf.exists_block hva hp haddr
    exact ⟨hf.refCnt b hb p hpb, hc.refCnt b hb p hpb⟩
  constructor
  · intro h
    have hro : ∀ a ∈ forkPages mm, d.pte s (vpn a) &&& vmKrw = 0 ∧
        d.pte s (vpn a) &&& vmIgnoreBit1 = 0 := by
      intro a ha
      have hcopy := (h a ha).parent
      rw [hpte a ha, (hptes a ha).1] at hcopy
      exact (readOnlyCopy_demote (hf.present a ha)).1 hcopy
    intro va hva
    rw [hpte va hva]
    refine ⟨(hro va hva).1, (hro va hva).2, fun p hp haddr => ?_⟩
    obtain ⟨hlt, href'⟩ := href va hva p hp haddr
    have hgrew := (h va hva).refCnt p hp (by rw [hpte va hva]; exact haddr)
    rw [href', hcount (fun a ha => (hro a ha).1) va hva p haddr] at hgrew
    omega
  · intro h va hva
    have hro : ∀ a ∈ forkPages mm, d.pte s (vpn a) &&& vmKrw = 0 := by
      intro a ha
      rw [← hpte a ha]
      exact (h a ha).1
    obtain ⟨hrw, hmark, hone⟩ := h va hva
    rw [hpte va hva] at hrw hmark hone
    have hcopy := (readOnlyCopy_demote (hf.present va hva)).2 ⟨hrw, hmark⟩
    refine ⟨?_, ?_, ?_⟩
    · rw [hpte va hva, (hptes va hva).1]
      exact hcopy
    · rw [hpte va hva, (hptes va hva).2]
      exact hcopy
    · intro p hp haddr
      rw [hpte va hva] at haddr
      obtain ⟨hlt, href'⟩ := href va hva p hp haddr
      obtain ⟨hroom, honce⟩ := hone p hp haddr
      rw [href', hcount hro va hva p haddr]
      omega

theorem pageRun_mono {m : Nat} (hmn : m ≤ n) : ∀ {va a : Nat}, a ∈ pageRun m va → a ∈ pageRun n va := by
  induction m generalizing n with
  | zero => exact fun h => absurd h List.not_mem_nil
  | succ m ih =>
    intro va a h
    obtain ⟨k, rfl⟩ : ∃ k, n = k + 1 := ⟨n - 1, by omega⟩
    rcases List.mem_cons.1 h with rfl | h
    · exact List.mem_cons_self
    · exact List.mem_cons_of_mem _ (ih (by omega) h)

theorem mem_pages_of_mem_forkPages (h : va ∈ forkPages mm) : va ∈ mm.pages := by
  have hle : pageRounds (mm.stack.size - pageSize) ≤ pageRounds mm.stack.size :=
    Nat.div_le_div_right (by omega)
  have hstack : va ∈ pageRun (pageRounds (mm.stack.size - pageSize)) mm.stack.va → va ∈ mm.stack.pages :=
    fun h => pageRun_mono hle h
  simp only [forkPages, List.mem_append] at h
  simp only [MmStruct.pages, MmStruct.areas, List.flatMap_cons, List.flatMap_nil, List.append_nil,
    List.mem_append]
  rcases h with ((((htext | hrodata) | hdata) | hbss) | hbrk) | hrun
  · exact Or.inl htext
  · exact Or.inr (Or.inr (Or.inr (Or.inl hrodata)))
  · exact Or.inr (Or.inl hdata)
  · exact Or.inr (Or.inr (Or.inl hbss))
  · exact Or.inr (Or.inr (Or.inr (Or.inr (Or.inl hbrk))))
  · exact Or.inr (Or.inr (Or.inr (Or.inr (Or.inr (hstack hrun)))))

theorem Loaded.forkable {f : Nat → Option Nat} {X : Set Nat}
    (hl : Loaded s A0 N mm d f) (hlive : Live s A0 X N d f ∅) (hsize : pageSize ≤ mm.stack.size)
    (htop : mm.stack.va + mm.stack.size ≤ kernelStart)
    (href : ∀ q < s.alloc.pageCnt, (s.alloc.pages q).refCnt < 2 ^ 16) :
    Forkable s (withPages A0 X) N d mm := by
  have hmap : ∀ va ∈ forkPages mm, ∃ q, f (vpn va) = some q := fun va hva =>
    Option.ne_none_iff_exists'.1 (hl.mapped.ne_none va (mem_pages_of_mem_forkPages hva))
  refine ⟨hlive.taken.kernel, hlive.space, hl.pgdir, ?_, ?_, ?_, hsize, htop, ?_⟩
  · intro va hva
    obtain ⟨q, hq⟩ := hmap va hva
    obtain ⟨t, ht⟩ := hlive.table_of_some hq
    exact lt_of_pdeIndex (hlive.space.user _ t ht)
  · intro va hva
    obtain ⟨q, hq⟩ := hmap va hva
    exact (hlive.pte_some _ q hq).1
  · intro va hva
    obtain ⟨q, hq⟩ := hmap va hva
    exact Or.inr ⟨_, page_mem_withPages (hlive.page _ q hq).1, q, Block.start_mem _,
      (hlive.pte_some _ q hq).2⟩
  · intro b hb q hq
    exact href q (hlive.taken.kernel.owns.lt_of_mem hb hq)

/-- The address space has room for references, and can write to what it does not share. -/
def Roomy (s : Vm) (mm : MmStruct) : Prop :=
  (∀ q < s.alloc.pageCnt, (s.alloc.pages q).refCnt + (forkPages mm).length < 2 ^ 16) ∧
    ∀ va ∈ mm.pages, vpn va ∉ (forkPages mm).map vpn → UserWritable (s.userPte mm.pgdir va)

instance (s : Vm) (mm : MmStruct) : Decidable (Roomy s mm) := inferInstanceAs (Decidable (_ ∧ _))

def smallFork (write : Bool) : Except Fault ((MmStruct × Vm) × MmStruct × Vm) := do
  let (_, mm, s) ← smallSpace (fun s mm a => OnePage s mm a) write 4096
  assertk (mm.stack.size = pageSize ∧ mm.stack.va = kernelStart - 2 * pageSize ∧ Roomy s mm)
  let (new, s') ← s.vmStructCopy mm
  .ok ((mm, s), new, s')

theorem smallFork_loaded {write : Bool} {new : MmStruct} (hok : smallFork write = .ok ((mm, s), new, s')) :
    s.vmStructCopy mm = .ok (new, s') ∧ (∃ A N d f, Loaded s A N mm d f) ∧ Roomy s mm ∧
      pageSize ≤ mm.stack.size ∧ mm.stack.va + mm.stack.size ≤ kernelStart := by
  obtain ⟨⟨⟨mm0, s0⟩, mm1, s1⟩, hspace, hok⟩ := bind_eq_ok hok
  obtain ⟨_, hassert, hok⟩ := bind_eq_ok hok
  obtain ⟨⟨new', s2⟩, hcopy, hret⟩ := bind_eq_ok hok
  cases hret
  obtain ⟨hsize, hva, hroomy⟩ := of_assertk hassert
  obtain ⟨hempty, hbuilt⟩ := smallSpace_built hspace
  obtain ⟨A0, N, d0, hl0, _⟩ := hempty.loaded
  obtain ⟨d, f, hl, _⟩ := (hbuilt.mono fun s mm a h => of_decide_eq_true h).loaded hl0
  refine ⟨hcopy, ⟨A0, N, d, f, hl⟩, hroomy, hsize.ge, ?_⟩
  rw [hsize, hva]
  decide

theorem smallFork_forkable {write : Bool} {new : MmStruct}
    (hok : smallFork write = .ok ((mm, s), new, s')) : ∃ A N d, Forkable s A N d mm := by
  obtain ⟨_, ⟨A0, N, d, f, hl⟩, ⟨href, _⟩, hsize, htop⟩ := smallFork_loaded hok
  obtain ⟨X, hlive⟩ := hl.live
  refine ⟨_, N, d, hl.forkable hlive hsize htop fun q hq => ?_⟩
  have := href q hq
  omega

theorem pageForked_readonly : ∃ s mm s' new, (∃ A N d, Forkable s A N d mm) ∧
    s.vmStructCopy mm = .ok (new, s') ∧ forkPages mm = [0x1000] ∧
    ∀ va ∈ forkPages mm, PageForked s s' mm new va := by
  obtain ⟨⟨⟨mm, s⟩, new, s'⟩, hs, hrun⟩ := exists_of_passes (x := smallFork false)
    (fun ((mm, s), _, _) => decide (forkPages mm = [0x1000] ∧
      ∀ va ∈ forkPages mm, s.userPte mm.pgdir va &&& vmKrw = 0 ∧
        s.userPte mm.pgdir va &&& vmIgnoreBit1 = 0 ∧
        ∀ p < s.alloc.pageCnt, pageCeil (s.userPte mm.pgdir va).toNat = s.alloc.pageAddr p →
          (s.alloc.pages p).refCnt < 2 ^ 16 - 1 ∧ s.aliases mm va % 2 ^ 16 = 1)) (by decide +kernel)
  obtain ⟨hpages, hcond⟩ := of_decide_eq_true hrun
  have hf := smallFork_forkable hs
  have hcopy := (smallFork_loaded hs).1
  exact ⟨s, mm, s', new, hf, hcopy, hpages, (pageForked_iff hf hcopy).2 hcond⟩

/-- A writable page loses its address and its present bit. -/
theorem writable_not_pageForked : ∃ s mm s' new, (∃ A N d, Forkable s A N d mm) ∧
    s.vmStructCopy mm = .ok (new, s') ∧ 0x1000 ∈ forkPages mm ∧
    s'.userPte mm.pgdir 0x1000 = 0 ∧ ¬ PageForked s s' mm new 0x1000 := by
  obtain ⟨⟨⟨mm, s⟩, new, s'⟩, hs, hrun⟩ := exists_of_passes (x := smallFork true)
    (fun ((mm, _), _, s') => decide (0x1000 ∈ forkPages mm ∧ s'.userPte mm.pgdir 0x1000 = 0))
    (by decide +kernel)
  obtain ⟨hpages, hzero⟩ := of_decide_eq_true hrun
  have hf := smallFork_forkable hs
  have hcopy := (smallFork_loaded hs).1
  refine ⟨s, mm, s', new, hf, hcopy, hpages, hzero, fun h => h.parent.present ?_⟩
  rw [hzero]
  decide

end Vm

end QuarkOS
