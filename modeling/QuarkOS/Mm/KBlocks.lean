import QuarkOS.Mm.AllocRuns
import QuarkOS.Mm.SlabHeap

/-!
# Blocks of the kernel

A block of the page allocator that the kernel maps for its owner, as `kmalloc` does with the large
requests: taken from the allocator and mapped, unmapped and given back. The rest of the kernel keeps its
memory (`NewBlock`, `FreedBlock`), and free pages keep the flags that their last owners left on them.
-/

namespace QuarkOS

open CList Dyadic BuddyAllocator FreeList

namespace Vm

variable {s s' : Vm} {A A' : Set Block} {N N' : PageNode → List PageNode} {P : Set Nat} {b : Block}
  {p n : Nat} {m : BitVec 16} {G G' : Nat → Option Slab} {size : PageNode → Nat}

/-- The block has one owner and is mapped, and none of its pages carries one of the flags `m`. -/
structure BlockOk (m : BitVec 16) (s : Vm) (A : Set Block) (b : Block) : Prop where
  mem : b ∈ A
  data : (s.alloc.pages b.start).data = s.kva b.start
  refCnt : (s.alloc.pages b.start).refCnt = 1
  rwlock : (s.alloc.pages b.start).rwlock.writelock = false
  entry : ∀ q ∈ b, presentFrame (s.kPageTables (s.frame q)) = .ok (s.frame q)
  flag : ∀ q ∈ b, (s.alloc.pages q).flag &&& m = 0#16

theorem BlockOk.grows {B B' : Set Block} (h : BlockOk m s A b) (hg : Grows s s' B B' P) (hb : b ∈ B)
    (hb' : b ∈ A') : BlockOk m s' A' b := by
  refine ⟨hb', ?_, ?_, ?_, ?_, ?_⟩
  · rw [hg.page b hb _ b.start_mem, hg.kva]
    exact h.data
  · rw [hg.page b hb _ b.start_mem]
    exact h.refCnt
  · rw [hg.page b hb _ b.start_mem]
    exact h.rwlock
  · intro q hq
    rw [hg.frame, hg.entry b hb q hq]
    exact h.entry q hq
  · intro q hq
    rw [hg.page b hb q hq]
    exact h.flag q hq

theorem BlockOk.kMapped (h : BlockOk m s A b) (hk : Kernel s A N) (hr : Ready s A) : KMapped s b.start := by
  have hend := hk.block_end h.mem hr.top
  have hpos : 0 < orderSize b.order := by
    rw [orderSize_eq]
    exact Nat.mul_pos (by decide) (Nat.two_pow_pos _)
  exact ⟨h.data, by omega, h.entry _ b.start_mem⟩

theorem Kernel.blocks_apart {c : Block} (hk : Kernel s A N) (hb : b ∈ A) (hc : c ∈ A) (hne : b ≠ c) :
    s.kva b.start + orderSize b.order ≤ s.kva c.start ∨
      s.kva c.start + orderSize c.order ≤ s.kva b.start := by
  have hbc : b.start ∉ c := fun h => hne (hk.owns.eq_of_mem hb hc b.start_mem h)
  have hcb : c.start ∉ b := fun h => hne (hk.owns.eq_of_mem hb hc h c.start_mem)
  rw [Block.mem_def] at hbc hcb
  rw [kva, kva, hk.pageAddr_eq (hk.owns.start_lt hb), hk.pageAddr_eq (hk.owns.start_lt hc), orderSize_eq,
    orderSize_eq]
  omega

theorem presentFrame_entry {f : Nat} {flags : Pte} (hf : f < 2 ^ 20)
    (hflags : flags.getLsbD 0 = true ∧ flags.toNat < 4096) :
    presentFrame (BitVec.ofNat 32 (4096 * f) ||| flags) = .ok f := by
  rw [presentFrame, if_neg (entry_present hflags.1), entry_frame (Nat.mul_mod_right _ _) (by omega) hflags.2,
    Nat.shiftRight_eq_div_pow]
  congr 1
  omega

/-- The state after the block `b` was mapped. -/
structure MapsBlock (s s' : Vm) (b : Block) : Prop where
  alloc : s'.alloc = s.alloc.modifyPage b.start fun q => { q with data := s.kva b.start }
  entry : ∀ q ∈ b, presentFrame (s'.kPageTables (s.frame q)) = .ok (s.frame q)
  entry_other : ∀ j, (∀ q ∈ b, j ≠ s.frame q) → s'.kPageTables j = s.kPageTables j
  mem : s'.mem = s.mem
  slabs : s'.slabs = s.slabs
  pageDir : s'.pageDir = s.pageDir
  cr3 : s'.cr3 = s.cr3

theorem Kernel.mapsBlock {flags : Pte} (hk : Kernel s A N) (hb : b ∈ A)
    (htop : s.alloc.addr + 4096 * s.alloc.pageCnt ≤ physTop)
    (hfree : ∀ q ∈ b, s.kPageTables (s.frame q) &&& vmPres = 0)
    (hflags : flags.getLsbD 0 = true ∧ flags.toNat < 4096) :
    ∃ s', s.kvmMap b.start flags = .ok s' ∧ MapsBlock s s' b := by
  have hend := hk.block_end hb htop
  refine ⟨_, kvmMap_block hk hb hend hfree, rfl, ?_, ?_, rfl, rfl, rfl, rfl⟩
  · intro q hq
    have hin := (hk.mem_frames hb (s.frame q)).2 ⟨q, hq, rfl⟩
    refine (congrArg presentFrame (if_pos hin)).trans (presentFrame_entry ?_ hflags)
    obtain ⟨_, _, _, _, _, _, hmax⟩ := hk.block_kva hb hend
    exact lt_of_lt_of_le hin.2 hmax
  · intro j hj
    refine if_neg fun hin => ?_
    obtain ⟨q, hq, he⟩ := (hk.mem_frames hb j).1 hin
    exact hj q hq he

theorem MapsBlock.pages (h : MapsBlock s s' b) (i : Nat) : s'.alloc.pages i =
    if i = b.start then { s.alloc.pages i with data := s.kva b.start } else s.alloc.pages i := by
  rw [h.alloc, BuddyAllocator.modifyPage_pages]

/-- `__alloc_page` and `kvm_map`. -/
structure NewBlock (s s' : Vm) (A : Set Block) (b : Block) : Prop where
  fresh : ∀ c ∈ A, ∀ q ∈ b, q ∉ c
  grows : Grows s s' A (insert b A) ∅
  block : ∀ m, ClientMask m → Clean m s A → BlockOk m s' (insert b A) b
  ready : Ready s' (insert b A)
  clean : ∀ m, ClientMask m → Clean m s A → Clean m s' (insert b A)
  counted : Counted s.alloc A → Counted s'.alloc (insert b A)
  slabs : s'.slabs = s.slabs

theorem newBlock {s1 : Vm} (hk : Kernel s A N) (hr : Ready s A)
    (hframe : AllocFrame s.alloc s1.alloc A b) (hs1 : s1 = s.setAlloc s1.alloc)
    (hmap : MapsBlock s1 s' b) : NewBlock s s' A b := by
  have haddr : s'.alloc.addr = s.alloc.addr := by
    rw [hmap.alloc]
    exact hframe.addr
  have hcnt : s'.alloc.pageCnt = s.alloc.pageCnt := by
    rw [hmap.alloc]
    exact hframe.pageCnt
  have hfr1 : ∀ q, s1.frame q = s.frame q := by
    intro q
    rw [frame, frame, pageAddr, pageAddr, hframe.addr]
  have hfr : ∀ q, s'.frame q = s.frame q := by
    intro q
    rw [frame, frame, pageAddr, pageAddr, haddr]
  have htab : s1.kPageTables = s.kPageTables := by
    rw [hs1]
    rfl
  have hflag : ∀ i, (s'.alloc.pages i).flag &&& clientFlags = (s.alloc.pages i).flag &&& clientFlags := by
    intro i
    rw [hmap.pages, ← hframe.flag i]
    split <;> rfl
  -- The entries of pages outside the block.
  have hentry : ∀ q < s.alloc.pageCnt, q ∉ b → s'.kPageTables (s.frame q) = s.kPageTables (s.frame q) := by
    intro q hq hqb
    rw [hmap.entry_other, htab]
    intro r hr he
    rw [hfr1] at he
    exact hqb (hk.frame_inj hq (hframe.managed r hr) he ▸ hr)
  refine ⟨hframe.fresh, ⟨Set.subset_insert _ _, haddr, hcnt, ?_, ?_, ?_, ?_, ?_⟩, ?_, ⟨?_, ?_⟩, ?_, ?_, ?_⟩
  · intro c hc q hq
    rw [hmap.pages, if_neg, hframe.pages c hc q hq]
    rintro rfl
    exact hframe.fresh c hc _ b.start_mem hq
  · intro c hc q hq
    exact hentry q (hk.owns.lt_of_mem hc hq) fun h => hframe.fresh c hc q h hq
  · intro c hc q hq _
    rw [hmap.mem, hs1]
    rfl
  · rw [hmap.pageDir, hs1]
    rfl
  · rw [hmap.cr3, hs1]
    rfl
  · intro m hm hclean
    refine ⟨Or.inl rfl, ?_, ?_, ?_, ?_, ?_⟩
    · rw [hmap.pages, if_pos rfl, kva, kva, pageAddr, pageAddr, haddr, hframe.addr]
    · rw [hmap.pages, if_pos rfl]
      exact hframe.refCnt
    · rw [hmap.pages, if_pos rfl]
      change (s1.alloc.pages b.start).rwlock.writelock = false
      rw [hframe.rwlock]
      rfl
    · intro q hq
      rw [hfr, ← hfr1]
      exact hmap.entry q hq
    · intro q hq
      rw [hm.congr (hflag q)]
      exact hclean q (hframe.managed q hq) fun c hc => hframe.fresh c hc q hq
  · rw [haddr, hcnt]
    exact hr.top
  · intro q hq hfree
    have hlt : q < s.alloc.pageCnt := hcnt ▸ hq
    rw [hfr, hentry q hlt (hfree b (Or.inl rfl))]
    exact hr.unmapped q hlt fun c hc => hfree c (Or.inr hc)
  · intro m hm hclean q hq hfree
    rw [hm.congr (hflag q)]
    exact hclean q (hcnt ▸ hq) fun c hc => hfree c (Or.inr hc)
  · intro hc
    refine (hc.alloc hframe).congr (fun i => ?_) (hcnt.trans hframe.pageCnt.symm)
    rw [hmap.pages]
    split <;> rfl
  · rw [hmap.slabs, hs1]
    rfl

theorem allocMap_block {k : Nat} (hk : Kernel s A N) (hr : Ready s A) (hle : k ≤ maxOrder) :
    s.alloc.lock = true ∧ s._allocPage (orderSize k) = .error .spin ∨
      s._allocPage (orderSize k) = .error .outOfMemory ∨
      ∃ p s1 s', s._allocPage (orderSize k) = .ok (p, s1) ∧
        s1.kvmMap p (vmPres ||| vmKrw) = .ok s' ∧ (s'.alloc.pages p).data = s'.kva p ∧
        Kernel s' (insert ⟨p, k⟩ A) N ∧ NewBlock s s' A ⟨p, k⟩ := by
  cases hlock : s.alloc.lock with
  | true =>
    left
    refine ⟨rfl, ?_⟩
    rw [_allocPage, _allocPage_eq hle (fixSize_orderSize hle), hlock, if_pos rfl]
    rfl
  | false =>
    right
    rcases allocPage_total hk hlock hle (fixSize_orderSize hle) with herr | ⟨p, s1, halloc⟩
    · exact Or.inl herr
    right
    obtain ⟨hk1, hframe, hg1, hs1⟩ := allocPage_spec hk hle (fixSize_orderSize hle) halloc
    have htop : s1.alloc.addr + 4096 * s1.alloc.pageCnt ≤ physTop := by
      rw [hframe.addr, hframe.pageCnt]
      exact hr.top
    have hfree : ∀ q ∈ (⟨p, k⟩ : Block), s1.kPageTables (s1.frame q) &&& vmPres = 0 := by
      intro q hq
      have htab : s1.kPageTables = s.kPageTables := by
        rw [hs1]
        rfl
      rw [htab, hg1.frame]
      exact hr.unmapped q (hframe.managed q hq) fun c hc => hframe.fresh c hc q hq
    obtain ⟨s', hmap, hmaps⟩ := hk1.mapsBlock (b := ⟨p, k⟩) (Or.inl rfl) htop hfree mappedFlags
    have hkva : s'.kva p = s1.kva p := by
      rw [kva, kva, pageAddr, pageAddr, hmaps.alloc]
      rfl
    refine ⟨p, s1, s', halloc, hmap, ?_, ?_, newBlock hk hr hframe hs1 hmaps⟩
    · rw [hmaps.pages, if_pos rfl, hkva]
    · refine (hk1.modifyPage (p := p) (f := fun q => { q with data := s1.kva p }) rfl rfl rfl).congr ?_
      exact hmaps.alloc

theorem Heap.of_grows {B B' : Set Block} (hh : Heap s A N size G) (hk' : Kernel s' A' N)
    (hc' : Counted s'.alloc A') (hg : Grows s s' B B' ∅) (hslabs : s'.slabs = s.slabs)
    (hin : ∀ q g, G q = some g → ⟨q, 0⟩ ∈ B ∧ ⟨q, 0⟩ ∈ A') : Heap s' A' N size G := by
  refine ⟨hk', hc', ⟨fun q g hq => (hin q g hq).2, hh.slabs.home, ?_, hh.slabs.lists⟩⟩
  intro q g hq
  exact hh.slabs.grows_ok hq hg (hin q g hq).1 (Block.start_mem _) (by rw [hslabs])

theorem BlockOk.not_slab (h : BlockOk m s A b) (hm : ClientMask m) (hs : Slabs s A N size G) {q : Nat}
    (hq : q ∈ b) : G q = none := by
  cases hg : G q with
  | none => rfl
  | some g =>
    have hflag := (hs.ok q g hg).flag
    rw [hm.not_slab (h.flag q hq)] at hflag
    cases hflag

theorem BlockOk.kfree_eq (h : BlockOk m s A b) (hm : ClientMask m) (hk : Kernel s A N) (hr : Ready s A) :
    s.kfree (s.kva b.start) =
      (s.unmapFrames (s.frame b.start) (2 ^ b.order))._freePage b.start := by
  have hmod := hk.pageAddr_mod (hk.owns.start_lt h.mem)
  have hceil := pageCeil_kva (o := 0) hmod (by decide)
  rw [Nat.add_zero] at hceil
  rw [kfree, hceil, hk.vaGetPage h.mem (h.kMapped hk hr)]
  simp only [ok_bind, hm.not_slab (h.flag _ b.start_mem), Bool.false_eq_true, if_false,
    kvmUnmap_block hk h.mem (hk.block_end h.mem hr.top) h.data]

structure FreedBlock (s s' : Vm) (A : Set Block) (b : Block) : Prop where
  grows : Grows s s' (A \ {b}) (A \ {b}) ∅
  entry : ∀ q ∈ b, s'.kPageTables (s.frame q) &&& vmPres = 0
  ready : Ready s' (A \ {b})
  clean : ∀ m, ClientMask m → (∀ q ∈ b, (s.alloc.pages q).flag &&& m = 0#16) → Clean m s A →
    Clean m s' (A \ {b})
  counted : Counted s'.alloc (A \ {b})
  slabs : s'.slabs = s.slabs

theorem free_block (hh : Heap s A N size G) (hr : Ready s A) (hb : b ∈ A) (hnone : G b.start = none)
    (href : (s.alloc.pages b.start).refCnt = 1)
    (hunmapped : ∀ q ∈ b, s.kPageTables (s.frame q) &&& vmPres = 0) :
    (s.alloc.lock = true ∨ (s.alloc.pages b.start).rwlock.writelock = true) ∧
        s._freePage b.start = .error .spin ∨
      ∃ s', s._freePage b.start = .ok s' ∧ Kernel s' (A \ {b}) N ∧ FreedBlock s s' A b := by
  have hk := hh.kernel
  have hlist : ∀ a ∈ heads, a ∉ roots → .page b.start ∉ N a := by
    intro a ha hroot hmem
    obtain ⟨q, g, he, hg, _⟩ := (hh.slabs.lists a ha hroot _).1 hmem
    cases he
    rw [hnone] at hg
    cases hg
  rw [_freePage]
  obtain ⟨hlock, herr⟩ | ⟨_, _, a, hfree, howns, hframe, _⟩ :=
    _freePage_outcome hk.owns hh.counted hb hlist href
  · left
    refine ⟨hlock, ?_⟩
    rw [herr]
    rfl
  right
  have hfr : ∀ q, (s.setAlloc a).frame q = s.frame q := by
    intro q
    change a.pageAddr q >>> 12 = s.alloc.pageAddr q >>> 12
    rw [pageAddr, pageAddr, hframe.addr]
  have hother : ∀ q, (∀ c ∈ A \ {b}, q ∉ c) → q ∉ b → ∀ c ∈ A, q ∉ c := by
    intro q hq hqb c hc hqc
    exact hq c ⟨hc, fun he => hqb (he ▸ hqc)⟩ hqc
  refine ⟨s.setAlloc a, ?_, hk.setAlloc howns hframe.addr hframe.pageCnt hframe.magic,
    ⟨subset_rfl, hframe.addr, hframe.pageCnt, ?_, fun _ _ _ _ => rfl, fun _ _ _ _ _ => rfl, rfl, rfl⟩,
    hunmapped, ⟨?_, ?_⟩, ?_, hh.counted.free hframe, rfl⟩
  · rw [hfree]
    rfl
  · exact fun c hc q hq => hframe.pages c hc.1 hc.2 q hq
  · rw [setAlloc_alloc, hframe.addr, hframe.pageCnt]
    exact hr.top
  · intro q hq hfree
    rw [hfr]
    by_cases hqb : q ∈ b
    · exact hunmapped q hqb
    · exact hr.unmapped q (hframe.pageCnt ▸ hq) (hother q hfree hqb)
  · intro m hm hflag hclean q hq hfree
    rw [setAlloc_alloc, hm.congr (hframe.flag q)]
    by_cases hqb : q ∈ b
    · exact hflag q hqb
    · exact hclean q (hframe.pageCnt ▸ hq) (hother q hfree hqb)

/-- The state after the block `b` was unmapped. -/
structure UnmapsBlock (s s' : Vm) (b : Block) : Prop where
  alloc : s'.alloc = s.alloc
  entry : ∀ q ∈ b, s'.kPageTables (s.frame q) = vmNpres
  entry_other : ∀ j, (∀ q ∈ b, j ≠ s.frame q) → s'.kPageTables j = s.kPageTables j
  mem : s'.mem = s.mem
  slabs : s'.slabs = s.slabs
  pageDir : s'.pageDir = s.pageDir
  cr3 : s'.cr3 = s.cr3

theorem Kernel.unmapsBlock (hk : Kernel s A N) (hb : b ∈ A) :
    UnmapsBlock s (s.unmapFrames (s.frame b.start) (2 ^ b.order)) b := by
  refine ⟨rfl, ?_, ?_, rfl, rfl, rfl, rfl⟩
  · exact fun q hq => if_pos ((hk.mem_frames hb _).2 ⟨q, hq, rfl⟩)
  · intro j hj
    refine if_neg fun hin => ?_
    obtain ⟨q, hq, he⟩ := (hk.mem_frames hb j).1 hin
    exact hj q hq he

theorem UnmapsBlock.grows (h : UnmapsBlock s s' b) (hk : Kernel s A N) (hb : b ∈ A) :
    Grows s s' (A \ {b}) (A \ {b}) ∅ := by
  refine ⟨subset_rfl, by rw [h.alloc], by rw [h.alloc], ?_, ?_, ?_, h.pageDir, h.cr3⟩
  · intro c _ q _
    rw [h.alloc]
  · intro c hc q hq
    refine h.entry_other _ fun r hr he => ?_
    obtain rfl := hk.frame_inj (hk.owns.lt_of_mem hc.1 hq) (hk.owns.lt_of_mem hb hr) he
    exact hc.2 (hk.owns.eq_of_mem hc.1 hb hq hr)
  · intro c _ q _ _
    rw [h.mem]

theorem UnmapsBlock.ready (h : UnmapsBlock s s' b) (hk : Kernel s A N) (hb : b ∈ A) (hr : Ready s A) :
    Ready s' A := by
  refine ⟨by rw [h.alloc]; exact hr.top, ?_⟩
  intro q hq hfree
  rw [h.alloc] at hq
  rw [frame, h.alloc]
  change s'.kPageTables (s.frame q) &&& vmPres = 0
  rw [h.entry_other]
  · exact hr.unmapped q hq hfree
  · intro r hrb he
    obtain rfl := hk.frame_inj hq (hk.owns.lt_of_mem hb hrb) he
    exact hfree b hb hrb

theorem FreedBlock.of_unmapped {s1 : Vm} (h : FreedBlock s1 s' A b) (hu : UnmapsBlock s s1 b)
    (hg : Grows s s1 (A \ {b}) (A \ {b}) ∅) : FreedBlock s s' A b := by
  refine ⟨hg.trans h.grows, ?_, h.ready, ?_, h.counted, h.slabs.trans hu.slabs⟩
  · intro q hq
    rw [← hg.frame]
    exact h.entry q hq
  · intro m hm hflag hclean
    refine h.clean m hm ?_ ?_
    · rw [hu.alloc]
      exact hflag
    · rw [Clean, hu.alloc]
      exact hclean

theorem kfree_block (hm : ClientMask m) (hh : Heap s A N size G) (hr : Ready s A) (h : BlockOk m s A b) :
    s.alloc.lock = true ∧ s.kfree (s.kva b.start) = .error .spin ∨
      ∃ s', s.kfree (s.kva b.start) = .ok s' ∧ Kernel s' (A \ {b}) N ∧ FreedBlock s s' A b := by
  have hk := hh.kernel
  have hu := hk.unmapsBlock h.mem
  have hg := hu.grows hk h.mem
  have hslab : ∀ q g, G q = some g → ⟨q, 0⟩ ∈ A \ {b} ∧ ⟨q, 0⟩ ∈ A := by
    intro q g hq
    refine ⟨⟨hh.slabs.mem q g hq, ?_⟩, hh.slabs.mem q g hq⟩
    rintro rfl
    rw [h.not_slab hm hh.slabs (Block.start_mem _)] at hq
    cases hq
  have hh1 : Heap (s.unmapFrames (s.frame b.start) (2 ^ b.order)) A N size G :=
    hh.of_grows (hk.congr rfl) hh.counted hg rfl hslab
  have hentry : ∀ q ∈ b, (s.unmapFrames (s.frame b.start) (2 ^ b.order)).kPageTables (s.frame q) &&& vmPres =
      0 := by
    intro q hq
    rw [hu.entry q hq]
    decide
  rw [h.kfree_eq hm hk hr]
  obtain ⟨hlock, herr⟩ | ⟨s', hfree, hk', hfreed⟩ := free_block hh1 (hu.ready hk h.mem hr) h.mem
    (h.not_slab hm hh.slabs b.start_mem) h.refCnt hentry
  · exact Or.inl ⟨hlock.resolve_right (by rw [hu.alloc, h.rwlock]; exact Bool.false_ne_true), herr⟩
  · exact Or.inr ⟨s', hfree, hk', hfreed.of_unmapped hu hg⟩

end Vm

end QuarkOS
