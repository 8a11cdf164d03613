import QuarkOS.Mm.Kmalloc

/-!
# Moving an allocation

`krealloc` asks for a larger block, copies the old one and frees it. How much there is to copy it finds
out from the page of the old block, and for a chunk of a slab that fails: the size in the page structure
is that of the whole page, and the size of the chunk is looked up at the address of the new block. An
allocation that is a block of pages is moved as it should be.
-/

namespace QuarkOS

open CList Dyadic BuddyAllocator FreeList Function

namespace Vm

variable {s s' : Vm} {A B B' : Set Block} {N : PageNode → List PageNode} {P : Set Nat} {b : Block}
  {n addr : Nat} {m : BitVec 16} {G : Nat → Option Slab} {live : List (Nat × Nat)}

/-- The kernel address is mapped to the physical address below it. -/
def Direct (s : Vm) (va : Nat) : Prop :=
  kernelStart ≤ va ∧ s.frameAt va = .ok ((va - kernelStart) >>> 12)

variable {va n0 new : Nat} {c : Nat × Nat}

theorem Direct.congr (h : Direct s va) (htab : s'.kPageTables = s.kPageTables) : Direct s' va := by
  refine ⟨h.1, ?_⟩
  rw [frameAt, if_pos h.1, htab]
  have hframe := h.2
  rwa [frameAt, if_pos h.1] at hframe

theorem Direct.loadByte (h : Direct s va) :
    s.loadByte va = .ok (Bytes.ofWords (s.mem ((va - kernelStart) >>> 12)) (va % 4096)) := by
  rw [Vm.loadByte, h.2]
  rfl

theorem frame_offset_inj {va' : Nat} (hle : kernelStart ≤ va) (hle' : kernelStart ≤ va')
    (hframe : (va' - kernelStart) >>> 12 = (va - kernelStart) >>> 12) (hoff : va' % 4096 = va % 4096) :
    va' = va := by
  have hks : kernelStart = 4096 * 786432 := rfl
  rw [Nat.shiftRight_eq_div_pow, Nat.shiftRight_eq_div_pow] at hframe
  omega

theorem Direct.storeByte (h : Direct s va) (x : BitVec 8) :
    ∃ s', s.storeByte va x = .ok s' ∧ s'.alloc = s.alloc ∧ s'.kPageTables = s.kPageTables ∧
      ∀ va', Direct s va' → s'.loadByte va' = if va' = va then .ok x else s.loadByte va' := by
  let f := (va - kernelStart) >>> 12
  let bytes := update (Bytes.ofWords (s.mem f)) (va % 4096) x
  refine ⟨s.setFrame f (Bytes.toWords bytes), ?_, rfl, rfl, ?_⟩
  · rw [Vm.storeByte, h.2]
    rfl
  intro va' h'
  have hdirect : Direct (s.setFrame f (Bytes.toWords bytes)) va' := h'.congr rfl
  have hload : (s.setFrame f (Bytes.toWords bytes)).loadByte va' =
      .ok (Bytes.ofWords (if (va' - kernelStart) >>> 12 = f then Bytes.toWords bytes
        else s.mem ((va' - kernelStart) >>> 12)) (va' % 4096)) :=
    hdirect.loadByte
  rw [hload]
  by_cases hva : va' = va
  · subst hva
    rw [if_pos rfl, if_pos rfl, Bytes.ofWords_toWords]
    exact congrArg Except.ok (update_self _ _ _)
  · rw [if_neg hva, h'.loadByte]
    by_cases hframe : (va' - kernelStart) >>> 12 = f
    · have hoff : va' % 4096 ≠ va % 4096 := fun hoff => hva (frame_offset_inj h.1 h'.1 hframe hoff)
      rw [if_pos hframe, Bytes.ofWords_toWords, hframe]
      exact congrArg Except.ok (update_of_ne hoff _ _)
    · rw [if_neg hframe]

/-- The state after the copy of `k` bytes. -/
structure BytesCopied (s s' : Vm) (dest src k : Nat) : Prop where
  alloc : s'.alloc = s.alloc
  tables : s'.kPageTables = s.kPageTables
  copied : ∀ i < k, s'.loadByte (dest + i) = s.loadByte (src + i)
  other : ∀ va, Direct s va → va < dest ∨ dest + k ≤ va → s'.loadByte va = s.loadByte va

/-- `memcpy` between two ranges of mapped memory that do not overlap, with what each write keeps. -/
theorem memcpy_spec {I : Vm → Prop} (k : Nat) : ∀ {s : Vm} {dest src : Nat},
    (∀ i < k, Direct s (dest + i)) → (∀ i < k, Direct s (src + i)) → dest + k < 2 ^ 32 → src + k < 2 ^ 32 →
    (dest + k ≤ src ∨ src + k ≤ dest) →
    (∀ s s' i x, I s → i < k → s.storeByte (dest + i) x = .ok s' → I s') → I s →
    ∃ s', memcpy k s dest src = .ok s' ∧ I s' ∧ BytesCopied s s' dest src k := by
  induction k with
  | zero =>
    intro s dest src _ _ _ _ _ _ hI
    exact ⟨s, rfl, hI, rfl, rfl, fun i hi => absurd hi (Nat.not_lt_zero i), fun _ _ _ => rfl⟩
  | succ k ih =>
    intro s dest src hdest hsrc hdlt hslt hapart hstep hI
    have hd0 : Direct s dest := hdest 0 (Nat.succ_pos k)
    have hs0 : Direct s src := hsrc 0 (Nat.succ_pos k)
    obtain ⟨s1, hstore, halloc, htab, hbytes⟩ := hd0.storeByte
      (Bytes.ofWords (s.mem ((src - kernelStart) >>> 12)) (src % 4096))
    obtain ⟨s2, hrun, hI2, hcopied⟩ := @ih s1 (dest + 1) (src + 1)
      (fun i hi => by
        rw [Nat.add_assoc, Nat.add_comm 1 i]
        exact (hdest (i + 1) (Nat.succ_lt_succ hi)).congr htab)
      (fun i hi => by
        rw [Nat.add_assoc, Nat.add_comm 1 i]
        exact (hsrc (i + 1) (Nat.succ_lt_succ hi)).congr htab)
      (by omega) (by omega) (by omega)
      (fun t t' i x ht hi hok => by
        rw [Nat.add_assoc, Nat.add_comm 1 i] at hok
        exact hstep t t' (i + 1) x ht (Nat.succ_lt_succ hi) hok)
      (hstep s s1 0 _ hI (Nat.succ_pos k) hstore)
    refine ⟨s2, ?_, hI2, hcopied.alloc.trans halloc, hcopied.tables.trans htab, ?_, ?_⟩
    · rw [memcpy, hs0.loadByte, ok_bind, hstore, ok_bind, Nat.mod_eq_of_lt (by omega),
        Nat.mod_eq_of_lt (by omega), hrun]
    · intro i hi
      cases i with
      | zero =>
        rw [Nat.add_zero, Nat.add_zero, hcopied.other dest (hd0.congr htab) (Or.inl (Nat.lt_succ_self _)),
          hbytes dest hd0, if_pos rfl, hs0.loadByte]
      | succ i =>
        have hi' : i < k := Nat.lt_of_succ_lt_succ hi
        have hcopy := hcopied.copied i hi'
        rw [Nat.add_assoc, Nat.add_comm 1 i, Nat.add_assoc, Nat.add_comm 1 i] at hcopy
        rw [hcopy, hbytes _ (hsrc (i + 1) hi), if_neg (by omega)]
    · intro va hva hout
      rw [hcopied.other va (hva.congr htab) (by omega), hbytes va hva, if_neg (by omega)]

/-- The size of the chunk or of the block that a request gets. -/
def capacity (n : Nat) : Nat :=
  if fixSize n ≤ slabMax then slabMin <<< slabIndex (fixSize n) else fixSize n

theorem slabClass_fixed : ∀ i < listSize, fixSize (slabMin <<< i) = slabMin <<< i ∧
    slabIndex (slabMin <<< i) = i ∧ slabMin <<< i ≤ slabMax := by decide

theorem Held.fill (h : Held m s A G (addr, n)) (hh : Heap s A N (chunkSize 4) G) :
    Held m s A G (addr, capacity n) := by
  rw [capacity]
  cases h with
  | chunk hsmall _ hchunk =>
    rw [if_pos hsmall]
    have hchunk' := hchunk
    obtain ⟨p, l, o, hg, _⟩ := hchunk'
    have hi : slabIndex (fixSize n) < listSize := by
      rcases hh.slabs.home p _ hg with ⟨j, hj, he⟩ | ⟨c, he⟩
      · cases he
        exact hj
      · cases he
    obtain ⟨hfix, hindex, hle⟩ := slabClass_fixed _ hi
    refine .chunk ?_ ?_ ?_ <;> rw [hfix]
    · exact hle
    · rw [hindex]
    · rw [hindex]
      exact hchunk
  | block hlarge hfix _ hblock =>
    have hidem : fixSize (fixSize n) = fixSize n := by
      rw [hfix]
      exact fixSize_orderSize (hh.kernel.owns.order_le hblock.mem)
    rw [if_neg hlarge.not_ge]
    refine .block ?_ ?_ ?_ hblock
    · rw [hidem]
      exact hlarge
    · rw [hidem]
      exact hfix
    · rw [hidem]

theorem Held.direct (h : Held m s A G c) (hh : Heap s A N (chunkSize 4) G) {i : Nat}
    (hi : i < c.2) : Direct s (c.1 + i) := h.mapped hh hi

theorem Held.end_lt (h : Held m s A G c) (hh : Heap s A N (chunkSize 4) G)
    (hr : Ready s A) : c.1 + c.2 < 2 ^ 32 := by
  cases h with
  | @chunk _ n _ hle hchunk =>
    obtain ⟨p, l, o, hg, rfl, hslot, _⟩ := hchunk
    have hlt := kva_add_lt (hh.slabs.ok p _ hg).mapped hslot.le
    rw [chunkSize] at hlt
    change s.kva p + o + n < 2 ^ 32
    omega
  | @block n b _ hfix hle hblock =>
    have hend := hh.kernel.block_end hblock.mem hr.top
    have hphys : physTop = 0x3e000000 := rfl
    have hks : kernelStart = 0xc0000000 := rfl
    change s.kva b.start + n < 2 ^ 32
    rw [kva]
    omega

theorem Grows.loadByte {p o : Nat} (hg : Grows s s' B B' ∅) (hb : b ∈ B) (hp : p ∈ b)
    (hentry : presentFrame (s.kPageTables (s.frame p)) = .ok (s.frame p))
    (hmod : s.alloc.pageAddr p % 4096 = 0) (ho : o < 4096) :
    s'.loadByte (s.kva p + o) = s.loadByte (s.kva p + o) := by
  have hentry' : presentFrame (s'.kPageTables (s'.frame p)) = .ok (s'.frame p) := by
    rw [hg.frame, hg.entry b hb p hp]
    exact hentry
  have hframe := frameAt_kva hentry' ((hg.pageAddr p).symm ▸ hmod) ho
  rw [hg.kva, hg.frame] at hframe
  rw [Vm.loadByte, Vm.loadByte, hframe, frameAt_kva hentry hmod ho, ok_bind, ok_bind,
    hg.mem b hb p hp (Set.notMem_empty p)]

theorem Held.loadByte (h : Held m s A G c) (hh : Heap s A N (chunkSize 4) G)
    (hg : Grows s s' B B' ∅) (hslab : ∀ q g, G q = some g → ⟨q, 0⟩ ∈ B)
    (hblock : ∀ b, BlockOk m s A b → s.kva b.start = c.1 → b ∈ B) {i : Nat} (hi : i < c.2) :
    s'.loadByte (c.1 + i) = s.loadByte (c.1 + i) := by
  cases h with
  | @chunk _ n _ hle hchunk =>
    obtain ⟨p, l, o, hgp, rfl, hslot, _⟩ := hchunk
    have hmod := hh.kernel.pageAddr_mod (hh.slab_lt hgp)
    have hfits := hslot.le
    rw [chunkSize] at hfits
    change i < n at hi
    change s'.loadByte (s.kva p + o + i) = s.loadByte (s.kva p + o + i)
    rw [Nat.add_assoc]
    exact hg.loadByte (hslab p _ hgp) (Block.start_mem ⟨p, 0⟩) (hh.slabs.ok p _ hgp).mapped.entry hmod
      (by omega)
  | @block n b _ hfix hle hb =>
    obtain ⟨q, hq, o, ho, he⟩ := hb.page_at hh.kernel (i := i) (by change i < n at hi; omega)
    change s'.loadByte (s.kva b.start + i) = s.loadByte (s.kva b.start + i)
    rw [he]
    exact hg.loadByte (hblock b hb rfl) hq (hb.entry q hq)
      (hh.kernel.pageAddr_mod (hh.kernel.owns.lt_of_mem hb.mem hq)) ho

theorem BlockOk.slabPage (hb : BlockOk m s A b) (hm : ClientMask m) (hk : Kernel s A N) (hr : Ready s A) :
    s.slabPage (s.kva b.start) = .error .assertk := by
  rw [Vm.slabPage, hb.vaGetPage hk hr, ok_bind]
  dsimp only
  rw [hm.not_slab (hb.flag _ b.start_mem), assertk_false, error_bind]

/-- The page of a chunk has the size of a page, so the new block is one of pages; and of that `krealloc`
asks how large its chunks are. -/
theorem KmallocInv.krealloc_chunk (hm : ClientMask m) (h : KmallocInv m s live A N G)
    (hlive : (addr, n0) ∈ live) (hsmall : fixSize n0 ≤ slabMax) (hpos : 1 ≤ n) (hle : n ≤ 4 * 0x100000)
    (r : Nat × Vm) : s.krealloc addr n ≠ .ok r := by
  intro hok
  obtain ⟨⟨new, s1⟩, hmalloc, hok⟩ := bind_eq_ok hok
  obtain ⟨_, _, hok⟩ := bind_eq_ok hok
  obtain ⟨A1, N1, G1, h1, _⟩ := h.kmalloc hm hpos hle hmalloc
  cases h1.held _ (List.mem_cons_of_mem _ hlive) with
  | block hlarge _ _ _ => exact absurd hsmall hlarge.not_ge
  | chunk _ _ hchunk =>
    obtain ⟨p, l, o, hg, rfl, hslot, _⟩ := hchunk
    have hmem := h1.heap.slabs.mem p _ hg
    have hslab := h1.heap.slabs.ok p _ hg
    have hget : s1.vaGetPage (pageCeil (s1.kva p + o)) = .ok (some p) := by
      rw [pageCeil_kva (h1.heap.kernel.pageAddr_mod (h1.heap.slab_lt hg))
        (hslot.lt (sized_four _ (h1.heap.slabs.home p _ hg)).1)]
      exact Kernel.vaGetPage (b := ⟨p, 0⟩) h1.heap.kernel hmem hslab.mapped
    rw [hget, ok_bind] at hok
    obtain ⟨_, hassert, hok⟩ := bind_eq_ok hok
    have hlt : (s1.alloc.pages p).size < n := of_assertk hassert
    have hsize : (s1.alloc.pages p).size = 4096 := h1.heap.kernel.owns.size hmem
    have hmax : slabMax = 2048 := rfl
    obtain ⟨size, hold, _⟩ := bind_eq_ok hok
    rw [oldSize, if_pos hslab.flag] at hold
    obtain ⟨page, hpage, _⟩ := bind_eq_ok hold
    obtain ⟨hfits, _⟩ := fixSize_request hpos hle
    cases h1.held _ List.mem_cons_self with
    | chunk hsmall' _ _ => omega
    | block _ _ _ hb =>
      rw [hb.slabPage hm h1.heap.kernel h1.ready] at hpage
      cases hpage

theorem kvmMapsLoop_alloc {flags : Pte} (k : Nat) : ∀ {s s' : Vm} {pte pa : Nat},
    kvmMapsLoop flags k s pte pa = .ok s' → s'.alloc = s.alloc := by
  induction k with
  | zero =>
    intro s s' pte pa hok
    cases hok
    rfl
  | succ k ih =>
    intro s s' pte pa hok
    obtain ⟨_, _, hok⟩ := bind_eq_ok hok
    exact (ih hok).trans rfl

theorem kmalloc_lock {k : Nat} (hk : Kernel s A N) (hle : k ≤ maxOrder) (hfix : fixSize n = orderSize k)
    (hok : s.kmalloc n = .ok (new, s')) : s'.alloc.lock = false := by
  rw [kmalloc_large hfix] at hok
  obtain ⟨⟨p, s1⟩, halloc, hok⟩ := bind_eq_ok hok
  obtain ⟨s2, hmap, hret⟩ := bind_eq_ok hok
  cases hret
  obtain ⟨_, hframe, _⟩ := allocPage_spec hk hle (fixSize_orderSize hle) halloc
  obtain ⟨_, _, hmap⟩ := bind_eq_ok hmap
  obtain ⟨_, _, hmap⟩ := bind_eq_ok hmap
  obtain ⟨_, _, hmap⟩ := bind_eq_ok hmap
  rw [kvmMapsLoop_alloc _ hmap]
  exact hframe.lock

/-- The allocation `old` was moved to `new`, which has `n` bytes. -/
structure Moved (s s' : Vm) (live : List (Nat × Nat)) (old : Nat × Nat) (new n : Nat) : Prop where
  sound : KmallocSound s' ((new, n) :: live.erase old)
  dead : old.1 ∉ ((new, n) :: live.erase old).map Prod.fst
  contents : ∀ i < capacity old.2, s'.loadByte (new + i) = s.loadByte (old.1 + i)
  others : ∀ c ∈ live.erase old, ∀ i < capacity c.2, s'.loadByte (c.1 + i) = s.loadByte (c.1 + i)

theorem Held.block_of_large (h : Held m s A G (addr, n)) (hlarge : slabMax < fixSize n) :
    ∃ b, BlockOk m s A b ∧ addr = s.kva b.start ∧ fixSize n = orderSize b.order := by
  cases h with
  | chunk hsmall _ _ => exact absurd hsmall hlarge.not_ge
  | block _ hfix _ hb => exact ⟨_, hb, rfl, hfix⟩

theorem KmallocInv.krealloc_eq {s1 : Vm} (hm : ClientMask m)
    (h1 : KmallocInv m s1 ((new, n) :: live) A N G) (hlive : (addr, n0) ∈ live)
    (hlarge : slabMax < fixSize n0) (hgt : fixSize n0 < n) (hmalloc : s.kmalloc n = .ok (new, s1)) :
    s.krealloc addr n = (do
      let s2 ← memcpy (fixSize n0) s1 new addr
      let s' ← s2.kfree addr
      .ok (new, s')) := by
  obtain ⟨b, hb, haddr, hfix⟩ := (h1.held _ (List.mem_cons_of_mem _ hlive)).block_of_large hlarge
  have hnew : new ≠ 0 := by
    have hle := ((h1.held _ List.mem_cons_self).direct h1.heap (i := 0) (Nat.zero_lt_of_lt hgt)).1
    have hks : kernelStart = 0xc0000000 := rfl
    change kernelStart ≤ new + 0 at hle
    omega
  have hsize : (s1.alloc.pages b.start).size = fixSize n0 := by
    rw [hfix]
    exact h1.heap.kernel.owns.size hb.mem
  have hget : s1.vaGetPage (pageCeil addr) = .ok (some b.start) := by
    rw [haddr]
    exact hb.vaGetPage h1.heap.kernel h1.ready
  have hold : s1.oldSize b.start new = .ok (fixSize n0) := by
    rw [oldSize, hm.not_slab (hb.flag _ b.start_mem), if_neg Bool.false_ne_true, hsize]
  simp only [krealloc, hmalloc, ok_bind, decide_eq_true hnew, assertk_true, hget, hsize,
    decide_eq_true hgt, hold]

theorem KmallocInv.ne_cons (h : KmallocInv m s ((new, n) :: live) A N G) (hc : c ∈ live) : new ≠ c.1 := by
  have hnodup := h.nodup
  rw [List.map_cons, List.nodup_cons] at hnodup
  exact fun he => hnodup.1 (List.mem_map.2 ⟨c, hc, he.symm⟩)

theorem KmallocInv.kfree_loadByte (hm : ClientMask m) (h : KmallocInv m s live A N G)
    (hlive : (addr, n0) ∈ live) (hlarge : slabMax < fixSize n0) (hlock : s.alloc.lock = false) :
    ∃ s', s.kfree addr = .ok s' ∧ ∀ c ∈ live, c.1 ≠ addr → ∀ i < capacity c.2,
      s'.loadByte (c.1 + i) = s.loadByte (c.1 + i) := by
  obtain ⟨b, hb, rfl, _⟩ := (h.held _ hlive).block_of_large hlarge
  obtain ⟨htrue, _⟩ | ⟨s', hfree, _, hfreed⟩ := kfree_block hm h.heap h.ready hb
  · rw [hlock] at htrue
    cases htrue
  refine ⟨s', hfree, fun c hc hne i hi => ?_⟩
  refine ((h.held c hc).fill h.heap).loadByte h.heap hfreed.grows ?_ ?_ hi
  · intro q g hq
    refine ⟨h.heap.slabs.mem q g hq, ?_⟩
    rintro rfl
    rw [hb.not_slab hm h.heap.slabs (Block.start_mem _)] at hq
    cases hq
  · intro b' hb' hkva
    refine ⟨hb'.mem, ?_⟩
    rintro rfl
    exact hne hkva.symm

theorem krealloc_block {s0 s1 : Vm} (h0 : FreshHeap s0 A N) (hclean : Clean pgSlab s0 A)
    (hrun : KmallocRun s0 s live) (hlive : (addr, n0) ∈ live) (hlarge : slabMax < fixSize n0)
    (hgt : fixSize n0 < n) (hle : n ≤ 4 * 0x100000) (hmalloc : s.kmalloc n = .ok (new, s1)) :
    ∃ s', s.krealloc addr n = .ok (new, s') ∧ Moved s s' live (addr, n0) new n := by
  have hm := clientMask_slab
  have hpos : 1 ≤ n := by omega
  obtain ⟨_, _, _, h⟩ := hrun.inv hm h0 hclean
  obtain ⟨_, _, _, h1, hg1⟩ := h.kmalloc hm hpos hle hmalloc
  obtain ⟨hfits, hrequest⟩ := fixSize_request hpos hle
  have hcap : capacity n0 = fixSize n0 := if_neg hlarge.not_ge
  have hcap' : capacity n = fixSize n := if_neg (by omega)
  have hlive1 : (addr, n0) ∈ (new, n) :: live := List.mem_cons_of_mem _ hlive
  have hnew := h1.held _ List.mem_cons_self
  have hold := (h1.held _ hlive1).fill h1.heap
  -- The new block lies apart from what every other allocation got.
  have hapart : ∀ c ∈ live, new + n ≤ c.1 ∨ c.1 + capacity c.2 ≤ new := fun c hc =>
    Held.apart hm hnew ((h1.held c (List.mem_cons_of_mem _ hc)).fill h1.heap) h1.heap (h1.ne_cons (c := c) hc)
  have hout := hapart _ hlive
  obtain ⟨s2, hcopy, hrun2, hcopied⟩ := @memcpy_spec (fun t => KmallocRun s0 t ((new, n) :: live))
    (fixSize n0) s1 new addr
    (fun i hi => hnew.direct h1.heap (lt_trans hi hgt))
    (fun i hi => hold.direct h1.heap (hcap.symm ▸ hi))
    (lt_trans (Nat.add_lt_add_left hgt new) (hnew.end_lt h1.heap h1.ready))
    (hcap ▸ hold.end_lt h1.heap h1.ready) (by dsimp only at hout; omega)
    (fun t t' i x ht hi hok => ht.write List.mem_cons_self (lt_trans hi hgt) hok)
    (hrun.kmalloc hpos hle hmalloc)
  obtain ⟨_, _, _, h2⟩ := hrun2.inv hm h0 hclean
  have hlock : s2.alloc.lock = false := by
    rcases hrequest with ⟨hsmall, _⟩ | ⟨_, k, hk, hfix⟩
    · omega
    · rw [hcopied.alloc]
      exact kmalloc_lock h.heap.kernel hk hfix hmalloc
  obtain ⟨s', hfree, hkeep⟩ := h2.kfree_loadByte hm hlive1 hlarge hlock
  -- What `kmalloc` and `memcpy` leave alone.
  have hload : ∀ c ∈ live, ∀ i < capacity c.2, s1.loadByte (c.1 + i) = s.loadByte (c.1 + i) := by
    intro c hc i hi
    exact ((h.held c hc).fill h.heap).loadByte h.heap hg1 h.heap.slabs.mem (fun b hb _ => hb.mem) hi
  have herase : ((new, n) :: live).erase (addr, n0) = (new, n) :: live.erase (addr, n0) :=
    List.erase_cons_tail (by simp [h1.ne_cons hlive])
  have hrun' := hrun2.kfree hlive1 hfree
  rw [herase] at hrun'
  obtain ⟨_, _, _, h'⟩ := hrun'.inv hm h0 hclean
  refine ⟨s', ?_, h'.sound, ?_, ?_, ?_⟩
  · rw [h1.krealloc_eq hm hlive hlarge hgt hmalloc, hcopy, ok_bind, hfree, ok_bind]
  · rw [List.map_cons, List.mem_cons, not_or]
    refine ⟨(h1.ne_cons hlive).symm, fun hmem => ?_⟩
    obtain ⟨c, hc, he⟩ := List.mem_map.1 hmem
    exact ne_of_mem_erase h.nodup hlive hc he
  · intro i hi
    change i < capacity n0 at hi
    have hcopy := hcopied.copied i (hcap ▸ hi)
    rw [← hload _ hlive i hi, ← hcopy]
    exact hkeep _ List.mem_cons_self (h1.ne_cons hlive) i (by dsimp only; omega)
  · intro c hc i hi
    have hmem := List.mem_of_mem_erase hc
    have hc1 : c ∈ (new, n) :: live := List.mem_cons_of_mem _ hmem
    have hdirect := ((h1.held c hc1).fill h1.heap).direct h1.heap hi
    have hcout := hapart c hmem
    rw [hkeep c hc1 (ne_of_mem_erase h.nodup hlive hc) i hi, hcopied.other _ hdirect (by dsimp only; omega),
      hload c hmem i hi]

/-- An allocation is moved, with its contents, exactly when it is a block of pages and there is memory. -/
theorem krealloc_moved_iff {s0 : Vm} {n0 : Nat} (h0 : FreshHeap s0 A N) (hclean : Clean pgSlab s0 A)
    (hrun : KmallocRun s0 s live) (hlock : s.alloc.lock = false) (hslab : s.slabLock = false)
    (hlive : (addr, n0) ∈ live) (hgt : capacity n0 < n) (hle : n ≤ 4 * 0x100000) :
    (∃ new s', s.krealloc addr n = .ok (new, s') ∧ Moved s s' live (addr, n0) new n) ↔
      slabMax < fixSize n0 ∧ s.kmalloc n ≠ .error .outOfMemory := by
  have hpos : 1 ≤ n := Nat.zero_lt_of_lt hgt
  obtain ⟨_, _, _, h⟩ := hrun.inv clientMask_slab h0 hclean
  constructor
  · rintro ⟨new, s', hok, _⟩
    refine ⟨Nat.lt_of_not_le fun hsmall => ?_, fun herr => ?_⟩
    · exact h.krealloc_chunk clientMask_slab hlive hsmall hpos hle _ hok
    · rw [krealloc, herr] at hok
      cases hok
  · rintro ⟨hlarge, hmem⟩
    rw [capacity, if_neg hlarge.not_ge] at hgt
    obtain herr | ⟨new, s1, hmalloc⟩ := h.heap.kmalloc_total h.ready hlock hslab hpos hle
    · exact absurd herr hmem
    · exact ⟨new, krealloc_block h0 hclean hrun hlive hlarge hgt hle hmalloc⟩

def moveBlock : Except Fault (Nat × Vm × Nat × Vm) := do
  let (addr, s) ← (boot 4).kmalloc 5000
  assertk (s.alloc.lock = false ∧ s.slabLock = false)
  let (new, s') ← s.kmalloc 10000
  .ok (addr, s, new, s')

theorem krealloc_moved_block : ∃ (s : Vm) (addr : Nat), (boot 4).kmalloc 5000 = .ok (addr, s) ∧
    ∃ new s', s.krealloc addr 10000 = .ok (new, s') ∧ Moved s s' [(addr, 5000)] (addr, 5000) new 10000 := by
  obtain ⟨⟨addr, s, new, s'⟩, hok⟩ := exists_ok (x := moveBlock) (by decide +kernel)
  obtain ⟨⟨_, _⟩, hold, hok⟩ := bind_eq_ok hok
  obtain ⟨_, hlocks, hok⟩ := bind_eq_ok hok
  obtain ⟨⟨_, _⟩, hnew, hret⟩ := bind_eq_ok hok
  cases hret
  have hfree := of_assertk hlocks
  refine ⟨s, addr, hold, ?_⟩
  refine (krealloc_moved_iff (boot_freshHeap (by decide)) (boot_clean clientMask_slab 4)
    (KmallocRun.start.kmalloc (by decide) (by decide) hold) hfree.1 hfree.2 List.mem_cons_self
    (by decide) (by decide)).2 ⟨by decide, ?_⟩
  rw [hnew]
  intro herr
  cases herr

def moveChunk : Except Fault (Nat × Vm) := do
  let (addr, s) ← (boot 4).kmalloc 100
  assertk (faults (s.krealloc addr 200) .assertk)
  .ok (addr, s)

theorem krealloc_chunk_fails : ∃ (s : Vm) (addr : Nat), KmallocRun (boot 4) s [(addr, 100)] ∧
    capacity 100 < 200 ∧ s.krealloc addr 200 = .error .assertk := by
  obtain ⟨⟨addr, s⟩, hok⟩ := exists_ok (x := moveChunk) (by decide +kernel)
  obtain ⟨⟨_, _⟩, hmalloc, hok⟩ := bind_eq_ok hok
  obtain ⟨_, hfails, hret⟩ := bind_eq_ok hok
  cases hret
  exact ⟨s, addr, KmallocRun.start.kmalloc (by decide) (by decide) hmalloc, by decide,
    eq_error_of_faults (assertk_eq_ok hfails)⟩

end Vm

end QuarkOS
