import QuarkOS.Mm.Boot
import QuarkOS.Mm.KBlocks

/-!
# `kmalloc` and `kfree`

A small request gets a chunk of a slab, a large one a block of the page allocator that is mapped for it.
`kfree` knows only the address: it finds the page through the page table and asks the flags of the page
which of the two it was. That answer is right as long as no free page looks like a slab, which no call
changes.
-/

namespace QuarkOS

open CList Dyadic BuddyAllocator FreeList

namespace Vm

variable {s s' : Vm} {A A' B B' : Set Block} {N N' : PageNode → List PageNode} {P : Set Nat} {b : Block}
  {p n : Nat} {m : BitVec 16} {G G' : Nat → Option Slab} {size : PageNode → Nat}

variable {k i addr : Nat}

theorem kmalloc_large (hfix : fixSize n = orderSize k) : s.kmalloc n = (do
    let (page, s) ← s._allocPage (orderSize k)
    let s ← s.kvmMap page (vmPres ||| vmKrw)
    .ok ((s.alloc.pages page).data, s)) := by
  have hbig : ¬ orderSize k ≤ slabMax := by
    have := Nat.two_pow_pos k
    have hmax : slabMax = 2048 := rfl
    rw [orderSize_eq]
    omega
  simp only [kmalloc, hfix, hbig, if_false]

theorem kmalloc_block (hk : Kernel s A N) (hr : Ready s A) (hle : k ≤ maxOrder)
    (hfix : fixSize n = orderSize k) :
    s.alloc.lock = true ∧ s.kmalloc n = .error .spin ∨ s.kmalloc n = .error .outOfMemory ∨
      ∃ p s', s.kmalloc n = .ok (s'.kva p, s') ∧ Kernel s' (insert ⟨p, k⟩ A) N ∧
        NewBlock s s' A ⟨p, k⟩ := by
  rw [kmalloc_large hfix]
  obtain ⟨hlock, herr⟩ | herr | ⟨p, s1, s', halloc, hmap, hdata, hk', hnew⟩ := allocMap_block hk hr hle
  · left
    rw [herr]
    exact ⟨hlock, rfl⟩
  · right
    left
    rw [herr]
    rfl
  · right
    right
    refine ⟨p, s', ?_, hk', hnew⟩
    rw [halloc]
    simp only [ok_bind, hmap, hdata]

theorem Heap.kfree_chunk {o : Nat} {l : List Nat} (hh : Heap s A N size G)
    (hg : G p = some ⟨.slab i, l⟩) (ho : IsSlot 4096 (size (.slab i)) o) (hsize : Sized size) :
    s.kfree (s.kva p + o) = s.slabFree (s.kva p + o) := by
  have hslab := hh.slabs.ok p _ hg
  have hlt := ho.lt (hsize _ (hh.slabs.home p _ hg)).1
  have hget := Kernel.vaGetPage (b := ⟨p, 0⟩) hh.kernel (hh.slabs.mem p _ hg) hslab.mapped
  rw [kfree, pageCeil_kva (hh.kernel.pageAddr_mod (hh.slab_lt hg)) hlt]
  simp only [hget, ok_bind, hslab.flag, if_true]

/-- What calls of `kmalloc` and `kfree` can lead to, with the owners writing to their memory, and the
addresses and sizes of the allocations that are live then. -/
inductive KmallocRun (s0 : Vm) : Vm → List (Nat × Nat) → Prop
  | start : KmallocRun s0 s0 []
  | kmalloc {s s' : Vm} {live : List (Nat × Nat)} {n addr : Nat} (hrun : KmallocRun s0 s live)
      (hpos : 1 ≤ n) (hle : n ≤ 4 * 0x100000) (hok : s.kmalloc n = .ok (addr, s')) :
      KmallocRun s0 s' ((addr, n) :: live)
  | kfree {s s' : Vm} {live : List (Nat × Nat)} {n addr : Nat} (hrun : KmallocRun s0 s live)
      (hlive : (addr, n) ∈ live) (hok : s.kfree addr = .ok s') :
      KmallocRun s0 s' (live.erase (addr, n))
  | write {s s' : Vm} {live : List (Nat × Nat)} {n addr i : Nat} {x : BitVec 8}
      (hrun : KmallocRun s0 s live) (hlive : (addr, n) ∈ live) (hi : i < n)
      (hok : s.storeByte (addr + i) x = .ok s') : KmallocRun s0 s' live

/-- The chunk or the block behind an allocation. -/
inductive Held (m : BitVec 16) (s : Vm) (A : Set Block) (G : Nat → Option Slab) : Nat × Nat → Prop
  | chunk {addr n : Nat} (hsmall : fixSize n ≤ slabMax)
      (hle : n ≤ slabMin <<< slabIndex (fixSize n))
      (hchunk : IsChunk s (chunkSize 4) G addr (.slab (slabIndex (fixSize n)))) : Held m s A G (addr, n)
  | block {n : Nat} {b : Block} (hlarge : slabMax < fixSize n) (hfix : fixSize n = orderSize b.order)
      (hle : n ≤ fixSize n) (hblock : BlockOk m s A b) : Held m s A G (s.kva b.start, n)

structure KmallocInv (m : BitVec 16) (s : Vm) (live : List (Nat × Nat)) (A : Set Block)
    (N : PageNode → List PageNode) (G : Nat → Option Slab) : Prop where
  heap : Heap s A N (chunkSize 4) G
  ready : Ready s A
  clean : Clean m s A
  held : ∀ c ∈ live, Held m s A G c
  nodup : (live.map Prod.fst).Nodup

theorem sized_four : Sized (chunkSize 4) := sized_chunkSize le_rfl (by decide)

theorem orderSize_pos (k : Nat) : 0 < orderSize k := by
  rw [orderSize_eq]
  exact Nat.mul_pos (by decide) (Nat.two_pow_pos k)

theorem IsChunk.apart_block {a : PageNode} (h : IsChunk s size G addr a) (hm : ClientMask m)
    (hh : Heap s A N size G) (hb : BlockOk m s A b) :
    addr + size a ≤ s.kva b.start ∨ s.kva b.start + orderSize b.order ≤ addr := by
  obtain ⟨p, l, o, hg, rfl, hslot, _⟩ := h
  have hne : (⟨p, 0⟩ : Block) ≠ b := by
    rintro rfl
    have hnone := hb.not_slab hm hh.slabs (Block.start_mem ⟨p, 0⟩)
    rw [hg] at hnone
    cases hnone
  have hapart := hh.kernel.blocks_apart (b := ⟨p, 0⟩) (hh.slabs.mem p _ hg) hb.mem hne
  have hle := hslot.le
  have hsize : orderSize 0 = 4096 := rfl
  dsimp only at hapart
  rw [hsize] at hapart
  omega

theorem IsChunk.ne_block {a : PageNode} (h : IsChunk s size G addr a) (hm : ClientMask m)
    (hh : Heap s A N size G) (hsize : Sized size) (hb : BlockOk m s A b) : addr ≠ s.kva b.start := by
  intro he
  have hpos : 4 ≤ size a := by
    obtain ⟨p, l, o, hg, _⟩ := h
    exact (hsize a (hh.slabs.home p _ hg)).1
  have hpos' := orderSize_pos b.order
  have hapart := h.apart_block hm hh hb
  omega

theorem Held.apart {c c' : Nat × Nat} (hm : ClientMask m) (h : Held m s A G c) (h' : Held m s A G c')
    (hh : Heap s A N (chunkSize 4) G) (hne : c.1 ≠ c'.1) :
    c.1 + c.2 ≤ c'.1 ∨ c'.1 + c'.2 ≤ c.1 := by
  cases h with
  | chunk _ hle hchunk =>
    cases h' with
    | chunk _ hle' hchunk' =>
      have hapart := hchunk.apart hchunk' hh hne
      rw [chunkSize, chunkSize] at hapart
      omega
    | block _ hfix hle' hblock =>
      have hapart := hchunk.apart_block hm hh hblock
      rw [chunkSize] at hapart
      omega
  | block _ hfix hle hblock =>
    cases h' with
    | chunk _ hle' hchunk' =>
      have hapart := hchunk'.apart_block hm hh hblock
      rw [chunkSize] at hapart
      omega
    | block _ hfix' hle' hblock' =>
      have hapart := hh.kernel.blocks_apart hblock.mem hblock'.mem fun he => hne (by rw [he])
      omega

theorem fixSize_request (hpos : 1 ≤ n) (hle : n ≤ 4 * 0x100000) :
    n ≤ fixSize n ∧ (fixSize n ≤ slabMax ∧ fixSize n % 2 ^ 16 = fixSize n ∨
      slabMax < fixSize n ∧ ∃ k ≤ maxOrder, fixSize n = orderSize k) := by
  obtain ⟨k, hk, hlow, hleast⟩ := fixSize_spec (n := n) hpos (by omega)
  have hk22 : k ≤ 22 := hleast 22 (by omega)
  refine ⟨hk ▸ hlow, ?_⟩
  rw [hk]
  by_cases hk11 : k ≤ 11
  · have hpow : 2 ^ k ≤ 2 ^ 11 := Nat.pow_le_pow_right (by decide) hk11
    exact Or.inl ⟨hpow, Nat.mod_eq_of_lt (by omega)⟩
  · obtain ⟨j, rfl⟩ : ∃ j, k = 12 + j := ⟨k - 12, by omega⟩
    refine Or.inr ⟨?_, j, by change j ≤ 10; omega, ?_⟩
    · have hpow : 2 ^ 12 ≤ 2 ^ (12 + j) := Nat.pow_le_pow_right (by decide) (by omega)
      change 2 ^ 11 < _
      omega
    · rw [orderSize_eq, pow_add]
      rfl

theorem kmalloc_small (hsmall : fixSize n ≤ slabMax) : s.kmalloc n = s.slabAlloc (fixSize n) := by
  rw [kmalloc]
  exact if_pos hsmall

variable {live : List (Nat × Nat)}

theorem KmallocInv.cons (h : KmallocInv m s' live A' N' G')
    (hnew : Held m s' A' G' (addr, n)) (hne : ∀ c ∈ live, c.1 ≠ addr) :
    KmallocInv m s' ((addr, n) :: live) A' N' G' := by
  refine ⟨h.heap, h.ready, h.clean, ?_, ?_⟩
  · intro c hc
    rcases List.mem_cons.1 hc with rfl | hc
    · exact hnew
    · exact h.held c hc
  · rw [List.map_cons, List.nodup_cons]
    refine ⟨fun hmem => ?_, h.nodup⟩
    obtain ⟨c, hc, he⟩ := List.mem_map.1 hmem
    exact hne c hc he

theorem Held.keep {c : Nat × Nat} (h : Held m s A G c) (hg : Grows s s' B B' P)
    (hchunk : ∀ addr i, IsChunk s (chunkSize 4) G addr (.slab i) → addr = c.1 →
      IsChunk s' (chunkSize 4) G' addr (.slab i))
    (hblock : ∀ b, BlockOk m s A b → s.kva b.start = c.1 → b ∈ B ∧ b ∈ A') : Held m s' A' G' c := by
  cases h with
  | chunk hs hfit hc => exact .chunk hs hfit (hchunk _ _ hc rfl)
  | block hlarge hfix hfit hb =>
    obtain ⟨hB, hA'⟩ := hblock _ hb rfl
    rw [← hg.kva]
    exact .block hlarge hfix hfit (hb.grows hg hB hA')

/-- The blocks `A` become `A'`; those of the allocations `live'` and of the slabs stay as they are. -/
theorem KmallocInv.keep {live' : List (Nat × Nat)} (h : KmallocInv m s live A N G)
    (hlive : live'.Sublist live) (hk' : Kernel s' A' N) (hc' : Counted s'.alloc A') (hr' : Ready s' A')
    (hclean' : Clean m s' A') (hslabs : s'.slabs = s.slabs) (hg : Grows s s' B B' ∅)
    (hslab : ∀ q g, G q = some g → ⟨q, 0⟩ ∈ B ∧ ⟨q, 0⟩ ∈ A')
    (hblock : ∀ c ∈ live', ∀ b, BlockOk m s A b → s.kva b.start = c.1 → b ∈ B ∧ b ∈ A') :
    KmallocInv m s' live' A' N G := by
  refine ⟨h.heap.of_grows hk' hc' hg hslabs hslab, hr', hclean', ?_, h.nodup.sublist (hlive.map _)⟩
  intro c hc
  exact (h.held c (hlive.subset hc)).keep hg (fun addr i hchunk _ => hchunk.congr hg.addr) (hblock c hc)

theorem KmallocInv.modifyPage {f : Page → Page} {c : Block} (h : KmallocInv m s live A N G) (hc : c ∈ A)
    (hp : p ∈ c) (hnone : G p = none)
    (hblock : ∀ a ∈ live, ∀ b, BlockOk m s A b → s.kva b.start = a.1 → p ∉ b)
    (hhead : pageHead (f (s.alloc.pages p)) = pageHead (s.alloc.pages p))
    (hsize : (f (s.alloc.pages p)).size = (s.alloc.pages p).size)
    (hmagic : (f (s.alloc.pages p)).magic = (s.alloc.pages p).magic)
    (href : (f (s.alloc.pages p)).refCnt = (s.alloc.pages p).refCnt ∨
      p = c.start ∧ 0 < (f (s.alloc.pages p)).refCnt) :
    KmallocInv m (s.modifyPage p f) live A N G := by
  have hpages : ∀ q, q ≠ p → (s.modifyPage p f).alloc.pages q = s.alloc.pages q := fun q hq => if_neg hq
  have hself : (s.modifyPage p f).alloc.pages p = f (s.alloc.pages p) := if_pos rfl
  have hg : Grows s (s.modifyPage p f) {b | b ∈ A ∧ p ∉ b} {b | b ∈ A ∧ p ∉ b} ∅ :=
    (Grows.rfl s _ ∅).modifyPage fun b hb => hb.2
  refine h.keep (List.Sublist.refl _) (h.heap.kernel.modifyPage hhead hsize hmagic) ⟨?_, ?_⟩
    ⟨h.ready.top, h.ready.unmapped⟩ ?_ rfl hg ?_ ?_
  · intro b hb
    by_cases hbp : b.start = p
    · rw [hbp, hself]
      rcases href with he | ⟨_, hpos⟩
      · rw [he, ← hbp]
        exact h.heap.counted.pos b hb
      · exact hpos
    · rw [hpages _ hbp]
      exact h.heap.counted.pos b hb
  · intro i hi hno
    by_cases hip : i = p
    · subst hip
      rw [hself]
      rcases href with he | ⟨he, _⟩
      · rw [he]
        exact h.heap.counted.zero i hi hno
      · exact absurd he.symm (hno c hc)
    · rw [hpages i hip]
      exact h.heap.counted.zero i hi hno
  · intro q hq hfree
    rw [hpages q fun he => hfree c hc (he ▸ hp)]
    exact h.clean q hq hfree
  · intro q g hq
    have hmem := h.heap.slabs.mem q g hq
    refine ⟨⟨hmem, fun hpq => ?_⟩, hmem⟩
    have hqp : p = q := by
      rw [Block.mem_def] at hpq
      dsimp only at hpq
      omega
    rw [hqp, hq] at hnone
    cases hnone
  · exact fun a ha b hb he => ⟨⟨hb.mem, hblock a ha b hb he⟩, hb.mem⟩

section

variable (hm : ClientMask m) (h : KmallocInv m s live A N G)
include hm h

theorem KmallocInv.small (hle : n ≤ fixSize n) (hsmall : fixSize n ≤ slabMax)
    (hmod : fixSize n % 2 ^ 16 = fixSize n) (hok : s.slabAlloc (fixSize n) = .ok (addr, s')) :
    ∃ A' N' G', KmallocInv m s' ((addr, n) :: live) A' N' G' ∧ Grows s s' A A' ∅ := by
  obtain ⟨A', N', G', p, o, hh', hstep, rfl, htook, hfits⟩ := h.heap.slabAlloc sized_four hok
  rw [hmod] at hfits
  have hblock : ∀ b, BlockOk m s A b → b ∈ A ∧ b ∈ A' := fun b hb =>
    ⟨hb.mem, hstep.grows.sub hb.mem⟩
  have hinv : KmallocInv m s' live A' N' G' := by
    refine ⟨hh', hstep.ready h.ready, hstep.clean m hm h.clean, fun c hc => ?_, h.nodup⟩
    exact (h.held c hc).keep hstep.grows
      (fun addr i hchunk _ => (hchunk.took hh' sized_four hstep.grows.addr htook).1)
      fun b hb _ => hblock b hb
  refine ⟨A', N', G', hinv.cons (.chunk hsmall (hle.trans hfits) htook.isChunk) ?_, hstep.grows⟩
  intro c hc
  cases h.held c hc with
  | chunk _ _ hchunk => exact (hchunk.took hh' sized_four hstep.grows.addr htook).2
  | block _ _ _ hb =>
    have hchunk : IsChunk s' (chunkSize 4) G' _ _ := htook.isChunk
    rw [← hstep.grows.kva]
    exact (hchunk.ne_block hm hh' sized_four
      (hb.grows hstep.grows hb.mem (hstep.grows.sub hb.mem))).symm

theorem KmallocInv.grow (hk' : Kernel s' (insert b A) N) (hnew : NewBlock s s' A b) :
    KmallocInv m s' live (insert b A) N G :=
  h.keep (List.Sublist.refl _) hk' (hnew.counted h.heap.counted) hnew.ready (hnew.clean m hm h.clean)
    hnew.slabs hnew.grows
    (fun q g hq => ⟨h.heap.slabs.mem q g hq, Or.inr (h.heap.slabs.mem q g hq)⟩)
    fun _ _ _ hc _ => ⟨hc.mem, Or.inr hc.mem⟩

theorem KmallocInv.ne_new (hk' : Kernel s' (insert b A) N) (hnew : NewBlock s s' A b) :
    ∀ c ∈ live, c.1 ≠ s'.kva b.start := by
  intro c hc
  cases h.held c hc with
  | chunk _ _ hchunk =>
    exact (hchunk.congr hnew.grows.addr).ne_block hm (h.grow hm hk' hnew).heap sized_four
      (hnew.block m hm h.clean)
  | @block _ b' _ _ _ hb =>
    have hne : b ≠ b' := by
      rintro rfl
      exact hnew.fresh b hb.mem _ b.start_mem b.start_mem
    have hapart := hk'.blocks_apart (Or.inl rfl) (Or.inr hb.mem) hne
    have hpos := orderSize_pos b.order
    have hpos' := orderSize_pos b'.order
    rw [← hnew.grows.kva]
    change s'.kva b'.start ≠ s'.kva b.start
    omega

theorem KmallocInv.large (hle : n ≤ fixSize n)
    (hfix : fixSize n = orderSize b.order) (hlarge : slabMax < fixSize n)
    (hk' : Kernel s' (insert b A) N) (hnew : NewBlock s s' A b) :
    KmallocInv m s' ((s'.kva b.start, n) :: live) (insert b A) N G :=
  (h.grow hm hk' hnew).cons (.block hlarge hfix hle (hnew.block m hm h.clean))
    (h.ne_new hm hk' hnew)

theorem KmallocInv.kmalloc (hpos : 1 ≤ n)
    (hle : n ≤ 4 * 0x100000) (hok : s.kmalloc n = .ok (addr, s')) :
    ∃ A' N' G', KmallocInv m s' ((addr, n) :: live) A' N' G' ∧ Grows s s' A A' ∅ := by
  obtain ⟨hfix, ⟨hsmall, hmod⟩ | ⟨hlarge, k, hk, hfixk⟩⟩ := fixSize_request hpos hle
  · rw [kmalloc_small hsmall] at hok
    exact h.small hm hfix hsmall hmod hok
  · obtain ⟨_, herr⟩ | herr | ⟨p, s1, hrun, hk', hnew⟩ := kmalloc_block h.heap.kernel h.ready hk hfixk
    · rw [hok] at herr
      cases herr
    · rw [hok] at herr
      cases herr
    · rw [hok] at hrun
      cases hrun
      exact ⟨_, N, G, h.large (b := ⟨p, k⟩) hm hfix hfixk hlarge hk' hnew, hnew.grows⟩

theorem KmallocInv.kfree (hc : (addr, n) ∈ live) (hok : s.kfree addr = .ok s') :
    ∃ A' N' G' P, KmallocInv m s' (live.erase (addr, n)) A' N' G' ∧ Grows s s' A' A' P ∧
      ∀ c ∈ A, c ∈ A' ∨ BlockOk m s A c := by
  cases h.held _ hc with
  | chunk _ _ hchunk =>
    obtain ⟨p, l, o, hg, rfl, hslot, hout⟩ := hchunk
    rw [h.heap.kfree_chunk hg hslot sized_four] at hok
    obtain ⟨_, herr⟩ | ⟨s1, N', hrun, hh', hstep⟩ := h.heap.slabFree sized_four hg hslot hout
    · rw [hok] at herr
      cases herr
    rw [hok] at hrun
    cases hrun
    refine ⟨A, N', _, {p}, ⟨hh', hstep.ready h.ready, hstep.clean m hm h.clean, ?_,
      h.nodup.sublist (List.erase_sublist.map _)⟩, hstep.grows, fun c hc => Or.inl hc⟩
    intro c hc'
    have hne := ne_of_mem_erase h.nodup hc hc'
    exact (h.held c (List.mem_of_mem_erase hc')).keep hstep.grows
      (fun addr i hchunk he => hchunk.gave hstep.grows.addr hg (he ▸ hne))
      fun b hb _ => ⟨hb.mem, hb.mem⟩
  | @block _ b _ _ _ hblock =>
    obtain ⟨_, herr⟩ | ⟨s1, hrun, hk', hfreed⟩ := kfree_block hm h.heap h.ready hblock
    · rw [hok] at herr
      cases herr
    rw [hok] at hrun
    cases hrun
    refine ⟨A \ {b}, N, G, ∅, h.keep List.erase_sublist hk' hfreed.counted hfreed.ready
      (hfreed.clean m hm hblock.flag h.clean) hfreed.slabs hfreed.grows ?_ ?_, hfreed.grows, ?_⟩
    · intro q g hq
      have hmem : (⟨q, 0⟩ : Block) ∈ A \ {b} := by
        refine ⟨h.heap.slabs.mem q g hq, ?_⟩
        rintro rfl
        rw [hblock.not_slab hm h.heap.slabs (Block.start_mem _)] at hq
        cases hq
      exact ⟨hmem, hmem⟩
    · intro a ha c hcok he
      have hmem : c ∈ A \ {b} := by
        refine ⟨hcok.mem, ?_⟩
        rintro rfl
        exact ne_of_mem_erase h.nodup hc ha he.symm
      exact ⟨hmem, hmem⟩
    · intro c hcA
      by_cases hcb : c = b
      · exact Or.inr (hcb ▸ hblock)
      · exact Or.inl ⟨hcA, hcb⟩

end

theorem Heap.setFrame {words : Nat → BitVec 32} (hh : Heap s A N size G) (hp : p < s.alloc.pageCnt)
    (hnone : G p = none) : Heap (s.setFrame (s.frame p) words) A N size G := by
  refine ⟨hh.kernel.congr rfl, hh.counted, hh.slabs.mem, hh.slabs.home, ?_, hh.slabs.lists⟩
  intro q g hg
  refine (hh.slabs.ok q g hg).keep rfl rfl rfl (if_neg fun he => ?_) rfl
  rw [hh.kernel.frame_inj (hh.slab_lt hg) hp he, hnone] at hg
  cases hg

theorem BlockOk.page_at (hb : BlockOk m s A b) (hk : Kernel s A N) (hi : i < orderSize b.order) :
    ∃ q ∈ b, ∃ o < 4096, s.kva b.start + i = s.kva q + o := by
  rw [orderSize_eq] at hi
  have hq : b.start + i / 4096 ∈ b := by
    rw [Block.mem_def]
    omega
  refine ⟨_, hq, i % 4096, Nat.mod_lt _ (by decide), ?_⟩
  rw [kva, kva, hk.pageAddr_eq (hk.owns.start_lt hb.mem), hk.pageAddr_eq (hk.owns.lt_of_mem hb.mem hq)]
  omega

theorem KmallocInv.setFrame {f : Nat} {words : Nat → BitVec 32} (h : KmallocInv m s live A N G)
    (hheap : Heap (s.setFrame f words) A N (chunkSize 4) G) :
    KmallocInv m (s.setFrame f words) live A N G := by
  refine ⟨hheap, ⟨h.ready.top, h.ready.unmapped⟩, h.clean, ?_, h.nodup⟩
  intro c hc
  cases h.held c hc with
  | chunk hs hfit hchunk => exact .chunk hs hfit hchunk
  | @block _ b hlarge hfix hfit hblock =>
    have hblock' : BlockOk m (s.setFrame f words) A b :=
      ⟨hblock.mem, hblock.data, hblock.refCnt, hblock.rwlock, hblock.entry, hblock.flag⟩
    exact .block hlarge hfix hfit hblock'

theorem KmallocInv.write {x : BitVec 8} (hm : ClientMask m) (h : KmallocInv m s live A N G)
    (hc : (addr, n) ∈ live) (hi : i < n) (hok : s.storeByte (addr + i) x = .ok s') :
    KmallocInv m s' live A N G := by
  have hok' := hok
  obtain ⟨f, hframe, hret⟩ := bind_eq_ok hok'
  cases hret
  refine h.setFrame ?_
  cases h.held _ hc with
  | chunk _ hle hchunk =>
    obtain ⟨s1, hrun, hheap, _⟩ := h.heap.write sized_four hchunk (lt_of_lt_of_le hi hle) x
    rw [hok] at hrun
    cases hrun
    exact hheap
  | @block _ b _ hfix hle hblock =>
    obtain ⟨q, hq, o, ho, he⟩ := hblock.page_at h.heap.kernel (i := i) (by omega)
    have hlt := h.heap.kernel.owns.lt_of_mem hblock.mem hq
    rw [he, frameAt_kva (hblock.entry q hq) (h.heap.kernel.pageAddr_mod hlt) ho] at hframe
    cases hframe
    exact h.heap.setFrame hlt (hblock.not_slab hm h.heap.slabs hq)

/-- Nothing is allocated from slabs, and the free memory is not mapped. -/
structure FreshHeap (s : Vm) (A : Set Block) (N : PageNode → List PageNode) : Prop where
  kernel : Kernel s A N
  counted : Counted s.alloc A
  lists : ∀ c ∈ heads, c ∉ roots → N c = []
  ready : Ready s A

theorem KmallocRun.inv {s0 : Vm} (hm : ClientMask m) (h0 : FreshHeap s0 A N) (hclean : Clean m s0 A)
    (hrun : KmallocRun s0 s live) : ∃ A' N' G', KmallocInv m s live A' N' G' := by
  induction hrun with
  | start =>
    refine ⟨A, N, fun _ => none, ⟨h0.kernel, h0.counted, slabs_none h0.lists⟩, h0.ready, hclean, ?_,
      List.nodup_nil⟩
    exact fun c hc => absurd hc List.not_mem_nil
  | kmalloc _ hpos hle hok ih =>
    obtain ⟨A', N', G', h⟩ := ih
    obtain ⟨A'', N'', G'', h', _⟩ := h.kmalloc hm hpos hle hok
    exact ⟨A'', N'', G'', h'⟩
  | kfree _ hlive hok ih =>
    obtain ⟨A', N', G', h⟩ := ih
    obtain ⟨A'', N'', G'', _, h', _⟩ := h.kfree hm hlive hok
    exact ⟨A'', N'', G'', h'⟩
  | write _ hlive hi hok ih =>
    obtain ⟨A', N', G', h⟩ := ih
    exact ⟨A', N', G', h.write hm hlive hi hok⟩

/-- The live allocations do not overlap and are mapped at their physical addresses plus
`KERNEL_START`; `kfree` finds out which of them are chunks, and unmaps the others. Only a held lock
keeps `kfree` from returning, and only that and lack of memory `kmalloc`. -/
structure KmallocSound (s : Vm) (live : List (Nat × Nat)) : Prop where
  apart : live.Pairwise fun c c' => c.1 + c.2 ≤ c'.1 ∨ c'.1 + c'.2 ≤ c.1
  mapped : ∀ c ∈ live, ∀ i < c.2, kernelStart ≤ c.1 + i ∧
    s.frameAt (c.1 + i) = .ok ((c.1 + i - kernelStart) >>> 12)
  path : ∀ c ∈ live, ∃ p, s.vaGetPage (pageCeil c.1) = .ok (some p) ∧
    (isSlab (s.alloc.pages p) = true ↔ fixSize c.2 ≤ slabMax)
  unmapped : ∀ c ∈ live, slabMax < fixSize c.2 → ∀ s', s.kfree c.1 = .ok s' →
    ∀ i < fixSize c.2, s'.kPageTables ((c.1 + i - kernelStart) >>> 12) &&& vmPres = 0
  total : s.alloc.lock = false → s.slabLock = false → (∀ c ∈ live, ∃ s', s.kfree c.1 = .ok s') ∧
    ∀ n, 1 ≤ n → n ≤ 4 * 0x100000 →
      s.kmalloc n = .error .outOfMemory ∨ ∃ addr s', s.kmalloc n = .ok (addr, s')

theorem kernelStart_le (s : Vm) (p i : Nat) : kernelStart ≤ s.kva p + i := by
  rw [kva]
  omega

theorem Held.mapped {c : Nat × Nat} (h : Held m s A G c) (hh : Heap s A N (chunkSize 4) G)
    (hi : i < c.2) : kernelStart ≤ c.1 + i ∧
      s.frameAt (c.1 + i) = .ok ((c.1 + i - kernelStart) >>> 12) := by
  cases h with
  | chunk _ hle hchunk =>
    obtain ⟨p, l, o, hg, rfl, hslot, _⟩ := hchunk
    have hmod := hh.kernel.pageAddr_mod (hh.slab_lt hg)
    have hfits := hslot.le
    rw [chunkSize] at hfits
    change i < _ at hi
    change kernelStart ≤ s.kva p + o + i ∧ s.frameAt (s.kva p + o + i) = .ok _
    rw [Nat.add_assoc, kva_frame hmod (by omega), (hh.slabs.ok p _ hg).mapped.frameAt hmod (by omega)]
    exact ⟨kernelStart_le s p _, rfl⟩
  | block _ hfix hle hblock =>
    obtain ⟨q, hq, o, ho, he⟩ := hblock.page_at hh.kernel (i := i) (by change i < _ at hi; omega)
    have hmod := hh.kernel.pageAddr_mod (hh.kernel.owns.lt_of_mem hblock.mem hq)
    change kernelStart ≤ s.kva _ + i ∧ s.frameAt (s.kva _ + i) = .ok _
    rw [he, kva_frame hmod ho, frameAt_kva (hblock.entry q hq) hmod ho]
    exact ⟨kernelStart_le s q o, rfl⟩

theorem BlockOk.vaGetPage (hb : BlockOk m s A b) (hk : Kernel s A N) (hr : Ready s A) :
    s.vaGetPage (pageCeil (s.kva b.start)) = .ok (some b.start) := by
  have hceil := pageCeil_kva (o := 0) (hk.pageAddr_mod (hk.owns.start_lt hb.mem)) (by decide)
  rw [Nat.add_zero] at hceil
  rw [hceil]
  exact hk.vaGetPage hb.mem (hb.kMapped hk hr)

theorem Held.path {c : Nat × Nat} (hm : ClientMask m) (h : Held m s A G c) (hh : Heap s A N (chunkSize 4) G)
    (hr : Ready s A) :
    ∃ p, s.vaGetPage (pageCeil c.1) = .ok (some p) ∧
      (isSlab (s.alloc.pages p) = true ↔ fixSize c.2 ≤ slabMax) := by
  cases h with
  | chunk hsmall _ hchunk =>
    obtain ⟨p, l, o, hg, rfl, hslot, _⟩ := hchunk
    have hslab := hh.slabs.ok p _ hg
    have hlt := hslot.lt (sized_four _ (hh.slabs.home p _ hg)).1
    refine ⟨p, ?_, iff_of_true hslab.flag hsmall⟩
    rw [pageCeil_kva (hh.kernel.pageAddr_mod (hh.slab_lt hg)) hlt]
    exact Kernel.vaGetPage (b := ⟨p, 0⟩) hh.kernel (hh.slabs.mem p _ hg) hslab.mapped
  | @block n b hlarge _ _ hblock =>
    refine ⟨b.start, hblock.vaGetPage hh.kernel hr, iff_of_false ?_ hlarge.not_ge⟩
    rw [hm.not_slab (hblock.flag _ b.start_mem)]
    exact Bool.false_ne_true

theorem Held.unmapped {c : Nat × Nat} (hm : ClientMask m) (h : Held m s A G c) (hh : Heap s A N (chunkSize 4) G)
    (hr : Ready s A) (hlarge : slabMax < fixSize c.2) (hok : s.kfree c.1 = .ok s')
    (hi : i < fixSize c.2) : s'.kPageTables ((c.1 + i - kernelStart) >>> 12) &&& vmPres = 0 := by
  cases h with
  | chunk hsmall _ _ => exact absurd hsmall hlarge.not_ge
  | @block n b _ hfix _ hblock =>
    obtain ⟨_, herr⟩ | ⟨s1, hrun, _, hfreed⟩ := kfree_block hm hh hr hblock
    · rw [hok] at herr
      cases herr
    rw [hok] at hrun
    cases hrun
    change i < fixSize n at hi
    rw [hfix] at hi
    obtain ⟨q, hq, o, ho, he⟩ := hblock.page_at hh.kernel hi
    change s'.kPageTables ((s.kva _ + i - kernelStart) >>> 12) &&& vmPres = 0
    rw [he, kva_frame (hh.kernel.pageAddr_mod (hh.kernel.owns.lt_of_mem hblock.mem hq)) ho]
    exact hfreed.entry q hq

theorem Held.kfree_total {c : Nat × Nat} (hm : ClientMask m) (h : Held m s A G c)
    (hh : Heap s A N (chunkSize 4) G) (hr : Ready s A) (hlock : s.alloc.lock = false)
    (hslab : s.slabLock = false) : ∃ s', s.kfree c.1 = .ok s' := by
  cases h with
  | chunk _ _ hchunk =>
    obtain ⟨p, l, o, hg, rfl, hslot, hout⟩ := hchunk
    rw [hh.kfree_chunk hg hslot sized_four]
    obtain ⟨htrue, _⟩ | ⟨s', _, hrun, _⟩ := hh.slabFree sized_four hg hslot hout
    · rw [hslab] at htrue
      cases htrue
    · exact ⟨s', hrun⟩
  | block _ _ _ hblock =>
    obtain ⟨htrue, _⟩ | ⟨s', hrun, _⟩ := kfree_block hm hh hr hblock
    · rw [hlock] at htrue
      cases htrue
    · exact ⟨s', hrun⟩

theorem Heap.kmalloc_total (hh : Heap s A N (chunkSize 4) G) (hr : Ready s A)
    (hlock : s.alloc.lock = false) (hslab : s.slabLock = false) (hpos : 1 ≤ n) (hle : n ≤ 4 * 0x100000) :
    s.kmalloc n = .error .outOfMemory ∨ ∃ addr s', s.kmalloc n = .ok (addr, s') := by
  obtain ⟨hfix, ⟨hsmall, hmod⟩ | ⟨_, k, hk, hfixk⟩⟩ := fixSize_request hpos hle
  · rw [kmalloc_small hsmall]
    exact hh.slabAlloc_total sized_four hr hlock hslab (by omega) (hmod.symm ▸ hsmall)
  · obtain ⟨htrue, _⟩ | herr | ⟨p, s', hrun, _⟩ := kmalloc_block hh.kernel hr hk hfixk
    · rw [hlock] at htrue
      cases htrue
    · exact Or.inl herr
    · exact Or.inr ⟨_, s', hrun⟩

theorem clientMask_slab : ClientMask pgSlab := ⟨by decide, by decide⟩

theorem KmallocInv.sound (h : KmallocInv pgSlab s live A N G) : KmallocSound s live := by
  refine ⟨?_, ?_, ?_, ?_, ?_⟩
  · refine (List.pairwise_map.1 h.nodup).imp_of_mem fun {c c'} hc hc' hne => ?_
    exact Held.apart clientMask_slab (h.held c hc) (h.held c' hc') h.heap hne
  · exact fun c hc i hi => (h.held c hc).mapped h.heap hi
  · exact fun c hc => Held.path clientMask_slab (h.held c hc) h.heap h.ready
  · exact fun c hc hlarge s' hok i hi =>
      Held.unmapped clientMask_slab (h.held c hc) h.heap h.ready hlarge hok hi
  · intro hlock hslab
    refine ⟨fun c hc => Held.kfree_total clientMask_slab (h.held c hc) h.heap h.ready hlock hslab, ?_⟩
    exact fun n hpos hle => h.heap.kmalloc_total h.ready hlock hslab hpos hle

/-- `kmalloc` and `kfree` when no free page looks like a slab. -/
theorem kmallocRun_sound {s0 : Vm} (h0 : FreshHeap s0 A N) (hclean : Clean pgSlab s0 A)
    (hrun : KmallocRun s0 s live) : KmallocSound s live := by
  obtain ⟨A', N', G', h⟩ := hrun.inv clientMask_slab h0 hclean
  exact h.sound

theorem boot_freshHeap (hk : k ≤ maxOrder) : FreshHeap (boot k) ∅ fun _ => [] := by
  obtain ⟨hkernel, hcounted⟩ := boot_kernel hk
  refine ⟨hkernel, hcounted, fun _ _ _ => rfl, ?_, fun _ _ _ => (by decide : vmNpres &&& vmPres = 0)⟩
  have hpow : 2 ^ k ≤ 2 ^ 10 := Nat.pow_le_pow_right (by decide) hk
  change 0x100000 + 4096 * 2 ^ k ≤ 0x3e000000
  omega

theorem boot_clean {m : BitVec 16} (hm : ClientMask m) (k : Nat) : Clean m (boot k) ∅ := by
  intro q _ _
  have hzero : ((boot k).alloc.pages q).flag &&& clientFlags = 0#16 &&& clientFlags := by
    change (if q = 0 then pgPage ||| pgHead else pgPage) &&& clientFlags = 0#16 &&& clientFlags
    split <;> decide
  rw [hm.congr hzero, BitVec.zero_and]

def smallKmalloc : Except Fault (Nat × Nat × Vm) := do
  let (addr, s) ← (boot 4).kmalloc 100
  let (addr', s) ← s.kmalloc 5000
  let s ← s.kfree addr'
  .ok (addr, addr', s)

theorem kmallocRun_sound_small : ∃ (s : Vm) (addr : Nat), KmallocRun (boot 4) s [(addr, 100)] ∧
    KmallocSound s [(addr, 100)] := by
  obtain ⟨⟨addr, addr', s⟩, hok⟩ := exists_ok (x := smallKmalloc) (by decide +kernel)
  obtain ⟨⟨_, s1⟩, hchunk, hok⟩ := bind_eq_ok hok
  obtain ⟨⟨_, s2⟩, hblock, hok⟩ := bind_eq_ok hok
  obtain ⟨s3, hfree, hret⟩ := bind_eq_ok hok
  cases hret
  have hrun := ((KmallocRun.start.kmalloc (by decide) (by decide) hchunk).kmalloc (by decide) (by decide)
    hblock).kfree List.mem_cons_self hfree
  rw [List.erase_cons_head] at hrun
  exact ⟨s, addr, hrun, kmallocRun_sound (boot_freshHeap (by decide)) (boot_clean clientMask_slab 4) hrun⟩

end Vm

end QuarkOS
