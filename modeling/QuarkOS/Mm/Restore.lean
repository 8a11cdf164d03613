import QuarkOS.Mm.AllocRuns
import QuarkOS.Mm.Regions

/-!
# Freeing everything

`__free_page` joins a block with its buddy as long as that is free, and `__alloc_page` leaves the
buddies of the halves it cuts off in the hands of its caller. So no two free blocks can be joined, at
any time. When nothing is allocated the free blocks are then the only such tiling of the managed
pages, the one that `page_setup` made.
-/

namespace QuarkOS

open CList Dyadic

namespace BuddyAllocator

variable {s s' s0 : BuddyAllocator} {A : Set Block} {n : Nat}

/-- The allocator manages `n` pages, the blocks `A` are allocated, and no two free blocks can be
joined. -/
structure Joined (s : BuddyAllocator) (n : Nat) (A : Set Block) : Prop where
  tiled : ∃ T F L, Inv s roots T F ∅ L ∧ Holds L F ∧ T \ F = A ∧ Coalesced maxOrder F
  counted : Counted s A
  pageCnt : s.pageCnt = n

theorem Joined.owns (hs : Joined s n A) : ∃ N, Owns s roots A N := by
  obtain ⟨T, F, L, hinv, hL, hA, _⟩ := hs.tiled
  exact ⟨L, T, F, L, hinv, hL, hA, fun _ _ => rfl⟩

theorem Joined.alloc {m p : Nat} (hs : Joined s n A) (hmin : 4096 ≤ fixSize m)
    (hmax : fixSize m ≤ 4 * 0x100000) (hok : s._allocPage m = .ok (p, s')) :
    Joined s' n (insert ⟨p, Nat.log2 (fixSize m >>> 12)⟩ A) := by
  obtain ⟨hk, hsize⟩ := fixSize_log2 hmin hmax
  obtain ⟨T, F, L, hinv, hL, rfl, hco⟩ := hs.tiled
  obtain ⟨herr, _⟩ | ⟨q, s1, F', hrun, ⟨T', L', hinv', hL', hA', _⟩, hframe, hco'⟩ :=
    hinv.allocPage hL (_allocPage_lock hk hsize hok) hk hsize
  · rw [hok] at herr
    cases herr
  · rw [hok] at hrun
    cases hrun
    exact ⟨⟨T', F', L', hinv', hL', hA', hco' hco⟩, hs.counted.alloc hframe,
      hframe.pageCnt.trans hs.pageCnt⟩

theorem Joined.free {b : Block} (hs : Joined s n A) (hb : b ∈ A)
    (href : (s.pages b.start).refCnt = 1) (hok : s._freePage b.start = .ok s') :
    Joined s' n (A \ {b}) := by
  obtain ⟨N, howns⟩ := hs.owns
  obtain ⟨_, herr⟩ | ⟨hlock, hwl, _⟩ := _freePage_outcome howns hs.counted hb
    (fun a ha hroot => absurd ha hroot) href
  · rw [hok] at herr
    cases herr
  obtain ⟨T, F, L, hinv, hL, rfl, hco⟩ := hs.tiled
  obtain ⟨s1, F', hrun, ⟨T', L', hinv', hL', hA', _⟩, hframe, _, hco'⟩ :=
    hinv.freePage hL hs.counted.pos hb (fun a ha hroot => absurd ha hroot) hlock hwl href
  rw [hok] at hrun
  cases hrun
  have hzero : ∀ c ∈ F, (s.pages c.start).refCnt = 0 := by
    intro c hc
    have hcT := hinv.free_subset hc
    refine hs.counted.zero _ (hinv.start_lt hcT) fun d hd he => ?_
    exact hd.2 (hinv.tiling.eq_of_start_eq hd.1 hcT he ▸ hc)
  exact ⟨⟨T', F', L', hinv', hL', hA', hco' hzero hco⟩, hs.counted.free hframe,
    hframe.pageCnt.trans hs.pageCnt⟩

theorem Run.joined (h0 : Joined s0 n s0.allocatedBlocks) (hrun : Run s0 s A) : Joined s n A := by
  induction hrun with
  | start => exact h0
  | alloc _ hmin hmax halloc ih => exact ih.alloc hmin hmax halloc
  | free _ hb href hfree ih => exact ih.free hb href hfree

theorem pmmSetup_allocatedBlocks {b : BlockAllocator} (hok : s.pmmSetup b = .ok s') :
    s'.allocatedBlocks = ∅ := by
  obtain ⟨_, _, _, L, hs⟩ := pmmSetup_spec hok
  refine Set.eq_empty_of_forall_notMem fun c hc => ?_
  exact hc.2.2.2 (hs.refCnt _ hc.1)

/-- Regions that are cut into the blocks that one region of all their pages would be cut into. -/
theorem pmmSetup_joined_of_carve {b : BlockAllocator}
    (hblocks : {c | c ∈ regionBlocks 0 (b.infos.map wholePages)} =
      {c | c ∈ carve (maxOrder + 1) 0 (b.infos.map wholePages).sum})
    (hok : s.pmmSetup b = .ok s') : Joined s' (b.infos.map wholePages).sum ∅ := by
  obtain ⟨_, hcnt, _, L, hs⟩ := pmmSetup_spec hok
  rw [hblocks, ← hcnt] at hs
  have hinv : Inv s' roots {c | c ∈ carve (maxOrder + 1) 0 s'.pageCnt}
      {c | c ∈ carve (maxOrder + 1) 0 s'.pageCnt} ∅ L :=
    ⟨heads_roots, carve_tiling _ _, subset_rfl, Set.empty_subset _,
      fun c hc => absurd hc (Set.notMem_empty c), hs.head_iff, fun c hc _ => hs.size_eq c hc,
      hs.lists, fun a ha hroot => absurd ha hroot⟩
  have hcounted : Counted s' ∅ :=
    ⟨fun c hc => absurd hc (Set.notMem_empty c), fun i hi _ => hs.refCnt i hi⟩
  exact ⟨⟨_, _, L, hinv, hs.holds, Set.sdiff_self, carve_coalesced _ _⟩, hcounted, hcnt⟩

theorem pmmSetup_joined {b : BlockAllocator} {info : BlockInfo} (hinfos : b.infos = [info])
    (hok : s.pmmSetup b = .ok s') : Joined s' (wholePages info) ∅ := by
  have hjoined := pmmSetup_joined_of_carve (b := b) (by
    rw [hinfos, List.map_singleton, List.sum_singleton]
    ext c
    exact List.mem_append.trans (or_iff_left List.not_mem_nil)) hok
  rwa [hinfos, List.map_singleton, List.sum_singleton] at hjoined

theorem Joined.free_eq {k : Nat} {l l' : List PageNode} (hs : Joined s n ∅) (hs' : Joined s' n ∅)
    (hk : k ≤ maxOrder) (hl : Linked s.links (.root k) l) (hl' : Linked s'.links (.root k) l') :
    ∀ x, x ∈ l ↔ x ∈ l' := by
  obtain ⟨T, F, L, hinv, hL, hA, hco⟩ := hs.tiled
  obtain ⟨T', F', L', hinv', hL', hA', hco'⟩ := hs'.tiled
  have hT : T = F := (Set.sdiff_eq_empty.1 hA).antisymm hinv.free_subset
  have hT' : T' = F' := (Set.sdiff_eq_empty.1 hA').antisymm hinv'.free_subset
  subst hT hT'
  have htiling := hinv.tiling
  have htiling' := hinv'.tiling
  rw [hs.pageCnt] at htiling
  rw [hs'.pageCnt] at htiling'
  have heq := htiling.eq_of_coalesced hco htiling' hco'
  intro x
  rw [hl.unique (hinv.lists.linked _ (root_mem_roots hk)),
    hl'.unique (hinv'.lists.linked _ (root_mem_roots hk)), hL k hk, hL' k hk, heq]

/-- When every block that was allocated has been freed, each free list holds the blocks that
`page_setup` put into it. -/
theorem run_restores {b : BlockAllocator} {info : BlockInfo} (hinfos : b.infos = [info])
    (hok : s.pmmSetup b = .ok s0) (hrun : Run s0 s' ∅) (k : Nat) (hk : k ≤ maxOrder) :
    ∃ l0 l, Linked s0.links (.root k) l0 ∧ Linked s'.links (.root k) l ∧ ∀ x, x ∈ l ↔ x ∈ l0 := by
  have h0 := pmmSetup_joined hinfos hok
  have hs : Joined s' _ ∅ := hrun.joined (by rw [pmmSetup_allocatedBlocks hok]; exact h0)
  obtain ⟨T, F, L, hinv, _⟩ := h0.tiled
  obtain ⟨T', F', L', hinv', _⟩ := hs.tiled
  have hl := hinv.lists.linked _ (root_mem_roots hk)
  have hl' := hinv'.lists.linked _ (root_mem_roots hk)
  exact ⟨_, _, hl, hl', hs.free_eq h0 hk hl' hl⟩

def twoPages : Except Fault BuddyAllocator := do
  let s0 ← (blank 8).pmmSetup oneRegion
  let (p, s1) ← s0._allocPage 4096
  let (q, s2) ← s1._allocPage 4096
  assertk (p = 6 ∧ q = 4 ∧ (s2.pages 6).refCnt = 1)
  let s3 ← s2._freePage 6
  assertk ((s3.pages 4).refCnt = 1)
  s3._freePage 4

theorem run_restores_oneRegion : ∃ s0 s, (blank 8).pmmSetup oneRegion = .ok s0 ∧ Run s0 s ∅ ∧
    ∃ l0 l, Linked s0.links (.root 0) l0 ∧ Linked s.links (.root 0) l ∧ ∀ x, x ∈ l ↔ x ∈ l0 := by
  obtain ⟨_, hall⟩ := exists_ok (x := twoPages) (by decide +kernel)
  obtain ⟨s0, hok, hall⟩ := bind_eq_ok hall
  simp only [bind_ok_iff, Prod.exists] at hall
  obtain ⟨p, s1, halloc, q, s2, halloc', _, hassert, s3, hfree, _, hassert', hfree'⟩ := hall
  obtain ⟨rfl, rfl, href⟩ := of_assertk hassert
  have href' := of_assertk hassert'
  have hone : Nat.log2 (fixSize 4096 >>> 12) = 0 := by decide
  have hrun1 := Run.start.alloc (by decide) (by decide) halloc
  have hrun2 := hrun1.alloc (by decide) (by decide) halloc'
  rw [hone] at hrun2
  rw [pmmSetup_allocatedBlocks hok] at hrun2
  have hrun3 := hrun2.free (b := ⟨6, 0⟩) (Or.inr (Or.inl rfl)) href hfree
  have hrun4 := hrun3.free (b := ⟨4, 0⟩) ⟨Or.inl rfl, by decide⟩ href' hfree'
  have hnone : (insert (⟨4, 0⟩ : Block) (insert ⟨6, 0⟩ ∅) \ {⟨6, 0⟩}) \ {⟨4, 0⟩} = (∅ : Set Block) := by
    ext c
    simp only [Set.mem_sdiff, Set.mem_insert_iff, Set.mem_singleton_iff, Set.mem_empty_iff_false]
    tauto
  rw [hnone] at hrun4
  exact ⟨s0, _, hok, hrun4, run_restores rfl hok hrun4 0 (Nat.zero_le _)⟩

end BuddyAllocator

end QuarkOS
