import QuarkOS.Mm.Restore

/-!
# Calls of the page allocator

Any sequence of `__alloc_page` and `__free_page`, with whatever arguments, from the state that `page_setup`
leaves: the checks of the two functions see to it that only blocks that are allocated are freed.

A request fails only when no aligned run of free pages is large enough, since blocks have been joined
wherever that was possible.
-/

namespace QuarkOS

open CList Dyadic Function

namespace BuddyAllocator

inductive Call
  | alloc (size : Nat)
  | free (page : Nat)
deriving DecidableEq, Repr

def step (s : BuddyAllocator) : Call → Except Fault BuddyAllocator
  | .alloc size => do
    let (_, s) ← s._allocPage size
    .ok s
  | .free page => s._freePage page

/-- Calls that all complete and meet a condition. -/
inductive Calls (C : BuddyAllocator → Call → Prop) (s0 : BuddyAllocator) : BuddyAllocator → Prop
  | start : Calls C s0 s0
  | step {s s' : BuddyAllocator} (hcalls : Calls C s0 s) (c : Call) (hC : C s c)
      (hstep : s.step c = .ok s') : Calls C s0 s'

/-- The argument of `__free_page` is a page structure of the array. -/
def Call.InArray (s : BuddyAllocator) : Call → Prop
  | .alloc _ => True
  | .free page => page < s.pageCnt

variable {s s' s0 : BuddyAllocator} {A : Set Block} {n : Nat}

theorem fixSize_of_ok {p : Nat} (hok : s._allocPage n = .ok (p, s')) :
    4096 ≤ fixSize n ∧ fixSize n ≤ 4 * 0x100000 := by
  obtain ⟨_, hassert, _⟩ := bind_eq_ok hok
  obtain ⟨hpos, hmax, hmod⟩ := of_assertk hassert
  omega

/-- The state between two calls: every allocated block has one reference. -/
structure Sole (s : BuddyAllocator) (n : Nat) (A : Set Block) : Prop where
  joined : Joined s n A
  refCnt : ∀ b ∈ A, (s.pages b.start).refCnt = 1

theorem Sole.alloc {m p : Nat} (hs : Sole s n A) (halloc : s._allocPage m = .ok (p, s')) :
    Sole s' n (insert ⟨p, Nat.log2 (fixSize m >>> 12)⟩ A) ∧ (s.Unlocked → s'.Unlocked) ∧
      AllocFrame s s' A ⟨p, Nat.log2 (fixSize m >>> 12)⟩ := by
  obtain ⟨hmin, hmax⟩ := fixSize_of_ok halloc
  obtain ⟨N, howns⟩ := hs.joined.owns
  obtain ⟨_, herr⟩ | ⟨herr, _⟩ | ⟨q, s1, hok, howns', hframe⟩ := _allocPage_outcome howns hmin hmax
  · rw [halloc] at herr
    cases herr
  · rw [halloc] at herr
    cases herr
  · rw [halloc] at hok
    cases hok
    refine ⟨⟨hs.joined.alloc hmin hmax halloc, ?_⟩, fun hu => hu.alloc howns hs.joined.counted howns' hframe,
      hframe⟩
    rintro b (rfl | hb)
    · exact hframe.refCnt
    · rw [hframe.pages b hb _ b.start_mem, hs.refCnt b hb]

theorem Sole.free {b : Block} (hs : Sole s n A) (hb : b ∈ A) (hfree : s._freePage b.start = .ok s') :
    Sole s' n (A \ {b}) ∧ (s.Unlocked → s'.Unlocked) ∧ FreeFrame s s' A b := by
  obtain ⟨N, howns⟩ := hs.joined.owns
  obtain ⟨_, herr⟩ | ⟨_, _, s1, hok, howns', hframe, _⟩ := _freePage_outcome howns hs.joined.counted hb
    (fun a ha hroot => absurd ha hroot) (hs.refCnt b hb)
  · exact absurd (herr.symm.trans hfree) (by simp)
  · obtain rfl := Except.ok.inj (hok.symm.trans hfree)
    refine ⟨⟨hs.joined.free hb (hs.refCnt b hb) hfree, ?_⟩,
      fun hu => hu.free howns hs.joined.counted howns' hframe, hframe⟩
    rintro c ⟨hc, hne⟩
    rw [hframe.pages c hc hne _ c.start_mem, hs.refCnt c hc]

theorem Sole.step {c : Call} (hs : Sole s n A) (hC : c.InArray s) (hstep : s.step c = .ok s') :
    ∃ A', Sole s' n A' := by
  cases c with
  | alloc m =>
    obtain ⟨⟨p, s1⟩, halloc, hret⟩ := bind_eq_ok hstep
    cases hret
    exact ⟨_, (hs.alloc halloc).1⟩
  | free p =>
    obtain ⟨_, hpos, _⟩ := bind_eq_ok hstep
    have hpos := of_assertk hpos
    -- only the first pages of allocated blocks have references
    obtain ⟨b, hb, rfl⟩ : ∃ b ∈ A, b.start = p := by
      by_contra hnone
      push Not at hnone
      rw [hs.joined.counted.zero p hC hnone] at hpos
      exact absurd hpos (Nat.lt_irrefl 0)
    exact ⟨_, (hs.free hb hstep).1⟩

theorem Calls.sole (h0 : Sole s0 n A) (hcalls : Calls (fun s c => c.InArray s) s0 s) :
    ∃ A', Sole s n A' := by
  induction hcalls with
  | start => exact ⟨A, h0⟩
  | step _ c hC hstep ih =>
    obtain ⟨A', hs⟩ := ih
    exact hs.step hC hstep

/-- A free list of a high enough order is not empty when the pages of an aligned block are free. -/
theorem Joined.allocPage_of_free {m k i : Nat} (hs : Joined s n A) (hk : k ≤ maxOrder)
    (hsize : fixSize m = orderSize k) (hdvd : 2 ^ k ∣ i)
    (hfree : ∀ j, i ≤ j → j < i + 2 ^ k → j ∈ s.freePages) :
    s._allocPage m ≠ .error .outOfMemory := by
  intro herr
  obtain ⟨T, F, L, hinv, hL, rfl, hco⟩ := hs.tiled
  have hcover : ∀ j ∈ (⟨i, k⟩ : Block), ∃ c ∈ F, j ∈ c := by
    intro j hj
    obtain ⟨c, hc, hjc⟩ := hfree j hj.1 hj.2
    exact ⟨c, ((hinv.mem_freeBlocks hs.counted.pos).1 hc).1, hjc⟩
  obtain ⟨c, hc, hkc, _⟩ := hinv.tiling.exists_order_ge hinv.free_subset hco hk hdvd hcover
  have hcm := hinv.tiling.order_le c (hinv.free_subset hc)
  cases hlock : s.lock with
  | true =>
    rw [_allocPage_eq hk hsize, hlock, if_pos rfl] at herr
    cases herr
  | false =>
    obtain ⟨_, hempty⟩ | ⟨p, s1, _, hok, _⟩ := hinv.allocPage hL hlock hk hsize
    · have hlinked := hinv.lists.linked _ (root_mem_roots hcm)
      have hnil := hlinked.listEmpty_iff.1 (hempty _ hkc hcm)
      have hmem : PageNode.page c.start ∈ L (.root c.order) := (hL _ hcm _).2 ⟨_, rfl, hc⟩
      rw [hnil] at hmem
      cases hmem
    · rw [herr] at hok
      cases hok

/-- The out-of-memory assertion is hit only if no aligned run of as many pages is free. -/
theorem calls_outOfMemory {b : BlockAllocator} {info : BlockInfo} (hinfos : b.infos = [info])
    (hinit : s.pmmSetup b = .ok s0) (hcalls : Calls (fun s c => c.InArray s) s0 s') {m k : Nat}
    (hk : k ≤ maxOrder) (hsize : fixSize m = orderSize k)
    (hfail : s'._allocPage m = .error .outOfMemory) :
    ¬ ∃ i, 2 ^ k ∣ i ∧ i + 2 ^ k ≤ s'.pageCnt ∧ ∀ j, i ≤ j → j < i + 2 ^ k → j ∈ s'.freePages := by
  rintro ⟨i, hdvd, _, hfree⟩
  have h0 : Sole s0 _ ∅ := ⟨pmmSetup_joined hinfos hinit, fun c hc => absurd hc (Set.notMem_empty c)⟩
  obtain ⟨A, hs⟩ := hcalls.sole h0
  exact hs.joined.allocPage_of_free hk hsize hdvd hfree hfail

def fourPages : Except Fault Unit := do
  let s0 ← (blank 8).pmmSetup oneRegion
  let s ← s0.step (.alloc 0x4000)
  assertk (faults (s._allocPage 0x4000) .outOfMemory)

theorem calls_outOfMemory_oneRegion : ∃ s0 s, (blank 8).pmmSetup oneRegion = .ok s0 ∧
    s0.step (.alloc 0x4000) = .ok s ∧ s._allocPage 0x4000 = .error .outOfMemory ∧
    ¬ ∃ i, 2 ^ 2 ∣ i ∧ i + 2 ^ 2 ≤ s.pageCnt ∧ ∀ j, i ≤ j → j < i + 2 ^ 2 → j ∈ s.freePages := by
  obtain ⟨_, hall⟩ := exists_ok (x := fourPages) (by decide +kernel)
  obtain ⟨s0, hinit, hall⟩ := bind_eq_ok hall
  obtain ⟨s, hstep, hall⟩ := bind_eq_ok hall
  have hfail := eq_error_of_faults (assertk_eq_ok hall)
  have hcalls : Calls (fun s c => c.InArray s) s0 s := Calls.start.step (.alloc 0x4000) trivial hstep
  exact ⟨s0, s, hinit, hstep, hfail, calls_outOfMemory rfl hinit hcalls (by decide) (by decide) hfail⟩

end BuddyAllocator

end QuarkOS
