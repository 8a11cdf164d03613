import QuarkOS.Mm.BuddyOps

/-!
# Runs of the page allocator

A run starts in a well-formed state and calls `__alloc_page` and `__free_page` in any order. The set
of live blocks is kept by the caller: it grows by the block that was asked for and shrinks by the
block that was given back.
-/

namespace QuarkOS

open CList Dyadic Function

namespace BuddyAllocator

variable {s s' s0 : BuddyAllocator} {A : Set Block} {b : Block}

/-- The allocated blocks, read off the page structures. -/
def allocatedBlocks (s : BuddyAllocator) : Set Block :=
  {b | b.start < s.pageCnt ∧ pageHead (s.pages b.start) = true ∧
    (s.pages b.start).size = orderSize b.order ∧ (s.pages b.start).refCnt ≠ 0}

variable {R : Set PageNode} {N : PageNode → List PageNode} {n : Nat}

theorem Inv.allocatedBlocks_eq {T F : Set Block} {L : PageNode → List PageNode}
    (hs : Inv s R T F ∅ L) (hc : Counted s (T \ F)) : s.allocatedBlocks = T \ F := by
  ext b
  constructor
  · rintro ⟨hlt, hhead, hsize, href⟩
    have hmem := hs.mem_iff.2 ⟨hlt, hhead, hsize⟩
    refine ⟨hmem, fun hbF => href (hc.zero _ hlt fun d hd he => ?_)⟩
    exact hd.2 (hs.tiling.eq_of_start_eq hd.1 hmem he ▸ hbF)
  · intro hb
    obtain ⟨hlt, hhead, hsize⟩ := hs.mem_iff.1 hb.1
    exact ⟨hlt, hhead, hsize, (hc.pos b hb).ne'⟩

theorem wellFormed_iff_owns :
    s.WellFormed ↔ ∃ N, Owns s roots s.allocatedBlocks N ∧ Counted s s.allocatedBlocks := by
  constructor
  · rintro ⟨T, F, L, hinv, hL, hc⟩
    have hA := hinv.allocatedBlocks_eq hc
    exact ⟨L, ⟨T, F, L, hinv, hL, hA.symm, fun _ _ => rfl⟩, hA ▸ hc⟩
  · rintro ⟨_, ⟨T, F, L, hinv, hL, hA, _⟩, hc⟩
    exact ⟨T, F, L, hinv, hL, hA ▸ hc⟩

theorem Owns.allocatedBlocks_eq (hs : Owns s R A N) (hc : Counted s A) : s.allocatedBlocks = A := by
  obtain ⟨T, F, L, hinv, _, rfl, _⟩ := hs
  exact hinv.allocatedBlocks_eq hc

theorem wellFormed_of_owns (hs : Owns s roots A N) (hc : Counted s A) : s.WellFormed := by
  obtain ⟨T, F, L, hinv, hL, rfl, _⟩ := hs
  exact ⟨T, F, L, hinv, hL, hc⟩

theorem Owns.exists_free {i : Nat}
    (hs : Owns s R A N) (hcounted : Counted s A) (hi : i < s.pageCnt) (hout : ∀ c ∈ A, i ∉ c) :
    ∃ c ∈ s.freeBlocks, i ∈ c := by
  obtain ⟨T, F, L, hinv, _, rfl, _⟩ := hs
  obtain ⟨c, hc, hic⟩ := hinv.tiling.cover i hi
  have hcF : c ∈ F := by
    by_contra hcF
    exact hout c ⟨hc, hcF⟩ hic
  refine ⟨c, (hinv.mem_freeBlocks hcounted.pos).2 ⟨hcF, ?_⟩, hic⟩
  refine hcounted.zero _ (hinv.start_lt hc) fun d hd he => ?_
  exact hd.2 (hinv.tiling.eq_of_start_eq hd.1 hc he ▸ hcF)

def freePages (s : BuddyAllocator) : Set Nat := {i | ∃ b ∈ s.freeBlocks, i ∈ b}

theorem Owns.freePages_eq (hs : Owns s R A N)
    (hc : Counted s A) : s.freePages = {i | i < s.pageCnt ∧ ∀ c ∈ A, i ∉ c} := by
  ext i
  constructor
  · rintro ⟨b, hb, hi⟩
    obtain ⟨T, F, L, hinv, _, rfl, _⟩ := hs
    obtain ⟨hbF, _⟩ := (hinv.mem_freeBlocks hc.pos).1 hb
    have hbT := hinv.free_subset hbF
    refine ⟨hinv.tiling.lt_of_mem b hbT i hi, fun c hcA hic => hcA.2 ?_⟩
    exact hinv.tiling.eq_of_mem c hcA.1 b hbT i hic hi ▸ hbF
  · rintro ⟨hi, hout⟩
    exact hs.exists_free hc hi hout

/-- The states a caller can reach, with the blocks that are live there. -/
inductive Run (s0 : BuddyAllocator) : BuddyAllocator → Set Block → Prop
  | start : Run s0 s0 s0.allocatedBlocks
  | alloc {s s' : BuddyAllocator} {A : Set Block} {n p : Nat} (hrun : Run s0 s A)
      (hmin : 4096 ≤ fixSize n) (hmax : fixSize n ≤ 4 * 0x100000)
      (halloc : s._allocPage n = .ok (p, s')) : Run s0 s' (insert ⟨p, Nat.log2 (fixSize n >>> 12)⟩ A)
  | free {s s' : BuddyAllocator} {A : Set Block} {b : Block} (hrun : Run s0 s A) (hb : b ∈ A)
      (href : (s.pages b.start).refCnt = 1) (hfree : s._freePage b.start = .ok s') :
      Run s0 s' (A \ {b})

/-- Nobody holds the allocator's lock or the write lock of an allocated block. -/
def Unlocked (s : BuddyAllocator) : Prop :=
  s.lock = false ∧ ∀ b ∈ s.allocatedBlocks, (s.pages b.start).rwlock.writelock = false

theorem fixSize_log2 (hmin : 4096 ≤ fixSize n) (hmax : fixSize n ≤ 4 * 0x100000) :
    Nat.log2 (fixSize n >>> 12) ≤ maxOrder ∧
      fixSize n = orderSize (Nat.log2 (fixSize n >>> 12)) := by
  obtain ⟨k, hk, he⟩ := fixSize_eq_orderSize hmin hmax
  rw [he, orderSize_shiftRight, Nat.log2_two_pow]
  exact ⟨hk, rfl⟩

/-- A call of `__alloc_page` in a well-formed state: whatever it ends with, only a held lock and the
out-of-memory assertion keep it from returning. -/
theorem _allocPage_outcome (hs : Owns s roots A N)
    (hmin : 4096 ≤ fixSize n) (hmax : fixSize n ≤ 4 * 0x100000) :
    (s.lock = true ∧ s._allocPage n = .error .spin) ∨
      (s._allocPage n = .error .outOfMemory ∧
        ∀ i, Nat.log2 (fixSize n >>> 12) ≤ i → i ≤ maxOrder →
          listEmpty s.links (.root i) = true) ∨
      ∃ p s', s._allocPage n = .ok (p, s') ∧
        Owns s' roots (insert ⟨p, Nat.log2 (fixSize n >>> 12)⟩ A) N ∧
        AllocFrame s s' A ⟨p, Nat.log2 (fixSize n >>> 12)⟩ := by
  obtain ⟨hk, he⟩ := fixSize_log2 hmin hmax
  cases hlock : s.lock with
  | true =>
    left
    refine ⟨rfl, ?_⟩
    rw [_allocPage_eq hk he, hlock, if_pos rfl]
  | false => exact Or.inr (_allocPage_spec hs hlock hk he)

theorem releaseBlock_spin {page k : Nat} (hsize : (s.pages page).size = orderSize k)
    (hord : k ≤ maxOrder) (hlock : s.lock = true) : s.releaseBlock page = .error .spin := by
  rw [releaseBlock, hsize, orderSize_shiftRight, log2_two_pow (by unfold maxOrder at hord; omega)]
  simp only [ok_bind, modifyPage_lock, hlock, spinlockLock, if_true, error_bind]

/-- A call of `__free_page` for the last reference of an allocated block: only a held lock keeps it
from returning. -/
theorem _freePage_outcome (hs : Owns s R A N)
    (hc : Counted s A) (hb : b ∈ A) (hlist : ∀ a ∈ R, a ∉ roots → .page b.start ∉ N a)
    (href : (s.pages b.start).refCnt = 1) :
    ((s.lock = true ∨ (s.pages b.start).rwlock.writelock = true) ∧
        s._freePage b.start = .error .spin) ∨
      s.lock = false ∧ (s.pages b.start).rwlock.writelock = false ∧
        ∃ s', s._freePage b.start = .ok s' ∧ Owns s' R (A \ {b}) N ∧ FreeFrame s s' A b ∧
          ((s'.pages b.start).rwlock.writelock = true ↔ MergesDown s.freeBlocks b) := by
  have hpos : 0 < (s.pages b.start).refCnt := by omega
  cases hwl : (s.pages b.start).rwlock.writelock with
  | true =>
    left
    refine ⟨Or.inr rfl, ?_⟩
    rw [_freePage_eq hpos (hs.head hb), hwl, if_pos rfl]
  | false =>
    cases hlock : s.lock with
    | true =>
      left
      refine ⟨Or.inl rfl, ?_⟩
      rw [_freePage_eq hpos (hs.head hb), hwl, if_neg Bool.false_ne_true, if_neg (by omega)]
      apply releaseBlock_spin (k := b.order)
      · rw [modifyPage_pages, if_pos rfl]
        exact hs.size hb
      · exact hs.order_le hb
      · rw [modifyPage_lock, hlock]
    | false =>
      refine Or.inr ⟨rfl, rfl, ?_⟩
      exact _freePage_spec hs hc.pos hb hlist hlock hwl href

theorem Unlocked.alloc {p k : Nat} {N' : PageNode → List PageNode} (hu : s.Unlocked)
    (hs : Owns s roots A N) (hc : Counted s A) (hs' : Owns s' roots (insert ⟨p, k⟩ A) N')
    (hframe : AllocFrame s s' A ⟨p, k⟩) : s'.Unlocked := by
  obtain ⟨_, hwl⟩ := hu
  refine ⟨hframe.lock, ?_⟩
  rw [hs'.allocatedBlocks_eq (hc.alloc hframe)]
  rintro c (rfl | hcA)
  · rw [hframe.rwlock]
    rfl
  · rw [hframe.pages c hcA _ c.start_mem]
    exact hwl c (hs.allocatedBlocks_eq hc ▸ hcA)

theorem Unlocked.free {N' : PageNode → List PageNode} (hu : s.Unlocked) (hs : Owns s roots A N)
    (hc : Counted s A) (hs' : Owns s' roots (A \ {b}) N') (hframe : FreeFrame s s' A b) :
    s'.Unlocked := by
  obtain ⟨_, hwl⟩ := hu
  refine ⟨hframe.lock, ?_⟩
  rw [hs'.allocatedBlocks_eq (hc.free hframe)]
  rintro c ⟨hcA, hne⟩
  rw [hframe.pages c hcA hne _ c.start_mem]
  exact hwl c (hs.allocatedBlocks_eq hc ▸ hcA)

theorem Run.owns (hwf : s0.WellFormed) (hrun : Run s0 s A) :
    (∃ N, Owns s roots A N ∧ Counted s A) ∧ (s0.Unlocked → s.Unlocked) := by
  induction hrun with
  | start => exact ⟨wellFormed_iff_owns.1 hwf, id⟩
  | alloc _ hmin hmax halloc ih =>
    obtain ⟨⟨N, hs, hc⟩, hu⟩ := ih
    obtain ⟨_, herr⟩ | ⟨herr, _⟩ | ⟨p, s', hok, hs', hframe⟩ := _allocPage_outcome hs hmin hmax
    · rw [halloc] at herr
      cases herr
    · rw [halloc] at herr
      cases herr
    · rw [halloc] at hok
      cases hok
      exact ⟨⟨N, hs', hc.alloc hframe⟩, fun h => (hu h).alloc hs hc hs' hframe⟩
  | free _ hb href hfree ih =>
    obtain ⟨⟨N, hs, hc⟩, hu⟩ := ih
    obtain ⟨_, herr⟩ | ⟨_, _, s', hok, hs', hframe, _⟩ := _freePage_outcome hs hc hb
      (fun a ha hroot => absurd ha hroot) href
    · rw [hfree] at herr
      cases herr
    · rw [hfree] at hok
      cases hok
      exact ⟨⟨N, hs', hc.free hframe⟩, fun h => (hu h).free hs hc hs' hframe⟩

/-- Every state of a run is well-formed and no page is in two live blocks. In every such state a call
of `__alloc_page` returns a block of the size asked for that was free, or runs out of memory, and a
call of `__free_page` returns; a call can wait for a lock only if a lock was held when the run
began. -/
theorem run_wellFormed (hwf : s0.WellFormed) (hrun : Run s0 s A) :
    s.WellFormed ∧ A = s.allocatedBlocks ∧
      (∀ b ∈ A, ∀ c ∈ A, ∀ i, i ∈ b → i ∈ c → b = c) ∧
      (∀ n, 4096 ≤ fixSize n → fixSize n ≤ 4 * 0x100000 →
        (s.lock = true ∧ s._allocPage n = .error .spin) ∨
          (s._allocPage n = .error .outOfMemory ∧
            ∀ i, Nat.log2 (fixSize n >>> 12) ≤ i → i ≤ maxOrder →
              listEmpty s.links (.root i) = true) ∨
          ∃ p s', s._allocPage n = .ok (p, s') ∧ s'.WellFormed ∧
            orderSize (Nat.log2 (fixSize n >>> 12)) = fixSize n ∧
            ∀ i ∈ (⟨p, Nat.log2 (fixSize n >>> 12)⟩ : Block), ∃ c ∈ s.freeBlocks, i ∈ c) ∧
      (∀ b ∈ A, (s.pages b.start).refCnt = 1 →
        ((s.lock = true ∨ (s.pages b.start).rwlock.writelock = true) ∧
            s._freePage b.start = .error .spin) ∨
          ∃ s', s._freePage b.start = .ok s' ∧ s'.WellFormed) ∧
      (s0.Unlocked → s.Unlocked) := by
  obtain ⟨⟨N, hs, hc⟩, hu⟩ := hrun.owns hwf
  refine ⟨wellFormed_of_owns hs hc, (hs.allocatedBlocks_eq hc).symm,
    fun b hb c hc i hib hic => hs.eq_of_mem hb hc hib hic, ?_, ?_, hu⟩
  · intro n hmin hmax
    obtain hspin | hoom | ⟨p, s', hok, hs', hframe⟩ := _allocPage_outcome hs hmin hmax
    · exact Or.inl hspin
    · exact Or.inr (Or.inl hoom)
    · refine Or.inr (Or.inr ⟨p, s', hok, ?_, (fixSize_log2 hmin hmax).2.symm, ?_⟩)
      · exact wellFormed_of_owns hs' (hc.alloc hframe)
      · intro i hi
        exact hs.exists_free hc (hframe.managed i hi) fun c hc => hframe.fresh c hc i hi
  · intro b hb href
    obtain hspin | ⟨_, _, s', hok, hs', hframe, _⟩ := _freePage_outcome hs hc hb
        (fun a ha hroot => absurd ha hroot) href
    · exact Or.inl hspin
    · exact Or.inr ⟨s', hok, wellFormed_of_owns hs' (hc.free hframe)⟩

/-- One block of `2 ^ k` pages, which is free when nobody refers to it. Without references it is what
`pmm_init` leaves behind for one region. -/
def oneBlock (k refCnt : Nat) : BuddyAllocator where
  links := if refCnt = 0 then listAddPrev ⟨id, id⟩ (.page 0) (.root k) else ⟨id, id⟩
  pages := fun i =>
    { size := if i = 0 then orderSize k else 0
      flag := if i = 0 then pgPage ||| pgHead else pgPage
      refCnt := if i = 0 then refCnt else 0
      data := 0
      magic := pageMagic
      rwlock := rwlockInit }
  lock := spinlockInit
  addr := 0x100000
  size := if refCnt = 0 then orderSize k else 0
  pageCnt := 2 ^ k

theorem tiling_whole {k : Nat} (hk : k ≤ maxOrder) : Tiling (2 ^ k) maxOrder {⟨0, k⟩} where
  aligned := by
    rintro b rfl
    exact dvd_zero _
  order_le := by
    rintro b rfl
    exact hk
  lt_of_mem := by
    rintro b rfl i hi
    exact hi.2.trans_eq (Nat.zero_add _)
  cover i hi := ⟨⟨0, k⟩, rfl, Nat.zero_le i, hi.trans_eq (Nat.zero_add _).symm⟩
  eq_of_mem := by
    rintro b rfl c rfl i _ _
    rfl

theorem lists_nil (R : Set PageNode) : Lists (⟨id, id⟩ : Links PageNode) R fun _ => [] := by
  refine ⟨fun a _ => ⟨⟨rfl, rfl⟩, List.nodup_singleton a⟩, ?_⟩
  intro a _ b _ hne x hx
  rw [List.mem_singleton] at hx ⊢
  exact hx ▸ hne

theorem oneBlock_head (k refCnt i : Nat) : pageHead ((oneBlock k refCnt).pages i) = true ↔
    ∃ b ∈ ({⟨0, k⟩} : Set Block), b.start = i := by
  by_cases hi : i = 0
  · subst hi
    exact iff_of_true (pageHead_or (f := pgPage) rfl) ⟨⟨0, k⟩, rfl, rfl⟩
  · refine iff_of_false ?_ ?_
    · simp [oneBlock, pageHead, hi, pgPage, pgHead]
    · rintro ⟨b, rfl, rfl⟩
      exact hi rfl

theorem oneBlock_owns {k : Nat} (refCnt : Nat) (hR : Heads R) (hk : k ≤ maxOrder) :
    Owns (oneBlock k refCnt) R (if refCnt = 0 then ∅ else {⟨0, k⟩}) (fun _ => []) ∧
      Counted (oneBlock k refCnt) (if refCnt = 0 then ∅ else {⟨0, k⟩}) := by
  have hinv : ∀ F ⊆ {⟨0, k⟩}, ∀ L, Lists (oneBlock k refCnt).links R L →
      (∀ a ∉ roots, L a = []) → Inv (oneBlock k refCnt) R {⟨0, k⟩} F ∅ L := by
    refine fun F hF L hL hother => ⟨hR, tiling_whole hk, hF, Set.empty_subset _,
      fun b hb => absurd hb (Set.notMem_empty b), fun i _ => oneBlock_head k refCnt i, ?_, hL, ?_⟩
    · rintro b rfl _
      rfl
    · intro a _ hroot i hi
      rw [hother a hroot] at hi
      exact absurd hi List.not_mem_nil
  by_cases h : refCnt = 0
  · subst h
    have hlists : Lists (oneBlock k 0).links R (update (fun _ => []) (.root k) [.page 0]) := by
      refine (lists_nil R).addPrev (x := .page 0) (hR.roots_subset (root_mem_roots hk)) ?_
      intro a ha hx
      exact hR.page_notMem 0 (List.mem_singleton.1 hx ▸ ha)
    have hother : ∀ a ∉ roots, update (fun _ => ([] : List PageNode)) (.root k) [.page 0] a = [] := by
      intro a ha
      rw [update_of_ne]
      rintro rfl
      exact ha (root_mem_roots hk)
    refine ⟨⟨_, _, _, hinv _ subset_rfl _ hlists hother, ?_, Set.sdiff_self, hother⟩,
      fun b hb => absurd hb (Set.notMem_empty b), fun _ _ _ => ite_self 0⟩
    intro j _ x
    by_cases hj : j = k
    · subst hj
      rw [update_self, List.mem_singleton]
      constructor
      · rintro rfl
        exact ⟨0, rfl, rfl⟩
      · rintro ⟨i, rfl, hi⟩
        cases hi
        rfl
    · rw [update_of_ne fun h => hj (PageNode.root.inj h)]
      refine iff_of_false List.not_mem_nil ?_
      rintro ⟨i, _, hi⟩
      cases hi
      exact hj rfl
  · have hlists : Lists (oneBlock k refCnt).links R fun _ => [] := by
      rw [show (oneBlock k refCnt).links = ⟨id, id⟩ from if_neg h]
      exact lists_nil R
    rw [if_neg h]
    refine ⟨⟨_, ∅, _, hinv _ (Set.empty_subset _) _ hlists fun _ _ => rfl, ?_, Set.sdiff_empty,
      fun _ _ => rfl⟩, ?_, ?_⟩
    · intro j _ x
      refine iff_of_false List.not_mem_nil ?_
      rintro ⟨i, _, hi⟩
      exact hi
    · rintro b rfl
      exact Nat.pos_of_ne_zero h
    · intro i _ hno
      exact if_neg fun hi => hno ⟨0, k⟩ rfl hi.symm

theorem oneBlock_wellFormed {k : Nat} (refCnt : Nat) (hk : k ≤ maxOrder) :
    (oneBlock k refCnt).WellFormed :=
  wellFormed_of_owns (oneBlock_owns refCnt heads_roots hk).1 (oneBlock_owns refCnt heads_roots hk).2

theorem oneBlock_allocated {k refCnt : Nat} (h : refCnt ≠ 0) :
    ⟨0, k⟩ ∈ (oneBlock k refCnt).allocatedBlocks :=
  ⟨Nat.two_pow_pos k, pageHead_or (f := pgPage) rfl, rfl, h⟩

/-- A block of two pages: `__alloc_page` cuts it in two, and `__free_page` joins the halves again. -/
theorem run_wellFormed_oneBlock : ∃ s s', (oneBlock 1 0).WellFormed ∧
    Run (oneBlock 1 0) s (insert ⟨0, 0⟩ (oneBlock 1 0).allocatedBlocks) ∧
    listEmpty s.links (.root 0) = false ∧ listEmpty s.links (.root 1) = true ∧ s.WellFormed ∧
    Run (oneBlock 1 0) s' (insert ⟨0, 0⟩ (oneBlock 1 0).allocatedBlocks \ {⟨0, 0⟩}) ∧
    listEmpty s'.links (.root 0) = true ∧ listEmpty s'.links (.root 1) = false ∧ s'.WellFormed := by
  have hwf : (oneBlock 1 0).WellFormed := oneBlock_wellFormed 0 (by decide)
  have hrun : Run (oneBlock 1 0) _ (insert ⟨0, Nat.log2 (fixSize 4096 >>> 12)⟩ _) :=
    .alloc (n := 4096) (p := 0) .start (by decide) (by decide) rfl
  have hrun' : Run (oneBlock 1 0) _ _ := .free hrun (Set.mem_insert _ _) rfl rfl
  exact ⟨_, _, hwf, hrun, rfl, rfl, (run_wellFormed hwf hrun).1, hrun', rfl, rfl,
    (run_wellFormed hwf hrun').1⟩

/-- `n` calls of `__free_page` one after the other give the block back: they all return and release
the write lock of the page, the last one frees the block and the others drop one reference each. -/
def GivesBack (s : BuddyAllocator) (b : Block) (n : Nat) : Prop :=
  ∃ st : Nat → BuddyAllocator, st 0 = s ∧ ∀ m < n,
    (st m)._freePage b.start = .ok (st (m + 1)) ∧
    ((st (m + 1)).pages b.start).rwlock.writelock = false ∧
    (m + 1 < n → b ∈ (st (m + 1)).allocatedBlocks ∧
      ((st (m + 1)).pages b.start).refCnt = n - (m + 1)) ∧
    (m + 1 = n → b ∉ (st n).allocatedBlocks ∧ ∀ i ∈ b, ∃ c ∈ (st n).freeBlocks, i ∈ c)

theorem not_givesBack_of_shared (hpos : 0 < n) (href : 1 < (s.pages b.start).refCnt)
    (hhead : pageHead (s.pages b.start) = true) : ¬ s.GivesBack b n := by
  rintro ⟨st, hst, hcalls⟩
  obtain ⟨hcall, hreleased, _⟩ := hcalls 0 hpos
  rw [hst, _freePage_eq (by omega) hhead, if_pos href] at hcall
  cases hwl : (s.pages b.start).rwlock.writelock with
  | true =>
    rw [hwl, if_pos rfl] at hcall
    cases hcall
  | false =>
    rw [hwl, if_neg Bool.false_ne_true] at hcall
    rw [← Except.ok.inj hcall, modifyPage_pages, if_pos rfl] at hreleased
    cases hreleased

/-- A block with `n` references is given back by `n` calls exactly when it has one reference, the
locks are free and the block is not joined to a free buddy that lies before it. -/
theorem givesBack_iff {n : Nat} (hwf : s.WellFormed) (hb : b ∈ s.allocatedBlocks)
    (href : (s.pages b.start).refCnt = n) :
    s.GivesBack b n ↔ n = 1 ∧ s.lock = false ∧
      (s.pages b.start).rwlock.writelock = false ∧ ¬ MergesDown s.freeBlocks b := by
  obtain ⟨N, hs, hc⟩ := wellFormed_iff_owns.1 hwf
  have hpos : 0 < n := href ▸ hc.pos b hb
  constructor
  · intro hgives
    have hone : n = 1 := by
      by_contra hne
      exact not_givesBack_of_shared hpos (by omega) (hs.head hb) hgives
    subst hone
    obtain ⟨st, hst, hcalls⟩ := hgives
    obtain ⟨hcall, hreleased, _⟩ := hcalls 0 Nat.one_pos
    rw [hst] at hcall
    obtain ⟨_, hspin⟩ | ⟨hlock, hwl, s', hok, _, _, hlk⟩ := _freePage_outcome hs hc hb
        (fun a ha hroot => absurd ha hroot) href
    · rw [hspin] at hcall
      cases hcall
    · rw [hok] at hcall
      refine ⟨rfl, hlock, hwl, fun hdown => ?_⟩
      rw [← Except.ok.inj hcall, hlk.2 hdown] at hreleased
      cases hreleased
  · rintro ⟨rfl, hlock, hwl, hdown⟩
    obtain ⟨hheld, _⟩ | ⟨_, _, s', hok, hs', hframe, hlk⟩ := _freePage_outcome hs hc hb
        (fun a ha hroot => absurd ha hroot) href
    · simp [hlock, hwl] at hheld
    refine ⟨fun m => if m = 0 then s else s', rfl, ?_⟩
    intro m hm
    obtain rfl : m = 0 := by omega
    refine ⟨hok, ?_, fun h => absurd h (Nat.lt_irrefl 1), fun _ => ⟨?_, ?_⟩⟩
    · rw [← Bool.not_eq_true]
      exact fun h => hdown (hlk.1 h)
    · intro hmem
      have hmem' : b ∈ s'.allocatedBlocks := hmem
      rw [hs'.allocatedBlocks_eq (hc.free hframe)] at hmem'
      exact hmem'.2 rfl
    · intro i hi
      have hlt : i < s'.pageCnt := hframe.pageCnt ▸ hs.lt_of_mem hb hi
      refine hs'.exists_free (hc.free hframe) hlt fun c hcA hic => ?_
      exact hcA.2 (hs.eq_of_mem hcA.1 hb hic hi)

theorem oneBlock_givesBack : (oneBlock 0 1).GivesBack ⟨0, 0⟩ 1 := by
  refine (givesBack_iff (oneBlock_wellFormed 1 (Nat.zero_le _)) (oneBlock_allocated Nat.one_ne_zero) rfl).2
    ⟨rfl, rfl, rfl, ?_⟩
  have hnone : ∀ c : Block, c.start = 1 → c ∉ (oneBlock 0 1).freeBlocks := by
    rintro c hc ⟨hlt, _⟩
    exact absurd hlt (by rw [hc]; exact Nat.lt_irrefl 1)
  rintro (⟨_, hmem, _⟩ | ⟨_, hmem, _⟩) <;> exact hnone _ rfl hmem

/-- Two references, as after a fork: the second call waits for the lock the first one kept. -/
theorem oneBlock_shared_not_givesBack :
    (oneBlock 0 2).WellFormed ∧ ⟨0, 0⟩ ∈ (oneBlock 0 2).allocatedBlocks ∧ (oneBlock 0 2).Unlocked ∧
      ((oneBlock 0 2).pages 0).refCnt = 2 ∧ ¬ (oneBlock 0 2).GivesBack ⟨0, 0⟩ 2 ∧
      ((oneBlock 0 2)._freePage 0 >>= fun s => s._freePage 0) = .error .spin := by
  refine ⟨oneBlock_wellFormed 2 (Nat.zero_le _), oneBlock_allocated (by decide), ⟨rfl, fun _ _ => rfl⟩, rfl,
    ?_, rfl⟩
  exact not_givesBack_of_shared Nat.two_pos Nat.one_lt_two (pageHead_or (f := pgPage) rfl)

end BuddyAllocator

end QuarkOS
