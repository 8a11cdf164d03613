import QuarkOS.Mm.Buddy

/-!
# What `__alloc_page` and `__free_page` do to the tiling

The clients of the allocator see the set `A` of allocated blocks, and the lists `N` that they link
allocated pages into (`Owns`). `_allocPage_spec` and `_freePage_spec` say what the two operations do
to `A`; the tiling itself stays behind `Owns`.
-/

namespace QuarkOS

open CList Dyadic Function

namespace BuddyAllocator

variable {s s' : BuddyAllocator} {R : Set PageNode} {T F H A : Set Block}
  {L N : PageNode → List PageNode} {b : Block}

variable {k j i p n : Nat} {a : PageNode}

theorem update_root_other {l : List PageNode} (hk : k ≤ maxOrder)
    (ha : a ∉ roots) : update L (.root k) l a = L a := by
  apply update_of_ne
  rintro rfl
  exact ha (root_mem_roots hk)

theorem Holds.setList {G : Set Block} {l : List PageNode} (hL : Holds L F)
    (hsame : ∀ i k, k ≠ j → ((⟨i, k⟩ : Block) ∈ G ↔ ⟨i, k⟩ ∈ F))
    (hl : j ≤ maxOrder → ∀ x, x ∈ l ↔ ∃ i, x = .page i ∧ ⟨i, j⟩ ∈ G) :
    Holds (update L (.root j) l) G := by
  intro k hk x
  by_cases hkj : k = j
  · subst hkj
    rw [update_self]
    exact hl hk x
  · rw [update_of_ne fun he => hkj (PageNode.root.inj he), hL k hk x]
    exact exists_congr fun i => and_congr_right fun _ => (hsame i k hkj).symm

theorem Holds.add (hL : Holds L F) : Holds (update L (.root b.order) (L (.root b.order) ++ [.page b.start]))
      (insert b F) := by
  refine hL.setList (fun i k hk => or_iff_right fun he => hk (congrArg Block.order he)) fun hk x => ?_
  rw [List.mem_append, hL _ hk x, List.mem_singleton]
  constructor
  · rintro (⟨i, rfl, hi⟩ | rfl)
    · exact ⟨i, rfl, Or.inr hi⟩
    · exact ⟨b.start, rfl, Or.inl rfl⟩
  · rintro ⟨i, rfl, he | hi⟩
    · exact Or.inr (congrArg (PageNode.page ∘ Block.start) he)
    · exact Or.inl ⟨i, rfl, hi⟩

theorem Holds.del (hL : Holds L F) (hnodup : (L (.root b.order)).Nodup) :
    Holds (update L (.root b.order) ((L (.root b.order)).erase (.page b.start)))
      (F \ {b}) := by
  refine hL.setList (fun i k hk => and_iff_left fun he => hk (congrArg Block.order he)) fun hk x => ?_
  rw [hnodup.mem_erase_iff, hL _ hk x]
  constructor
  · rintro ⟨hne, i, rfl, hi⟩
    exact ⟨i, rfl, hi, fun he => hne (congrArg (PageNode.page ∘ Block.start) he)⟩
  · rintro ⟨i, rfl, hi, hne⟩
    refine ⟨?_, i, rfl, hi⟩
    rintro ⟨⟩
    exact hne rfl

theorem Holds.mem_root (hL : Holds L F) (hs : Inv s R T F H L) (hb : b ∈ F) :
    .page b.start ∈ L (.root b.order) :=
  (hL _ (hs.tiling.order_le b (hs.free_subset hb)) _).2 ⟨_, rfl, hb⟩

theorem Inv.hand_notMem (hs : Inv s R T F {b} L) (hL : Holds L F) :
    ∀ a ∈ R, PageNode.page b.start ∉ a :: L a := by
  refine hs.notMem_lists hL (hs.notMem_of_start rfl) ?_
  intro a ha hroot hmem
  obtain ⟨c, hc, _, hcb, hstart⟩ := hs.other a ha hroot _ hmem
  exact hcb (hs.tiling.eq_of_start_eq hc (hs.hand_subset rfl) hstart)

/-- Cutting and joining blocks leave the pages of the blocks `A` alone and change nothing but the sizes
and the head flags of the other pages. -/
structure Quiet (s s' : BuddyAllocator) (A : Set Block) : Prop where
  lock : s'.lock = s.lock
  addr : s'.addr = s.addr
  pageCnt : s'.pageCnt = s.pageCnt
  refCnt : ∀ i, (s'.pages i).refCnt = (s.pages i).refCnt
  data : ∀ i, (s'.pages i).data = (s.pages i).data
  magic : ∀ i, (s'.pages i).magic = (s.pages i).magic
  rwlock : ∀ i, (s'.pages i).rwlock = (s.pages i).rwlock
  flag : ∀ i, (s'.pages i).flag &&& clientFlags = (s.pages i).flag &&& clientFlags
  pages : ∀ c ∈ A, ∀ i ∈ c, s'.pages i = s.pages i

theorem setLinks_quiet (s : BuddyAllocator) (links : Links PageNode) (A : Set Block) :
    Quiet s (s.setLinks links) A :=
  ⟨rfl, rfl, rfl, fun _ => rfl, fun _ => rfl, fun _ => rfl, fun _ => rfl, fun _ => rfl, fun _ _ _ _ => rfl⟩

theorem Quiet.rfl (s : BuddyAllocator) (A : Set Block) : Quiet s s A := setLinks_quiet s s.links A

theorem Quiet.trans {s1 s2 : BuddyAllocator} (h1 : Quiet s s1 A) (h2 : Quiet s1 s2 A) : Quiet s s2 A where
  lock := h2.lock.trans h1.lock
  addr := h2.addr.trans h1.addr
  pageCnt := h2.pageCnt.trans h1.pageCnt
  refCnt i := (h2.refCnt i).trans (h1.refCnt i)
  data i := (h2.data i).trans (h1.data i)
  magic i := (h2.magic i).trans (h1.magic i)
  rwlock i := (h2.rwlock i).trans (h1.rwlock i)
  flag i := (h2.flag i).trans (h1.flag i)
  pages c hc i hi := (h2.pages c hc i hi).trans (h1.pages c hc i hi)

theorem addHalf_of_ne {new : Nat} (hne : i ≠ new) : (s.addHalf new j).pages i = s.pages i := by
  rw [addHalf, setLinks_pages, modifyPage_pages, if_neg hne]

theorem addHalf_self (s : BuddyAllocator) (new j : Nat) : (s.addHalf new j).pages new =
    { s.pages new with size := orderSize j, flag := (s.pages new).flag ||| pgHead } := by
  rw [addHalf, setLinks_pages, modifyPage_pages, if_pos rfl]

theorem modifyPage_quiet {f : Page → Page} (hA : ∀ c ∈ A, i ∉ c) (hf : ∀ page, ∃ size flag,
      f page = { page with size, flag } ∧ flag &&& clientFlags = page.flag &&& clientFlags) :
    Quiet s (s.modifyPage i f) A := by
  have hother : ∀ j, j ≠ i → (s.modifyPage i f).pages j = s.pages j := fun j hj => if_neg hj
  obtain ⟨size, flag, he, hflag⟩ := hf (s.pages i)
  have hself : (s.modifyPage i f).pages i = { s.pages i with size, flag } := (if_pos rfl).trans he
  refine ⟨rfl, rfl, rfl, proj_of_ne (·.refCnt) hother hself rfl,
    proj_of_ne (·.data) hother hself rfl,
    proj_of_ne (·.magic) hother hself rfl,
    proj_of_ne (·.rwlock) hother hself rfl,
    proj_of_ne (·.flag &&& clientFlags) hother hself hflag, ?_⟩
  intro c hc j hj
  refine hother j ?_
  rintro rfl
  exact hA c hc hj

theorem addHalf_quiet {new : Nat} (hA : ∀ c ∈ A, new ∉ c) : Quiet s (s.addHalf new j) A :=
  (modifyPage_quiet hA fun _ => ⟨_, _, rfl, or_and_clientFlags _ (by decide)⟩).trans (setLinks_quiet _ _ A)

/-- No block starts in the middle of the one in hand. -/
theorem Inv.middle_ne (hs : Inv s R T F {⟨p, j + 1⟩} L) {c : Block} (hc : c ∈ T) : c.start ≠ p + 2 ^ j := by
  intro he
  have hpos := Nat.two_pow_pos j
  have hmem : c.start ∈ (⟨p, j + 1⟩ : Block) := by
    rw [he, Block.mem_def, pow_succ]
    simp only
    omega
  have hcp := hs.tiling.eq_of_mem c hc _ (hs.hand_subset rfl) _ c.start_mem hmem
  rw [hcp] at he
  simp only at he
  omega

theorem splitBlock_succ (hs : Inv s R T F {⟨p, j + 1⟩} L) (hkj : k ≤ j) :
    splitBlock p k s (j + 1) = splitBlock p k (s.addHalf (p + 2 ^ j) j) j := by
  have hlt : p + 2 ^ j < s.pageCnt := by
    refine hs.tiling.lt_of_mem _ (hs.hand_subset rfl) _ ?_
    rw [Block.mem_def, pow_succ]
    have hpos := Nat.two_pow_pos j
    simp only
    omega
  have htail : pageHead (s.pages (p + 2 ^ j)) = false := by
    rw [Bool.eq_false_iff]
    intro hhead
    obtain ⟨c, hc, hstart⟩ := (hs.head_iff _ hlt).1 hhead
    exact hs.middle_ne hc hstart
  rw [splitBlock, if_pos hkj, orderCnt_eq, htail]
  rfl

theorem splitBlock_self (p k : Nat) (s : BuddyAllocator) : splitBlock p k s k = .ok s := by
  cases k with
  | zero => rfl
  | succ j => rw [splitBlock, if_neg (Nat.not_succ_le_self j)]

/-- The loop ends with the block in hand cut down to order `k`. The block is still linked in the
list it was found in, that of order `i`. -/
theorem splitBlock_spec (hi : i ≤ maxOrder) (j : Nat) :
    ∀ {s : BuddyAllocator} {T F : Set Block} {L : PageNode → List PageNode},
      Inv s R T F {⟨p, j⟩} L → Holds L (insert ⟨p, i⟩ F) → k ≤ j → j ≤ i →
      ∃ s' T1 F1 L', splitBlock p k s j = .ok s' ∧ Inv s' R T1 F1 {⟨p, k⟩} L' ∧
        Holds L' (insert ⟨p, i⟩ F1) ∧ (T1 \ F1) \ {⟨p, k⟩} = (T \ F) \ {⟨p, j⟩} ∧
        (∀ a ∉ roots, L' a = L a) ∧ Quiet s s' ((T \ F) \ {⟨p, j⟩}) ∧ s'.pages p = s.pages p ∧
        (Coalesced maxOrder F → Coalesced maxOrder F1) := by
  induction j with
  | zero =>
    intro s T F L hs hL hk _
    obtain rfl : k = 0 := Nat.le_zero.1 hk
    exact ⟨s, T, F, L, rfl, hs, hL, rfl, fun _ _ => rfl, Quiet.rfl s _, rfl, id⟩
  | succ j ih =>
    intro s T F L hs hL hk hji
    by_cases hkj : k ≤ j
    · have hstep := splitBlock_succ hs hkj
      obtain ⟨halign, hbuddy, hparent⟩ :=
        Block.lower_half (hs.tiling.aligned _ (hs.hand_subset rfl))
      have hnew : (⟨p, j⟩ : Block).buddy.start = p + 2 ^ j := by rw [hbuddy]
      have hpos := Nat.two_pow_pos j
      have hjmax : j ≤ maxOrder := by omega
      have hs' := hs
      rw [← hparent] at hs'
      have hnot : ∀ a ∈ R, PageNode.page (p + 2 ^ j) ∉ a :: L a := by
        refine hs.notMem_lists hL ?_ ?_
        · rintro k' (he | hmem)
          · have := congrArg Block.start he
            simp only at this
            omega
          · exact hs.middle_ne (hs.free_subset hmem) rfl
        · intro a ha hroot hmem
          obtain ⟨c, hc, _, _, hstart⟩ := hs.other a ha hroot _ hmem
          exact hs.middle_ne hc hstart
      have hlists := hs.lists.addPrev (hs.heads.roots_subset (root_mem_roots hjmax)) hnot
      have hother := fun (a : PageNode) (ha : a ∉ roots) =>
        update_root_other (L := L) (l := L (.root j) ++ [.page (p + 2 ^ j)]) hjmax ha
      have hsplit := hs'.split halign (show (s.addHalf (p + 2 ^ j) j).pageCnt = s.pageCnt from rfl)
        (fun i hne => addHalf_of_ne (hnew ▸ hne))
        (pageHead_or (by rw [hnew, addHalf_self])) (by rw [hnew, addHalf_self]) hlists hother
        (by rw [hparent])
      have hadd := hL.add (b := (⟨p, j⟩ : Block).buddy)
      rw [Block.buddy_order, hnew, Set.insert_comm] at hadd
      obtain ⟨s', T', F', L', hrun, hinv, hholds, halloc, hlist, hquiet, hpage, hco⟩ :=
        ih hsplit hadd hkj (by omega)
      rw [hs'.split_allocated halign, hparent] at halloc hquiet
      refine ⟨s', T', F', L', hstep.trans hrun, hinv, hholds, halloc, ?_, ?_, ?_, ?_⟩
      · intro a ha
        rw [hlist a ha, hother a ha]
      · refine Quiet.trans (addHalf_quiet ?_) hquiet
        intro c hc hmem
        refine hc.2 (hs.tiling.eq_of_mem c hc.1.1 _ (hs.hand_subset rfl) _ hmem ?_)
        rw [Block.mem_def, pow_succ]
        simp only
        omega
      · rw [hpage, addHalf_of_ne (by omega)]
      · -- The buddy of the new free block is the one in hand.
        intro hF
        refine hco (hF.insert (Block.buddy_aligned halign)
          (fun c hc => hs.tiling.aligned c (hs.free_subset hc)) fun _ hmem => ?_)
        rw [Block.buddy_buddy halign] at hmem
        exact hsplit.hand_free _ rfl (Or.inr hmem)
    · obtain rfl : k = j + 1 := by omega
      exact ⟨s, T, F, L, splitBlock_self _ _ _, hs, hL, rfl, fun _ _ => rfl, Quiet.rfl s _, rfl, id⟩

/-- The allocated blocks are `A`, and the lists behind the heads that are not free lists are `N`. -/
def Owns (s : BuddyAllocator) (R : Set PageNode) (A : Set Block)
    (N : PageNode → List PageNode) : Prop :=
  ∃ T F L, Inv s R T F ∅ L ∧ Holds L F ∧ T \ F = A ∧ ∀ a ∉ roots, L a = N a

/-- `Owns`, with the free blocks. -/
def OwnsFree (s : BuddyAllocator) (R : Set PageNode) (F A : Set Block)
    (N : PageNode → List PageNode) : Prop :=
  ∃ T L, Inv s R T F ∅ L ∧ Holds L F ∧ T \ F = A ∧ ∀ a ∉ roots, L a = N a

theorem OwnsFree.owns (h : OwnsFree s R F A L) (hN : ∀ a ∉ roots, L a = N a) : Owns s R A N := by
  obtain ⟨T, L', hinv, hL, hA, hL'⟩ := h
  exact ⟨T, F, L', hinv, hL, hA, fun a ha => (hL' a ha).trans (hN a ha)⟩

/-- What a caller of `__alloc_page` may rely on besides the block `b` it got. -/
structure AllocFrame (s s' : BuddyAllocator) (A : Set Block) (b : Block) : Prop where
  fresh : ∀ c ∈ A, ∀ i ∈ b, i ∉ c
  managed : ∀ i ∈ b, i < s.pageCnt
  pages : ∀ c ∈ A, ∀ i ∈ c, s'.pages i = s.pages i
  head : pageHead (s'.pages b.start) = true
  size : (s'.pages b.start).size = orderSize b.order
  refCnt : (s'.pages b.start).refCnt = 1
  rwlock : (s'.pages b.start).rwlock = rwlockInit
  refCnt_other : ∀ i, i ≠ b.start → (s'.pages i).refCnt = (s.pages i).refCnt
  data : ∀ i, (s'.pages i).data = (s.pages i).data
  magic : ∀ i, (s'.pages i).magic = (s.pages i).magic
  flag : ∀ i, (s'.pages i).flag &&& clientFlags = (s.pages i).flag &&& clientFlags
  lock : s'.lock = false
  addr : s'.addr = s.addr
  pageCnt : s'.pageCnt = s.pageCnt

theorem Owns.congr (hs : Owns s R A N) (hcnt : s'.pageCnt = s.pageCnt) (hlinks : s'.links = s.links)
    (hhead : ∀ i, pageHead (s'.pages i) = pageHead (s.pages i))
    (hsize : ∀ i, (s'.pages i).size = (s.pages i).size) : Owns s' R A N := by
  obtain ⟨T, F, L, hinv, hL, hA, hN⟩ := hs
  exact ⟨T, F, L, hinv.congr hcnt hlinks (fun i _ => hhead i) hsize, hL, hA, hN⟩

theorem Inv.mem_iff (hs : Inv s R T F ∅ L) : b ∈ T ↔ b.start < s.pageCnt ∧
    pageHead (s.pages b.start) = true ∧ (s.pages b.start).size = orderSize b.order := by
  constructor
  · intro hb
    exact ⟨hs.start_lt hb, (hs.head_iff _ (hs.start_lt hb)).2 ⟨b, hb, rfl⟩,
      hs.size_eq b hb (Set.notMem_empty b)⟩
  · rintro ⟨hlt, hhead, hsize⟩
    obtain ⟨c, hc, hstart⟩ := (hs.head_iff _ hlt).1 hhead
    rw [← hstart, hs.size_eq c hc (Set.notMem_empty c)] at hsize
    have hcb : c = b := by
      cases b
      cases c
      exact congrArg₂ Block.mk hstart (orderSize_injective hsize)
    exact hcb ▸ hc

/-- The free blocks, read off the page structures: a block with a reference is not free. -/
def freeBlocks (s : BuddyAllocator) : Set Block :=
  {b | b.start < s.pageCnt ∧ pageHead (s.pages b.start) = true ∧
    (s.pages b.start).size = orderSize b.order ∧ (s.pages b.start).refCnt = 0}

theorem Inv.mem_freeBlocks (hs : Inv s R T F ∅ L) (hpos : ∀ c ∈ T \ F, 0 < (s.pages c.start).refCnt) :
    b ∈ s.freeBlocks ↔ b ∈ F ∧ (s.pages b.start).refCnt = 0 := by
  constructor
  · rintro ⟨hlt, hhead, hsize, href⟩
    refine ⟨?_, href⟩
    by_contra hbF
    exact (hpos b ⟨hs.mem_iff.2 ⟨hlt, hhead, hsize⟩, hbF⟩).ne' href
  · rintro ⟨hb, href⟩
    obtain ⟨hlt, hhead, hsize⟩ := hs.mem_iff.1 (hs.free_subset hb)
    exact ⟨hlt, hhead, hsize, href⟩

section

variable (hs : Owns s R A N) (hb : b ∈ A)
include hs hb

theorem Owns.start_lt : b.start < s.pageCnt := by
  obtain ⟨T, F, L, hinv, _, rfl, _⟩ := hs
  exact hinv.start_lt hb.1

theorem Owns.lt_of_mem (hi : i ∈ b) : i < s.pageCnt := by
  obtain ⟨T, F, L, hinv, _, rfl, _⟩ := hs
  exact hinv.tiling.lt_of_mem b hb.1 i hi

theorem Owns.head : pageHead (s.pages b.start) = true := by
  obtain ⟨T, F, L, hinv, _, rfl, _⟩ := hs
  exact (hinv.head_iff _ (hinv.start_lt hb.1)).2 ⟨b, hb.1, rfl⟩

theorem Owns.size : (s.pages b.start).size = orderSize b.order := by
  obtain ⟨T, F, L, hinv, _, rfl, _⟩ := hs
  exact hinv.size_eq b hb.1 (Set.notMem_empty b)

theorem Owns.order_le : b.order ≤ maxOrder := by
  obtain ⟨T, F, L, hinv, _, rfl, _⟩ := hs
  exact hinv.tiling.order_le b hb.1

end

theorem Owns.exists_of_mem (hs : Owns s R A N) (ha : a ∈ R)
    (hroot : a ∉ roots) (hi : .page i ∈ N a) : ∃ c ∈ A, c.start = i := by
  obtain ⟨T, F, L, hinv, _, rfl, hN⟩ := hs
  rw [← hN a hroot] at hi
  obtain ⟨c, hc, hcF, _, hstart⟩ := hinv.other a ha hroot i hi
  exact ⟨c, ⟨hc, hcF⟩, hstart⟩

theorem Owns.linked (hs : Owns s R A N) (ha : a ∈ R) (hroot : a ∉ roots) : Linked s.links a (N a) := by
  obtain ⟨T, F, L, hinv, _, rfl, hN⟩ := hs
  rw [← hN a hroot]
  exact hinv.lists.linked a ha

/-- A new list of a client: the free lists stay, and only allocated pages are linked. -/
theorem Inv.relink {links : Links PageNode} {l : List PageNode} (hs : Inv s R T F ∅ L) (hL : Holds L F)
    (hN : ∀ a ∉ roots, L a = N a) (hroot : a ∉ roots) (hlists : Lists links R (update L a l))
    (hl : ∀ i, .page i ∈ l → .page i ∈ L a ∨ ∃ c ∈ T \ F, c.start = i) (ha : a ∈ R) :
    Owns (s.setLinks links) R (T \ F) (update N a l) := by
  refine ⟨T, F, _, ⟨hs.heads, hs.tiling, hs.free_subset, hs.hand_subset, hs.hand_free, hs.head_iff,
    hs.size_eq, hlists, ?_⟩, ?_, rfl, ?_⟩
  · intro c hc hcroot i hi
    by_cases hca : c = a
    · subst hca
      rw [update_self] at hi
      rcases hl i hi with hi | ⟨d, hd, hdi⟩
      · exact hs.other c hc hcroot i hi
      · exact ⟨d, hd.1, hd.2, Set.notMem_empty d, hdi⟩
    · rw [update_of_ne hca] at hi
      exact hs.other c hc hcroot i hi
  · intro k hk x
    have hne : PageNode.root k ≠ a := by
      rintro rfl
      exact hroot (root_mem_roots hk)
    rw [update_of_ne hne]
    exact hL k hk x
  · intro c hc
    by_cases hca : c = a
    · rw [hca, update_self, update_self]
    · rw [update_of_ne hca, update_of_ne hca, hN c hc]

section

variable (hs : Owns s R A N) (ha : a ∈ R) (hroot : a ∉ roots)
include hs ha hroot

theorem Owns.link (hb : b ∈ A)
    (hnew : ∀ c ∈ R, c ∉ roots → .page b.start ∉ N c) :
    Owns (s.setLinks (listAddNext s.links (.page b.start) a)) R A
      (update N a (.page b.start :: N a)) := by
  obtain ⟨T, F, L, hinv, hL, rfl, hN⟩ := hs
  have hnot : ∀ c ∈ R, PageNode.page b.start ∉ c :: L c := by
    refine hinv.notMem_lists hL ?_ ?_
    · intro k hmem
      exact hb.2 (hinv.tiling.eq_of_start_eq hb.1 (hinv.free_subset hmem) rfl ▸ hmem)
    · intro c hc hcroot
      rw [hN c hcroot]
      exact hnew c hc hcroot
  rw [← hN a hroot]
  refine hinv.relink hL hN hroot (hinv.lists.addNext ha hnot) (fun i hi => ?_) ha
  rcases List.mem_cons.1 hi with he | hi
  · cases he
    exact Or.inr ⟨b, hb, rfl⟩
  · exact Or.inl hi

theorem Owns.unlink {x : PageNode} (hx : x ∈ N a) :
    Owns (s.setLinks (listDel s.links x)) R A (update N a ((N a).erase x)) := by
  obtain ⟨T, F, L, hinv, hL, rfl, hN⟩ := hs
  rw [← hN a hroot] at hx ⊢
  exact hinv.relink hL hN hroot (hinv.lists.del ha hx) (fun i hi => Or.inl (List.mem_of_mem_erase hi)) ha

theorem Owns.notMem_erase {x : PageNode} (hx : x ∈ N a) :
    ∀ c ∈ R, c ∉ roots → x ∉ update N a ((N a).erase x) c := by
  obtain ⟨T, F, L, hinv, _, rfl, hN⟩ := hs
  intro c hc hcroot hmem
  rw [← hN a hroot] at hx
  apply hinv.lists.notMem_erase ha hx c hc
  by_cases hca : c = a
  · subst hca
    rw [update_self, ← hN c hcroot] at hmem
    rw [update_self]
    exact List.mem_cons_of_mem c hmem
  · rw [update_of_ne hca, ← hN c hcroot] at hmem
    rw [update_of_ne hca]
    exact List.mem_cons_of_mem c hmem

end

theorem Owns.eq_of_mem {c : Block} (hs : Owns s R A N) (hb : b ∈ A) (hc : c ∈ A)
    (hib : i ∈ b) (hic : i ∈ c) : b = c := by
  obtain ⟨T, F, L, hinv, _, rfl, _⟩ := hs
  exact hinv.tiling.eq_of_mem b hb.1 c hc.1 i hib hic

theorem fixSize_eq_orderSize (hmin : orderSize 0 ≤ fixSize n)
    (hmax : fixSize n ≤ orderSize maxOrder) : ∃ k ≤ maxOrder, fixSize n = orderSize k := by
  rcases fixSize_cases n with hzero | ⟨e, _, he⟩
  · rw [hzero] at hmin
    exact absurd hmin (by decide)
  · rw [he] at hmin hmax
    have hlow : 2 ^ 12 ≤ 2 ^ e := hmin
    have hhigh : 2 ^ e ≤ 2 ^ 22 := hmax
    rw [Nat.pow_le_pow_iff_right (by decide)] at hlow hhigh
    obtain ⟨k, rfl⟩ := Nat.exists_eq_add_of_le hlow
    refine ⟨k, by unfold maxOrder; omega, ?_⟩
    rw [he, orderSize_eq, pow_add]
    rfl

theorem findOrder_some (h : s.findOrder k = some i) :
    k ≤ i ∧ i ≤ maxOrder ∧ listEmpty s.links (.root i) = false := by
  have hmem := List.mem_of_find?_eq_some h
  have hp := List.find?_some h
  rw [List.mem_range'_1] at hmem
  refine ⟨hmem.1, by omega, by simpa using hp⟩

theorem findOrder_none (h : s.findOrder k = none) (hki : k ≤ i) (hi : i ≤ maxOrder) :
    listEmpty s.links (.root i) = true := by
  have hall := List.find?_eq_none.1 h i (List.mem_range'_1.2 ⟨hki, by omega⟩)
  simpa using hall

theorem Inv.next_root (hs : Inv s R T F H L) (hL : Holds L F) (hi : i ≤ maxOrder)
    (hne : listEmpty s.links (.root i) = false) :
    ∃ p, s.links.next (.root i) = .page p ∧ ⟨p, i⟩ ∈ F := by
  have hlinked := hs.lists.linked _ (hs.heads.roots_subset (root_mem_roots hi))
  cases hl : L (.root i) with
  | nil =>
    rw [(hlinked.listEmpty_iff).2 hl] at hne
    cases hne
  | cons x l =>
    have hx : x ∈ L (.root i) := by rw [hl]; exact List.mem_cons_self
    obtain ⟨p, rfl, hp⟩ := (hL i hi x).1 hx
    refine ⟨p, ?_, hp⟩
    rw [hlinked.next_head, hl]
    rfl

theorem fixSize_orderSize (hle : k ≤ maxOrder) : fixSize (orderSize k) = orderSize k := by
  have horder : k ≤ 10 := hle
  rw [orderSize_eq, show 4096 * 2 ^ k = 2 ^ (12 + k) from (pow_add 2 12 k).symm]
  exact fixSize_two_pow (by omega)

theorem _allocPage_eq (hk : k ≤ maxOrder) (hsize : fixSize n = orderSize k) : s._allocPage n =
      if s.lock then .error .spin
      else (match s.findOrder k with
        | none => .error .outOfMemory
        | some i => do
          let page ← pageEntry (s.links.next (.root i))
          assertk (pageHead (s.pages page))
          let s ← splitBlock page k (s.setLock true) i
          .ok (page, s.handOut page (orderSize k))) := by
  have hcond : 0 < orderSize k ∧ orderSize k ≤ 4 * 0x100000 ∧ orderSize k % 4096 = 0 := by
    rw [orderSize_eq]
    have hpow : 2 ^ k ≤ 2 ^ 10 := Nat.pow_le_pow_right (by decide) hk
    have hpos := Nat.two_pow_pos k
    omega
  have hlog : log2 (orderSize k >>> 12) = .ok k := by
    rw [orderSize_shiftRight]
    exact log2_two_pow (by unfold maxOrder at hk; omega)
  simp only [_allocPage, hsize, hcond, and_self, decide_true, assertk_true, hlog, ok_bind, spinlockLock]
  cases s.lock <;> rfl

theorem _allocPage_lock (hk : k ≤ maxOrder) (hsize : fixSize n = orderSize k)
    (hok : s._allocPage n = .ok (p, s')) : s.lock = false := by
  rw [_allocPage_eq hk hsize] at hok
  cases hlock : s.lock with
  | true =>
    rw [hlock, if_pos rfl] at hok
    cases hok
  | false => rfl

theorem handOut_of_ne {size : Nat} (hne : i ≠ p) : (s.handOut p size).pages i = s.pages i := by
  rw [handOut, modifyPage_pages, if_neg hne]

theorem handOut_self (s : BuddyAllocator) (p size : Nat) : (s.handOut p size).pages p =
    { s.pages p with size, refCnt := 1, rwlock := rwlockInit } := by
  rw [handOut, modifyPage_pages, if_pos rfl]

/-- `__alloc_page` hands out a block of the order asked for, or finds no free block that is large
enough. -/
theorem Inv.allocPage (hinv : Inv s R T F ∅ L) (hL : Holds L F) (hlock : s.lock = false)
    (hk : k ≤ maxOrder) (hsize : fixSize n = orderSize k) :
    (s._allocPage n = .error .outOfMemory ∧
        ∀ i, k ≤ i → i ≤ maxOrder → listEmpty s.links (.root i) = true) ∨
      ∃ p s' F', s._allocPage n = .ok (p, s') ∧ OwnsFree s' R F' (insert ⟨p, k⟩ (T \ F)) L ∧
        AllocFrame s s' (T \ F) ⟨p, k⟩ ∧ (Coalesced maxOrder F → Coalesced maxOrder F') := by
  rw [_allocPage_eq hk hsize, hlock, if_neg Bool.false_ne_true]
  cases hfind : s.findOrder k with
  | none => exact Or.inl ⟨rfl, fun i hki hi => findOrder_none hfind hki hi⟩
  | some i =>
    right
    obtain ⟨hki, hi, hne⟩ := findOrder_some hfind
    obtain ⟨p, hnext, hp⟩ := hinv.next_root hL hi hne
    have hpT := hinv.free_subset hp
    have hhead : pageHead (s.pages p) = true :=
      (hinv.head_iff p (hinv.start_lt hpT)).2 ⟨_, hpT, rfl⟩
    -- The block found is in hand; it leaves its list only after it has been cut.
    have htake : Inv (s.setLock true) R T (F \ {⟨p, i⟩}) {⟨p, i⟩} L :=
      (hinv.take hp).congr rfl rfl (fun _ _ => rfl) fun _ => rfl
    have hLtake : Holds L (insert ⟨p, i⟩ (F \ {⟨p, i⟩})) := by
      rwa [Set.insert_sdiff_singleton, Set.insert_eq_of_mem hp]
    obtain ⟨s1, T1, F1, L1, hrun, hinv1, hL1, halloc, hother, hquiet, hpage, hco⟩ :=
      splitBlock_spec hi i htake hLtake hki le_rfl
    have hA : (T \ (F \ {⟨p, i⟩})) \ {⟨p, i⟩} = T \ F := by
      ext c
      constructor
      · rintro ⟨⟨hc, hcF⟩, hne⟩
        exact ⟨hc, fun hmem => hcF ⟨hmem, hne⟩⟩
      · rintro ⟨hc, hcF⟩
        refine ⟨⟨hc, fun hmem => hcF hmem.1⟩, ?_⟩
        rintro rfl
        exact hcF hp
    rw [hA] at halloc hquiet
    have hp1 : ⟨p, k⟩ ∈ T1 := hinv1.hand_subset rfl
    have hA1 : T1 \ F1 = insert ⟨p, k⟩ (T \ F) := by
      rw [← halloc, Set.insert_sdiff_singleton, Set.insert_eq_of_mem]
      exact ⟨hp1, hinv1.hand_free _ rfl⟩
    have hroot : .page p ∈ L1 (.root i) := (hL1 i hi _).2 ⟨p, rfl, Or.inl rfl⟩
    have hrootMem := hinv1.heads.roots_subset (root_mem_roots hi)
    have hlists := hinv1.lists.del hrootMem hroot
    have hdel := hL1.del (b := ⟨p, i⟩) (hinv1.lists.linked _ hrootMem).nodup
    rw [Set.insert_sdiff_of_mem _ (Set.mem_singleton _),
      Set.sdiff_singleton_eq_self (hinv1.notMem_of_start rfl i)] at hdel
    have hkeep := fun (a : PageNode) (ha : a ∉ roots) =>
      update_root_other (L := L1) (l := (L1 (.root i)).erase (.page p)) hi ha
    have hcnt : (s1.handOut p (orderSize k)).pageCnt = s1.pageCnt := rfl
    have hgive := hinv1.give hcnt (fun i hne => handOut_of_ne hne)
      (by rw [handOut_self]; rfl) (by rw [handOut_self]) hlists hkeep
    refine ⟨p, s1.handOut p (orderSize k), F1, ?_, ⟨T1, _, hgive, hdel, hA1, fun a ha => ?_⟩, ?_,
      fun hF => hco (hF.mono Set.sdiff_subset)⟩
    · simp only [hnext, pageEntry, ok_bind, hhead, assertk_true, hrun]
    · rw [hkeep a ha, hother a ha]
    · have hout : ∀ c ∈ T \ F, ∀ i ∈ (⟨p, k⟩ : Block), i ∉ c := by
        intro c hc i hip hic
        rw [← halloc] at hc
        exact hc.2 (hinv1.tiling.eq_of_mem c hc.1.1 _ hp1 i hic hip)
      have hstart : ∀ c ∈ T \ F, p ∉ c := fun c hc => hout c hc p (Block.start_mem _)
      have hproj {α : Type} (g : Page → α) :=
        proj_of_ne g (fun i hne => handOut_of_ne hne) (handOut_self s1 p (orderSize k))
      refine ⟨hout, ?_, ?_, ?_, ?_, ?_, ?_, ?_, fun i => ?_, fun i => ?_, fun i => ?_, rfl, hquiet.addr,
        hquiet.pageCnt⟩
      · intro i hi
        have hlt := hinv1.tiling.lt_of_mem _ hp1 i hi
        rwa [hquiet.pageCnt] at hlt
      · intro c hc i hi
        have hne : i ≠ p := by
          rintro rfl
          exact hstart c hc hi
        rw [handOut_of_ne hne]
        exact hquiet.pages c hc i hi
      · rw [handOut_self]
        exact (congrArg pageHead hpage).trans hhead
      · rw [handOut_self]
      · rw [handOut_self]
      · rw [handOut_self]
      · intro i hne
        rw [handOut_of_ne hne]
        exact hquiet.refCnt i
      · exact (hproj (·.data) rfl i).trans (hquiet.data i)
      · exact (hproj (·.magic) rfl i).trans (hquiet.magic i)
      · exact (hproj (·.flag &&& clientFlags) rfl i).trans (hquiet.flag i)

theorem _allocPage_spec (hs : Owns s R A N) (hlock : s.lock = false)
    (hk : k ≤ maxOrder) (hsize : fixSize n = orderSize k) :
    (s._allocPage n = .error .outOfMemory ∧
        ∀ i, k ≤ i → i ≤ maxOrder → listEmpty s.links (.root i) = true) ∨
      ∃ p s', s._allocPage n = .ok (p, s') ∧ Owns s' R (insert ⟨p, k⟩ A) N ∧
        AllocFrame s s' A ⟨p, k⟩ := by
  obtain ⟨T, F, L, hinv, hL, rfl, hN⟩ := hs
  obtain herr | ⟨p, s', F', hok, howns, hframe, _⟩ := hinv.allocPage hL hlock hk hsize
  · exact Or.inl herr
  · exact Or.inr ⟨p, s', hok, howns.owns hN, hframe⟩

theorem Counted.alloc (hc : Counted s A) (hframe : AllocFrame s s' A b) : Counted s' (insert b A) := by
  refine ⟨?_, ?_⟩
  · rintro c (rfl | hcA)
    · rw [hframe.refCnt]
      exact Nat.one_pos
    · rw [hframe.pages c hcA _ c.start_mem]
      exact hc.pos c hcA
  · intro i hi hno
    rw [hframe.refCnt_other i (Ne.symm (hno b (Or.inl rfl)))]
    exact hc.zero i (hframe.pageCnt ▸ hi) fun c hcA => hno c (Or.inr hcA)

/-- Joining the block `b` with its free buddies as far up as it goes comes to a buddy that lies
before the block. -/
inductive MergesDown (F : Set Block) : Block → Prop
  | here {b : Block} (hord : b.order < maxOrder) (hbuddy : b.buddy ∈ F)
      (hlt : b.buddy.start < b.start) : MergesDown F b
  | up {b : Block} (hord : b.order < maxOrder) (hbuddy : b.buddy ∈ F)
      (hup : MergesDown F b.parent) : MergesDown F b

theorem MergesDown.congr {F' : Set Block} (h : MergesDown F b)
    (hF : ∀ c, b.order ≤ c.order → c ∈ F → c ∈ F') : MergesDown F' b := by
  induction h with
  | here hord hbuddy hlt => exact .here hord (hF _ (by rw [Block.buddy_order]) hbuddy) hlt
  | up hord hbuddy _ ih =>
    refine .up hord (hF _ (by rw [Block.buddy_order]) hbuddy) (ih fun c hc => hF c ?_)
    rw [Block.parent_order] at hc
    omega

theorem getBuddy_eq (hsize : (s.pages b.start).size = orderSize b.order) :
    s.getBuddy b.start = if s.pageCnt ≤ b.buddy.start then none else some b.buddy.start := by
  have hodd : b.start / 2 ^ b.order &&& 1 = b.start / 2 ^ b.order % 2 := Nat.and_one_is_mod _
  rw [getBuddy, hsize, orderSize_shiftRight]
  rw [hodd, Block.buddy]
  rcases Nat.mod_two_eq_zero_or_one (b.start / 2 ^ b.order) with h | h <;> simp [h]

theorem joinHalves_pages {buddy low tmp : Nat} (hne : low ≠ tmp) (i : Nat) :
    (s.joinHalves buddy low tmp).pages i =
      if i = low then { s.pages i with size := (s.pages i).size <<< 1 % 2 ^ 32 }
      else if i = tmp then { s.pages i with flag := clearBit (s.pages i).flag pgHeadBit }
      else s.pages i := by
  rw [joinHalves, setLinks_pages, modifyPage_pages, modifyPage_pages]
  by_cases hi : i = low
  · subst hi
    rw [if_pos rfl, if_pos rfl, if_neg hne]
  · rw [if_neg hi, if_neg hi]

theorem joinHalves_quiet {buddy low tmp : Nat} (hlow : ∀ c ∈ A, low ∉ c) (htmp : ∀ c ∈ A, tmp ∉ c) :
    Quiet s (s.joinHalves buddy low tmp) A :=
  ((modifyPage_quiet htmp fun _ => ⟨_, _, rfl, clearBit_and_clientFlags _⟩).trans
    (modifyPage_quiet hlow fun _ => ⟨_, _, rfl, rfl⟩)).trans (setLinks_quiet _ _ A)

/-- The block in hand is joined with its buddy. -/
def Joins (s : BuddyAllocator) (F : Set Block) (b : Block) : Prop :=
  b.order < maxOrder ∧ b.buddy ∈ F ∧ (s.pages b.buddy.start).refCnt = 0

theorem Inv.buddy_mem_iff (hs : Inv s R T F {b} L)
    (hpos : ∀ c ∈ (T \ F) \ {b}, 0 < (s.pages c.start).refCnt)
    (hsize : (s.pages b.start).size = orderSize b.order) (hn : b.buddy.start < s.pageCnt) :
    ¬ ((s.pages b.buddy.start).refCnt ≠ 0 ∨
        (s.pages b.buddy.start).size ≠ (s.pages b.start).size ∨ b.order = maxOrder) ↔
      Joins s F b := by
  have hb : b ∈ T := hs.hand_subset rfl
  have hle := hs.tiling.order_le b hb
  obtain ⟨c, hc, hstart, hord⟩ := hs.tiling.exists_buddy hb hn
  have hcb : c ≠ b := by
    rintro rfl
    exact Block.not_mem_buddy (hs.tiling.aligned c hb) c.start_mem (hstart ▸ Block.start_mem _)
  constructor
  · intro hstop
    have href : (s.pages b.buddy.start).refCnt = 0 := by
      by_contra href
      exact hstop (Or.inl href)
    have hsame : orderSize c.order = orderSize b.order := by
      by_contra hne
      refine hstop (Or.inr (Or.inl ?_))
      rw [hsize, ← hstart, hs.size_eq c hc hcb]
      exact hne
    have hceq : c = b.buddy := by
      have horder := orderSize_injective hsame
      cases c
      cases hbb : b.buddy with
      | mk start order =>
        have hbo := Block.buddy_order b
        rw [hbb] at hstart hbo
        simp_all
    have hcF : c ∈ F := by
      by_contra hcF
      have hlt := hpos c ⟨⟨hc, hcF⟩, hcb⟩
      rw [hstart, href] at hlt
      exact absurd hlt (Nat.lt_irrefl 0)
    exact ⟨lt_of_le_of_ne hle fun he => hstop (Or.inr (Or.inr he)), hceq ▸ hcF, href⟩
  · rintro ⟨hlt, hmem, href⟩ hstop
    have hbT := hs.free_subset hmem
    have hbne : b.buddy ≠ b := Block.buddy_ne (hs.tiling.aligned b hb)
    rcases hstop with hne | hne | he
    · exact hne href
    · apply hne
      rw [hsize, hs.size_eq _ hbT hbne, Block.buddy_order]
    · omega

theorem Inv.joinHalves (hs : Inv s R T F {b} L) (hL : Holds L F)
    (hsize : (s.pages b.start).size = orderSize b.order) (hord : b.order < maxOrder)
    (hbuddy : b.buddy ∈ F) :
    ∃ L', Inv (s.joinHalves b.buddy.start b.parent.start (max b.buddy.start b.start)) R
        (insert b.parent (T \ {b, b.buddy})) (F \ {b.buddy}) {b.parent} L' ∧
      Holds L' (F \ {b.buddy}) ∧ (∀ a ∉ roots, L' a = L a) ∧
      ((s.joinHalves b.buddy.start b.parent.start (max b.buddy.start b.start)).pages
        b.parent.start).size = orderSize b.parent.order ∧
      Quiet s (s.joinHalves b.buddy.start b.parent.start (max b.buddy.start b.start))
        ((T \ F) \ {b}) ∧
      b.parent.start + (s.pages b.parent.start).size >>> 12 = max b.buddy.start b.start := by
  have hb : b ∈ T := hs.hand_subset rfl
  have hbT : b.buddy ∈ T := hs.free_subset hbuddy
  have halign := hs.tiling.aligned b hb
  have hbne : b.buddy ≠ b := Block.buddy_ne halign
  have hsize' : (s.pages b.buddy.start).size = orderSize b.order := by
    rw [hs.size_eq _ hbT hbne, Block.buddy_order]
  have hpos := Nat.two_pow_pos b.order
  -- Both halves record the same size, whichever of them is the lower one.
  have hends : (b.parent.start = b.start ∧ max b.buddy.start b.start = b.buddy.start ∨
      b.parent.start = b.buddy.start ∧ max b.buddy.start b.start = b.start) ∧
      b.parent.start + 2 ^ b.order = max b.buddy.start b.start := by
    obtain ⟨q, ⟨h1, h2, h3⟩ | ⟨h1, h2, h3⟩⟩ := Block.half_cases halign <;>
      rw [h1, h2, h3] <;> omega
  obtain ⟨hcase, hadd⟩ := hends
  have hlow : (s.pages b.parent.start).size = orderSize b.order := by
    rcases hcase with ⟨he, _⟩ | ⟨he, _⟩ <;> rw [he] <;> assumption
  have hne : b.parent.start ≠ max b.buddy.start b.start := by omega
  have hcomm : max b.start b.buddy.start = max b.buddy.start b.start := Nat.max_comm _ _
  have hmax : b.order ≤ maxOrder := hord.le
  have hrootMem := hs.heads.roots_subset (root_mem_roots hmax)
  have hmem := hL.mem_root hs hbuddy
  rw [Block.buddy_order] at hmem
  have htmp : ∀ a ∈ R, PageNode.page (max b.buddy.start b.start) ∉
      a :: update L (.root b.order) ((L (.root b.order)).erase (.page b.buddy.start)) a := by
    rcases hcase with ⟨_, he⟩ | ⟨_, he⟩ <;> rw [he]
    · exact hs.lists.notMem_erase hrootMem hmem
    · intro a ha hin
      exact hs.hand_notMem hL a ha (Lists.mem_of_mem_erase hin)
  have hlists := (hs.lists.del hrootMem hmem).headerInit htmp
  have hkeep := fun (a : PageNode) (ha : a ∉ roots) => update_root_other (L := L)
    (l := (L (.root b.order)).erase (.page b.buddy.start)) hmax ha
  have hdel := hL.del (b := b.buddy) (by
    rw [Block.buddy_order]
    exact (hs.lists.linked _ hrootMem).nodup)
  rw [Block.buddy_order] at hdel
  have hout : ∀ c ∈ (T \ F) \ {b}, b.start ∉ c ∧ b.buddy.start ∉ c := by
    rintro c ⟨⟨hc, hcF⟩, hcb⟩
    refine ⟨fun hin => hcb (hs.tiling.eq_of_mem c hc b hb _ hin b.start_mem), fun hin => ?_⟩
    exact hcF (hs.tiling.eq_of_mem c hc _ hbT _ hin (Block.start_mem _) ▸ hbuddy)
  refine ⟨_, hs.join hbuddy hord rfl ?_ ?_ ?_ hlists hkeep, hdel, hkeep, ?_, joinHalves_quiet ?_ ?_, ?_⟩
  · intro i hi
    rw [hcomm] at hi
    rw [joinHalves_pages hne, if_neg hi]
    split <;> rfl
  · rw [hcomm]
    apply pageHead_clear
    rw [joinHalves_pages hne, if_neg hne.symm, if_pos rfl]
  · intro i hi
    rw [joinHalves_pages hne, if_neg hi]
    split <;> rfl
  · rw [joinHalves_pages hne, if_pos rfl]
    simp only
    rw [hlow, Block.parent_order, Nat.shiftLeft_eq, orderSize_eq, orderSize_eq, pow_succ]
    have hpow : 2 ^ b.order ≤ 2 ^ 10 := Nat.pow_le_pow_right (by decide) hmax
    omega
  · intro c hc
    rcases hcase with ⟨he, _⟩ | ⟨he, _⟩ <;> rw [he]
    · exact (hout c hc).1
    · exact (hout c hc).2
  · intro c hc
    rcases hcase with ⟨_, he⟩ | ⟨_, he⟩ <;> rw [he]
    · exact (hout c hc).2
    · exact (hout c hc).1
  · rw [hlow, orderSize_shiftRight, hadd]

section

variable {fuel : Nat} (hs : Inv s R T F {b} L) (hpos : ∀ c ∈ (T \ F) \ {b}, 0 < (s.pages c.start).refCnt)
  (hsize : (s.pages b.start).size = orderSize b.order) (href : (s.pages b.start).refCnt = 0)
include hs hpos hsize href

theorem Inv.coalesce_stop (hstop : ¬ Joins s F b) : s.coalesce b.start b.order (fuel + 1) =
      .ok (b.start, s.setLinks (listAddPrev s.links (.page b.start) (.root b.order))) := by
  rw [coalesce, if_neg (not_not.2 href), getBuddy_eq hsize]
  by_cases hn : s.pageCnt ≤ b.buddy.start
  · rw [if_pos hn]
  · rw [if_neg hn]
    exact if_pos (not_not.1 fun h => hstop ((hs.buddy_mem_iff hpos hsize (Nat.not_le.1 hn)).1 h))

theorem Inv.coalesce_join (hjoin : Joins s F b)
    (hadd : b.parent.start + (s.pages b.parent.start).size >>> 12 = max b.buddy.start b.start) :
    s.coalesce b.start b.order (fuel + 1) =
      (s.joinHalves b.buddy.start b.parent.start (max b.buddy.start b.start)).coalesce b.parent.start
        b.parent.order fuel := by
  have hn := hs.start_lt (hs.free_subset hjoin.2.1)
  have hmin : min b.buddy.start b.start = b.parent.start := Nat.min_comm _ _
  rw [coalesce, if_neg (not_not.2 href), getBuddy_eq hsize, if_neg (Nat.not_le.2 hn)]
  simp only [if_neg ((hs.buddy_mem_iff hpos hsize hn).2 hjoin), hmin, hadd, decide_true, assertk_true,
    ok_bind, Block.parent_order]

end

/-- The merge loop puts the block in hand back, joined as far up as its free buddies go. -/
theorem coalesce_spec (fuel : Nat) :
    ∀ {s : BuddyAllocator} {T F : Set Block} {L : PageNode → List PageNode} {b : Block},
      Inv s R T F {b} L → Holds L F → (∀ c ∈ (T \ F) \ {b}, 0 < (s.pages c.start).refCnt) →
      (s.pages b.start).size = orderSize b.order → (s.pages b.start).refCnt = 0 →
      b.order + fuel = maxOrder + 1 →
      ∃ q s' F', coalesce s b.start b.order fuel = .ok (q, s') ∧ OwnsFree s' R F' ((T \ F) \ {b}) L ∧
        Quiet s s' ((T \ F) \ {b}) ∧ (∃ k, ⟨q, k⟩ ∈ F') ∧ q ≤ b.start ∧
        (q ≠ b.start ↔ MergesDown {c ∈ F | (s.pages c.start).refCnt = 0} b) ∧
        ((∀ c ∈ F, (s.pages c.start).refCnt = 0) → Coalesced maxOrder F →
          Coalesced maxOrder F') := by
  induction fuel with
  | zero =>
    intro s T F L b hs _ _ _ _ hfuel
    have hle := hs.tiling.order_le b (hs.hand_subset rfl)
    omega
  | succ fuel ih =>
    intro s T F L b hs hL hpos hsize href hfuel
    have hb : b ∈ T := hs.hand_subset rfl
    have hmax := hs.tiling.order_le b hb
    by_cases hjoin : Joins s F b
    · obtain ⟨hord, hbuddy, hbref⟩ := id hjoin
      obtain ⟨L1, hinv1, hL1, hlist1, hsize1, hquiet1, hadd⟩ := hs.joinHalves hL hsize hord hbuddy
      have hpos1 : ∀ c ∈ (insert b.parent (T \ {b, b.buddy}) \ (F \ {b.buddy})) \ {b.parent},
          0 < ((s.joinHalves b.buddy.start b.parent.start
            (max b.buddy.start b.start)).pages c.start).refCnt := by
        intro c hc
        rw [hs.join_allocated hbuddy] at hc
        rw [hquiet1.refCnt]
        exact hpos c hc
      have href1 : (s.pages b.parent.start).refCnt = 0 := by
        rcases Nat.le_total b.start b.buddy.start with hle | hle
        · rw [show b.parent.start = b.start from Nat.min_eq_left hle, href]
        · rw [show b.parent.start = b.buddy.start from Nat.min_eq_right hle, hbref]
      obtain ⟨q, s', F', hrun, ⟨T', L', hinv, hholds, halloc, hlist⟩, hquiet, hk, hle, hq, hco⟩ :=
        ih hinv1 hL1 hpos1 hsize1 ((hquiet1.refCnt _).trans href1)
          (by rw [Block.parent_order]; omega)
      rw [hs.join_allocated hbuddy] at halloc hquiet
      have hsame : MergesDown {c ∈ F \ {b.buddy} | ((s.joinHalves b.buddy.start
          b.parent.start (max b.buddy.start b.start)).pages c.start).refCnt = 0} b.parent ↔
          MergesDown {c ∈ F | (s.pages c.start).refCnt = 0} b.parent := by
        constructor
        · intro h
          exact h.congr fun c _ hc => ⟨hc.1.1, (hquiet1.refCnt _).symm.trans hc.2⟩
        · intro h
          refine h.congr fun c hc hcF => ⟨⟨hcF.1, ?_⟩, (hquiet1.refCnt _).trans hcF.2⟩
          rintro rfl
          rw [Block.parent_order, Block.buddy_order] at hc
          omega
      have hlow : b.parent.start ≤ b.start := Nat.min_le_left _ _
      refine ⟨q, s', F', (hs.coalesce_join hpos hsize href hjoin hadd).trans hrun,
        ⟨T', L', hinv, hholds, halloc, fun a ha => (hlist a ha).trans (hlist1 a ha)⟩,
        hquiet1.trans hquiet, hk, hle.trans hlow, ?_,
        fun hzero hF => hco (fun c hc => ?_) (hF.mono Set.sdiff_subset)⟩
      · rw [hsame] at hq
        rcases Nat.lt_or_ge b.buddy.start b.start with hlt | hge
        · have hp : b.parent.start = b.buddy.start := Nat.min_eq_right hlt.le
          refine iff_of_true ?_ (.here hord ⟨hbuddy, hbref⟩ hlt)
          omega
        · have hp : b.parent.start = b.start := Nat.min_eq_left hge
          rw [hp] at hq
          rw [hq]
          constructor
          · exact .up hord ⟨hbuddy, hbref⟩
          · rintro (⟨_, _, hlt⟩ | ⟨_, _, hup⟩)
            · omega
            · exact hup
      · rw [hquiet1.refCnt]
        exact hzero c hc.1
    · -- The loop ends here: the block goes into the list of its order.
      have hkeep := fun (a : PageNode) (ha : a ∉ roots) => update_root_other (L := L)
        (l := L (.root b.order) ++ [.page b.start]) hmax ha
      have hlists := hs.lists.addPrev (hs.heads.roots_subset (root_mem_roots hmax))
        (hs.hand_notMem hL)
      refine ⟨_, _, insert b F, hs.coalesce_stop hpos hsize href hjoin,
        ⟨T, _, hs.put rfl rfl hsize hlists hkeep, hL.add, ?_, hkeep⟩, setLinks_quiet _ _ _,
        ⟨b.order, Or.inl rfl⟩, le_rfl, iff_of_false (fun hne => hne rfl) ?_, fun hzero hF => ?_⟩
      · ext c
        simp only [Set.mem_sdiff, Set.mem_insert_iff, Set.mem_singleton_iff]
        tauto
      · rintro (⟨hord, hbuddy, _⟩ | ⟨hord, hbuddy, _⟩) <;> exact hjoin ⟨hord, hbuddy⟩
      · refine hF.insert (hs.tiling.aligned b hb)
          (fun c hc => hs.tiling.aligned c (hs.free_subset hc)) fun hord hmem => ?_
        exact hjoin ⟨hord, hmem, hzero _ hmem⟩

/-- What the callers of `__free_page` may rely on when the block `b` goes back. -/
structure FreeFrame (s s' : BuddyAllocator) (A : Set Block) (b : Block) : Prop where
  pages : ∀ c ∈ A, c ≠ b → ∀ i ∈ c, s'.pages i = s.pages i
  refCnt : (s'.pages b.start).refCnt = 0
  refCnt_other : ∀ i, i ≠ b.start → (s'.pages i).refCnt = (s.pages i).refCnt
  data : ∀ i, i ≠ b.start → (s'.pages i).data = (s.pages i).data
  magic : ∀ i, (s'.pages i).magic = (s.pages i).magic
  flag : ∀ i, (s'.pages i).flag &&& clientFlags = (s.pages i).flag &&& clientFlags
  lock : s'.lock = false
  addr : s'.addr = s.addr
  pageCnt : s'.pageCnt = s.pageCnt

theorem _freePage_eq {page : Nat} (href : 0 < (s.pages page).refCnt)
    (hhead : pageHead (s.pages page) = true) :
    s._freePage page =
      if (s.pages page).rwlock.writelock then .error .spin
      else if 1 < (s.pages page).refCnt then
        .ok (s.modifyPage page fun p =>
          { p with rwlock := { (s.pages page).rwlock with writelock := true }
                   refCnt := p.refCnt - 1 })
      else (s.modifyPage page fun p =>
          { p with rwlock := { (s.pages page).rwlock with writelock := true }
                   refCnt := p.refCnt - 1 }).releaseBlock page := by
  rw [_freePage, hhead]
  simp only [href, decide_true, assertk_true, ok_bind, wlockLock, spinlockLock]
  cases (s.pages page).rwlock.writelock with
  | true => rfl
  | false =>
    simp only [Bool.false_eq_true, if_false, ok_bind, modifyPage_pages, if_true]
    have hiff : (0 < (s.pages page).refCnt - 1) = (1 < (s.pages page).refCnt) := by
      rw [Nat.lt_sub_iff_add_lt]
    simp only [hiff]

/-- The block in hand, unreferenced and locked, goes back to the free lists. The lock is released on
the first page of the block it ends up in. -/
theorem releaseBlock_spec (hs : Inv s R T F {b} L) (hL : Holds L F) (hlock : s.lock = false)
    (hpos : ∀ c ∈ (T \ F) \ {b}, 0 < (s.pages c.start).refCnt) (href : (s.pages b.start).refCnt = 0)
    (hsize : (s.pages b.start).size = orderSize b.order)
    (hheld : (s.pages b.start).rwlock.writelock = true) :
    ∃ s' F', s.releaseBlock b.start = .ok s' ∧ OwnsFree s' R F' ((T \ F) \ {b}) L ∧
      FreeFrame s s' (T \ F) b ∧
      ((s'.pages b.start).rwlock.writelock = true ↔
        MergesDown {c ∈ F | (s.pages c.start).refCnt = 0} b) ∧
      ((∀ c ∈ F, (s.pages c.start).refCnt = 0) → Coalesced maxOrder F →
        Coalesced maxOrder F') := by
  have hb : b ∈ T := hs.hand_subset rfl
  have hmax := hs.tiling.order_le b hb
  have hlog : log2 ((s.pages b.start).size >>> 12) = .ok b.order := by
    rw [hsize, orderSize_shiftRight]
    exact log2_two_pow (by unfold maxOrder at hmax; omega)
  -- Only the data and the flags of the first page have changed when the loop starts.
  let s1 := (s.modifyPage b.start fun p =>
    { p with data := 0, flag := p.flag ||| (pgPage ||| pgHead) }).setLock true
  have hother : ∀ i, i ≠ b.start → s1.pages i = s.pages i := fun i hi => if_neg hi
  have hself : s1.pages b.start = { s.pages b.start with
      data := 0, flag := (s.pages b.start).flag ||| (pgPage ||| pgHead) } := if_pos rfl
  have hhead : ∀ i < s.pageCnt, pageHead (s1.pages i) = pageHead (s.pages i) := by
    intro i hi
    by_cases hib : i = b.start
    · subst hib
      rw [(hs.head_iff _ hi).2 ⟨b, hb, rfl⟩]
      apply pageHead_or (f := (s.pages b.start).flag ||| pgPage)
      rw [hself, BitVec.or_assoc]
    · rw [hother i hib]
  have hsizes : ∀ i, (s1.pages i).size = (s.pages i).size :=
    proj_of_ne (·.size) hother hself rfl
  have hrefs : ∀ i, (s1.pages i).refCnt = (s.pages i).refCnt :=
    proj_of_ne (·.refCnt) hother hself rfl
  have hs1 : Inv s1 R T F {b} L :=
    hs.congr rfl rfl hhead hsizes
  obtain ⟨q, s2, F', hrun, ⟨T', L', hinv, hholds, halloc, hlist⟩, hquiet, ⟨k, hk⟩, hle, hq, hco⟩ :=
    coalesce_spec (maxOrder + 1 - b.order) hs1 hL (fun c hc => (hrefs _).symm ▸ hpos c hc)
      ((hsizes _).trans hsize) ((hrefs _).trans href) (by omega)
  simp only [hrefs] at hq hco
  let s3 := (s2.modifyPage q fun p => { p with rwlock := wlockUnlock p.rwlock }).setLock
    spinlockUnlock
  have hother3 : ∀ i, i ≠ q → s3.pages i = s2.pages i := fun i hi => if_neg hi
  have hself3 : s3.pages q = { s2.pages q with rwlock := wlockUnlock (s2.pages q).rwlock } :=
    if_pos rfl
  have hproj {α : Type} (g : Page → α) (hg : g { s2.pages q with
      rwlock := wlockUnlock (s2.pages q).rwlock } = g (s2.pages q)) : ∀ i, g (s3.pages i) = g (s2.pages i) :=
    proj_of_ne g hother3 hself3 hg
  have hlockb : (s2.pages b.start).rwlock = (s.pages b.start).rwlock := by
    rw [hquiet.rwlock, hself]
  refine ⟨s3, F', ?_, ⟨T', L', ?_, hholds, halloc, hlist⟩, ?_, ?_, hco⟩
  · rw [releaseBlock, hlog]
    simp only [ok_bind, modifyPage_lock, hlock, spinlockLock, Bool.false_eq_true, if_false]
    exact congrArg (· >>= _) hrun
  · exact hinv.congr rfl rfl (fun i _ => hproj pageHead rfl i) (hproj (·.size) rfl)
  · refine ⟨?_, ?_, ?_, ?_, ?_, ?_, rfl, hquiet.addr, hquiet.pageCnt⟩
    · intro c hc hcb i hi
      have hib : i ≠ b.start := by
        rintro rfl
        exact hcb (hs.tiling.eq_of_mem c hc.1 b hb _ hi b.start_mem)
      have hiq : i ≠ q := by
        rintro rfl
        have hcA : c ∈ T' \ F' := halloc ▸ ⟨hc, hcb⟩
        have he := hinv.tiling.eq_of_mem c hcA.1 _ (hinv.free_subset hk) i hi (Block.start_mem _)
        exact hcA.2 (he ▸ hk)
      rw [hother3 i hiq, hquiet.pages c ⟨hc, hcb⟩ i hi, hother i hib]
    · exact ((hproj (·.refCnt) rfl _).trans (hquiet.refCnt _)).trans ((hrefs _).trans href)
    · exact fun i _ => ((hproj (·.refCnt) rfl i).trans (hquiet.refCnt i)).trans (hrefs i)
    · intro i hib
      rw [← hother i hib]
      exact (hproj (·.data) rfl i).trans (hquiet.data i)
    · exact fun i => ((hproj (·.magic) rfl i).trans (hquiet.magic i)).trans
        (proj_of_ne (·.magic) hother hself rfl i)
    · exact fun i => ((hproj (·.flag &&& clientFlags) rfl i).trans (hquiet.flag i)).trans
        (proj_of_ne (·.flag &&& clientFlags) hother hself (or_and_clientFlags _ (by decide)) i)
  · rw [← hq]
    by_cases hbq : b.start = q
    · rw [hbq, hself3]
      simp [wlockUnlock, spinlockUnlock]
    · rw [hother3 _ hbq, hlockb]
      exact iff_of_true hheld (Ne.symm hbq)

/-- `__free_page` on the first page of an allocated block that has one reference left. -/
theorem Inv.freePage (hinv : Inv s R T F ∅ L) (hL : Holds L F)
    (hpos : ∀ c ∈ T \ F, 0 < (s.pages c.start).refCnt) (hb : b ∈ T \ F)
    (hlist : ∀ a ∈ R, a ∉ roots → .page b.start ∉ L a) (hlock : s.lock = false)
    (hwl : (s.pages b.start).rwlock.writelock = false) (href : (s.pages b.start).refCnt = 1) :
    ∃ s' F', s._freePage b.start = .ok s' ∧ OwnsFree s' R F' ((T \ F) \ {b}) L ∧
      FreeFrame s s' (T \ F) b ∧
      ((s'.pages b.start).rwlock.writelock = true ↔ MergesDown s.freeBlocks b) ∧
      ((∀ c ∈ F, (s.pages c.start).refCnt = 0) → Coalesced maxOrder F →
        Coalesced maxOrder F') := by
  have hhead := (hinv.head_iff _ (hinv.start_lt hb.1)).2 ⟨b, hb.1, rfl⟩
  have hsize := hinv.size_eq b hb.1 (Set.notMem_empty b)
  rw [_freePage_eq (by omega) hhead, hwl, href]
  simp only [Bool.false_eq_true, if_false, Nat.lt_irrefl]
  let s1 := s.modifyPage b.start fun p =>
    { p with rwlock := { (s.pages b.start).rwlock with writelock := true }, refCnt := p.refCnt - 1 }
  have hself : s1.pages b.start = { s.pages b.start with
      rwlock := { (s.pages b.start).rwlock with writelock := true }
      refCnt := (s.pages b.start).refCnt - 1 } := if_pos rfl
  have hother : ∀ i, i ≠ b.start → s1.pages i = s.pages i := fun i hi => if_neg hi
  have hdrop : Inv s1 R T F {b} L := by
    refine hinv.drop hb.1 hb.2 rfl hother ?_ rfl ?_
    · rw [hself]
      exact hhead
    · exact hlist
  have hpos1 : ∀ c ∈ (T \ F) \ {b}, 0 < (s1.pages c.start).refCnt := by
    rintro c ⟨hc, hcb⟩
    rw [hother _ fun he => hcb (hinv.tiling.eq_of_start_eq hc.1 hb.1 he)]
    exact hpos c hc
  have hfreeRef : ∀ c ∈ F, (s1.pages c.start).refCnt = (s.pages c.start).refCnt := by
    intro c hc
    rw [hother _ fun he => hb.2 (hinv.tiling.eq_of_start_eq (hinv.free_subset hc) hb.1 he ▸ hc)]
  obtain ⟨s', F', hrun, howns, hframe, hlk, hco⟩ :=
    releaseBlock_spec hdrop hL hlock hpos1 (by rw [hself, href]) (by rw [hself]; exact hsize)
      (by rw [hself])
  refine ⟨s', F', hrun, howns, ?_, ?_,
    fun hzero => hco fun c hc => (hfreeRef c hc).trans (hzero c hc)⟩
  · refine ⟨?_, hframe.refCnt, ?_, ?_, ?_, ?_, hframe.lock, hframe.addr, hframe.pageCnt⟩
    · intro c hc hcb i hi
      rw [hframe.pages c hc hcb i hi, hother]
      rintro rfl
      exact hcb (hinv.tiling.eq_of_mem c hc.1 b hb.1 _ hi b.start_mem)
    · intro i hib
      rw [hframe.refCnt_other i hib, hother i hib]
    · intro i hib
      rw [hframe.data i hib, hother i hib]
    · exact fun i => (hframe.magic i).trans (proj_of_ne (·.magic) hother hself rfl i)
    · exact fun i => (hframe.flag i).trans
        (proj_of_ne (·.flag &&& clientFlags) hother hself rfl i)
  · rw [hlk]
    have hfree : {c ∈ F | (s1.pages c.start).refCnt = 0} = s.freeBlocks := by
      ext c
      rw [Set.mem_ofPred_eq, hinv.mem_freeBlocks hpos]
      refine and_congr_right fun hc => ?_
      rw [hfreeRef c hc]
    rw [hfree]

theorem _freePage_spec (hs : Owns s R A N) (hpos : ∀ c ∈ A, 0 < (s.pages c.start).refCnt)
    (hb : b ∈ A) (hlist : ∀ a ∈ R, a ∉ roots → .page b.start ∉ N a) (hlock : s.lock = false)
    (hwl : (s.pages b.start).rwlock.writelock = false) (href : (s.pages b.start).refCnt = 1) :
    ∃ s', s._freePage b.start = .ok s' ∧ Owns s' R (A \ {b}) N ∧ FreeFrame s s' A b ∧
      ((s'.pages b.start).rwlock.writelock = true ↔ MergesDown s.freeBlocks b) := by
  obtain ⟨T, F, L, hinv, hL, rfl, hN⟩ := hs
  have hlist' : ∀ a ∈ R, a ∉ roots → .page b.start ∉ L a := by
    intro a ha hroot
    rw [hN a hroot]
    exact hlist a ha hroot
  obtain ⟨s', F', hok, howns, hframe, hlk, _⟩ := hinv.freePage hL hpos hb hlist' hlock hwl href
  exact ⟨s', hok, howns.owns hN, hframe, hlk⟩

theorem Counted.free (hc : Counted s A) (hframe : FreeFrame s s' A b) : Counted s' (A \ {b}) := by
  refine ⟨?_, ?_⟩
  · rintro c ⟨hcA, hcb⟩
    rw [hframe.pages c hcA hcb _ c.start_mem]
    exact hc.pos c hcA
  · intro i hi hno
    by_cases hib : i = b.start
    · rw [hib, hframe.refCnt]
    · rw [hframe.refCnt_other i hib]
      refine hc.zero i (hframe.pageCnt ▸ hi) fun c hcA => ?_
      by_cases hcb : c = b
      · rw [hcb]
        exact Ne.symm hib
      · exact hno c ⟨hcA, hcb⟩

end BuddyAllocator

end QuarkOS
