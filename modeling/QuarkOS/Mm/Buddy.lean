import QuarkOS.Lib.Dyadic
import QuarkOS.Mm.PageAlloc

/-!
# The buddy system behind the page allocator

The abstract state of the allocator is a tiling of the managed pages by aligned blocks, with some of
the blocks free. `Inv` says how the page structures and the free lists hold such a tiling. While a
block is being cut or joined it is in nobody's hands: it is neither free nor allocated, and the size
its page records is out of date. These blocks are the set `H`, which is empty between two calls.

Every effect of `__alloc_page` and `__free_page` on the tiling is one of the step lemmas below.
-/

namespace QuarkOS

open CList Dyadic

theorem pageHead_eq (page : Page) : pageHead page = page.flag.getLsbD 0 := by
  have hone : pgHead = 1#16 := rfl
  rw [pageHead, hone, BitVec.and_one_eq_setWidth_ofBool_getLsbD]
  cases page.flag.getLsbD 0 <;> decide

theorem pageHead_or {f : BitVec 16} {page : Page} (hflag : page.flag = f ||| pgHead) :
    pageHead page = true := by
  rw [pageHead_eq, hflag, BitVec.getLsbD_or]
  simp [pgHead]

theorem pageHead_clear {flag : BitVec 16} {page : Page}
    (hflag : page.flag = clearBit flag pgHeadBit) : pageHead page = false := by
  rw [pageHead_eq, hflag, clearBit, pgHeadBit, BitVec.getLsbD_and]
  simp

theorem or_and_clientFlags {x : BitVec 16} (flag : BitVec 16) (hx : x &&& clientFlags = 0#16) :
    (flag ||| x) &&& clientFlags = flag &&& clientFlags := by
  rw [BitVec.and_comm, BitVec.and_or_distrib_left, BitVec.and_comm clientFlags x, hx,
    BitVec.or_zero, BitVec.and_comm]

/-- Flags of the clients, that of the slabs among them. -/
structure ClientMask (m : BitVec 16) : Prop where
  client : clientFlags &&& m = m
  slab : m &&& pgSlab = pgSlab

theorem ClientMask.congr {m x y : BitVec 16} (hm : ClientMask m)
    (h : x &&& clientFlags = y &&& clientFlags) : x &&& m = y &&& m := by
  rw [← hm.client, ← BitVec.and_assoc, ← BitVec.and_assoc, h]

theorem ClientMask.not_slab {m : BitVec 16} {page : Page} (hm : ClientMask m)
    (h : page.flag &&& m = 0#16) : isSlab page = false := by
  rw [isSlab, ← hm.slab, ← BitVec.and_assoc, h, BitVec.zero_and]
  rfl

theorem clearBit_and_clientFlags (flag : BitVec 16) :
    clearBit flag pgHeadBit &&& clientFlags = flag &&& clientFlags := by
  rw [clearBit, BitVec.and_assoc]
  congr 1

namespace BuddyAllocator

variable {s : BuddyAllocator}

@[simp] theorem modifyPage_pages (s : BuddyAllocator) (i j : Nat) (f : Page → Page) :
    (s.modifyPage i f).pages j = if j = i then f (s.pages j) else s.pages j := rfl

/-- What the change of one page keeps of that page it keeps of all. -/
theorem proj_of_ne {α : Type} (g : Page → α) {pages pages' : Nat → Page} {i : Nat}
    {page : Page} (hother : ∀ j, j ≠ i → pages' j = pages j) (hself : pages' i = page)
    (hg : g page = g (pages i)) (j : Nat) : g (pages' j) = g (pages j) := by
  by_cases hji : j = i
  · rw [hji, hself, hg]
  · rw [hother j hji]

section

variable (s : BuddyAllocator) (i : Nat) (f : Page → Page)

@[simp] theorem modifyPage_links : (s.modifyPage i f).links = s.links := rfl

@[simp] theorem modifyPage_pageCnt : (s.modifyPage i f).pageCnt = s.pageCnt := rfl

@[simp] theorem modifyPage_lock : (s.modifyPage i f).lock = s.lock := rfl

@[simp] theorem modifyPage_addr : (s.modifyPage i f).addr = s.addr := rfl

end

@[simp] theorem setLinks_links (s : BuddyAllocator) (links : Links PageNode) :
    (s.setLinks links).links = links := rfl

@[simp] theorem setLinks_pages (s : BuddyAllocator) (links : Links PageNode) :
    (s.setLinks links).pages = s.pages := rfl

@[simp] theorem setLinks_pageCnt (s : BuddyAllocator) (links : Links PageNode) :
    (s.setLinks links).pageCnt = s.pageCnt := rfl

@[simp] theorem setLock_links (s : BuddyAllocator) (lock : Bool) :
    (s.setLock lock).links = s.links := rfl

@[simp] theorem setLock_pages (s : BuddyAllocator) (lock : Bool) :
    (s.setLock lock).pages = s.pages := rfl

@[simp] theorem setLock_lock (s : BuddyAllocator) (lock : Bool) : (s.setLock lock).lock = lock := rfl

def roots : Set PageNode := {a | ∃ k ≤ maxOrder, a = .root k}

theorem root_mem_roots {k : Nat} (hk : k ≤ maxOrder) : PageNode.root k ∈ roots := ⟨k, hk, rfl⟩

/-- A set of list heads that page lists may hang from. -/
structure Heads (R : Set PageNode) : Prop where
  roots_subset : roots ⊆ R
  page_notMem : ∀ i, .page i ∉ R

theorem heads_roots : Heads roots :=
  ⟨subset_rfl, fun _ ⟨_, _, he⟩ => by cases he⟩

/-- The free lists hold the free blocks, each in the list of its order. -/
def Holds (L : PageNode → List PageNode) (F : Set Block) : Prop :=
  ∀ k ≤ maxOrder, ∀ x, x ∈ L (.root k) ↔ ∃ i, x = .page i ∧ ⟨i, k⟩ ∈ F

/-- The blocks `T` tile the managed pages, `F` of them are free and `H` in nobody's hands; the lists
behind the heads `R` are `L`. A list that is not a free list links allocated pages only. -/
structure Inv (s : BuddyAllocator) (R : Set PageNode) (T F H : Set Block)
    (L : PageNode → List PageNode) : Prop where
  heads : Heads R
  tiling : Tiling s.pageCnt maxOrder T
  free_subset : F ⊆ T
  hand_subset : H ⊆ T
  hand_free : ∀ b ∈ H, b ∉ F
  head_iff : ∀ i < s.pageCnt, pageHead (s.pages i) = true ↔ ∃ b ∈ T, b.start = i
  size_eq : ∀ b ∈ T, b ∉ H → (s.pages b.start).size = orderSize b.order
  lists : Lists s.links R L
  other : ∀ a ∈ R, a ∉ roots → ∀ i, .page i ∈ L a → ∃ b ∈ T, b ∉ F ∧ b ∉ H ∧ b.start = i

/-- The first pages of the blocks `A`, and no others, are referenced. -/
structure Counted (s : BuddyAllocator) (A : Set Block) : Prop where
  pos : ∀ b ∈ A, 0 < (s.pages b.start).refCnt
  zero : ∀ i < s.pageCnt, (∀ b ∈ A, b.start ≠ i) → (s.pages i).refCnt = 0

theorem Counted.congr {s s' : BuddyAllocator} {A : Set Block} (hc : Counted s A)
    (href : ∀ i, (s'.pages i).refCnt = (s.pages i).refCnt) (hcnt : s'.pageCnt = s.pageCnt) :
    Counted s' A := by
  refine ⟨?_, ?_⟩
  · intro b hb
    rw [href]
    exact hc.pos b hb
  · intro i hi hno
    rw [href]
    exact hc.zero i (hcnt ▸ hi) hno

/-- The state holds the tiling `T` with the free blocks `F`. -/
def Tiled (s : BuddyAllocator) (T F : Set Block) : Prop :=
  ∃ L, Inv s roots T F ∅ L ∧ Holds L F ∧ Counted s (T \ F)

/-- The managed pages are cut into aligned blocks; the first page of each block, and no other, is a
head and records the size; the free blocks are those in the free lists; and exactly the first pages
of the allocated blocks are referenced. -/
def WellFormed (s : BuddyAllocator) : Prop := ∃ T F, s.Tiled T F

variable {R : Set PageNode} {T F H : Set Block} {L : PageNode → List PageNode} {b : Block}

theorem orderSize_eq (k : Nat) : orderSize k = 4096 * 2 ^ k := by
  rw [orderSize, Nat.shiftLeft_eq, Nat.shiftLeft_eq, Nat.one_mul, Nat.mul_comm]

theorem orderSize_shiftRight (k : Nat) : orderSize k >>> 12 = 2 ^ k := by
  rw [orderSize_eq, Nat.shiftRight_eq_div_pow, Nat.mul_comm]
  exact Nat.mul_div_cancel _ (by decide)

theorem orderCnt_eq (k : Nat) : orderCnt k = 2 ^ k := by
  rw [orderCnt, Nat.shiftLeft_eq, Nat.one_mul]

theorem orderSize_injective {j k : Nat} (h : orderSize j = orderSize k) : j = k := by
  rw [orderSize_eq, orderSize_eq] at h
  exact Nat.pow_right_injective le_rfl (Nat.eq_of_mul_eq_mul_left (by decide) h)

namespace Inv

variable {s' : BuddyAllocator} {L' : PageNode → List PageNode}

theorem start_lt (hs : Inv s R T F H L) (hb : b ∈ T) : b.start < s.pageCnt :=
  hs.tiling.start_lt hb

theorem congr (hs : Inv s R T F H L) (hcnt : s'.pageCnt = s.pageCnt) (hlinks : s'.links = s.links)
    (hhead : ∀ i < s.pageCnt, pageHead (s'.pages i) = pageHead (s.pages i))
    (hsize : ∀ i, (s'.pages i).size = (s.pages i).size) : Inv s' R T F H L := by
  refine ⟨hs.heads, hcnt ▸ hs.tiling, hs.free_subset, hs.hand_subset, hs.hand_free, ?_, ?_,
    hlinks ▸ hs.lists, hs.other⟩
  · intro i hi
    rw [hhead i (hcnt ▸ hi), hs.head_iff i (hcnt ▸ hi)]
  · intro c hc hcH
    rw [hsize, hs.size_eq c hc hcH]

theorem notMem_of_start (hs : Inv s R T F H L) (hb : b ∈ H) (k : Nat) : ⟨b.start, k⟩ ∉ F := by
  intro hfree
  have heq : b = ⟨b.start, k⟩ :=
    hs.tiling.eq_of_start_eq (hs.hand_subset hb) (hs.free_subset hfree) rfl
  exact hs.hand_free b hb (heq ▸ hfree)

theorem notMem_lists {G : Set Block} {i : Nat} (hs : Inv s R T F H L) (hL : Holds L G)
    (hfree : ∀ k, ⟨i, k⟩ ∉ G) (halloc : ∀ a ∈ R, a ∉ roots → .page i ∉ L a) :
    ∀ a ∈ R, PageNode.page i ∉ a :: L a := by
  intro a ha hmem
  rcases List.mem_cons.1 hmem with he | hmem
  · exact hs.heads.page_notMem i (he ▸ ha)
  · by_cases hroot : a ∈ roots
    · obtain ⟨k, hk, rfl⟩ := hroot
      obtain ⟨j, hj, hG⟩ := (hL k hk _).1 hmem
      cases hj
      exact hfree k hG
    · exact halloc a ha hroot hmem

theorem take (hs : Inv s R T F ∅ L) (hb : b ∈ F) : Inv s R T (F \ {b}) {b} L := by
  refine ⟨hs.heads, hs.tiling, fun c hc => hs.free_subset hc.1, ?_, ?_, hs.head_iff, ?_, hs.lists, ?_⟩
  · intro c hc
    rw [hc]
    exact hs.free_subset hb
  · intro c hc hmem
    exact hmem.2 hc
  · intro c hc _
    exact hs.size_eq c hc (Set.notMem_empty c)
  · intro a ha hroot i hi
    obtain ⟨c, hc, hcF, _, hstart⟩ := hs.other a ha hroot i hi
    exact ⟨c, hc, fun hmem => hcF hmem.1, fun he => hcF (he ▸ hb), hstart⟩

section

variable (hs : Inv s R T F {b.parent} L) (halign : b.Aligned)
include hs halign

theorem ne_halves {c : Block} (hc : c ∈ T)
    (hne : c ≠ b.parent) : c.start ≠ b.buddy.start ∧ c ≠ b.buddy ∧ c ≠ b := by
  have hout : ∀ i ∈ b.parent, i ∉ c := fun i hi hic =>
    hne (hs.tiling.eq_of_mem c hc _ (hs.hand_subset rfl) i hic hi)
  have hb := hout _ ((Block.mem_parent halign).2 (Or.inl b.start_mem))
  have hbuddy := hout _ ((Block.mem_parent halign).2 (Or.inr b.buddy.start_mem))
  refine ⟨?_, ?_, ?_⟩
  · intro he
    exact hbuddy (he ▸ c.start_mem)
  · rintro rfl
    exact hbuddy b.buddy.start_mem
  · rintro rfl
    exact hb c.start_mem

theorem split (hcnt : s'.pageCnt = s.pageCnt) (hsame : ∀ i, i ≠ b.buddy.start → s'.pages i = s.pages i)
    (hhead : pageHead (s'.pages b.buddy.start) = true)
    (hsize : (s'.pages b.buddy.start).size = orderSize b.order)
    (hlists : Lists s'.links R L') (hother : ∀ a, a ∉ roots → L' a = L a)
    (hstart : b.parent.start = b.start) :
    Inv s' R (insert b (insert b.buddy (T \ {b.parent}))) (insert b.buddy F) {b} L' := by
  have hparent : b.parent ∈ T := hs.hand_subset rfl
  have hnot := fun c hc hne => hs.ne_halves (c := c) halign hc hne
  refine ⟨hs.heads, ?_, ?_, ?_, ?_, ?_, ?_, hlists, ?_⟩
  · rw [hcnt]
    exact hs.tiling.refine halign hparent
  · rintro c (rfl | hc)
    · exact Or.inr (Or.inl rfl)
    · have hne : c ≠ b.parent := fun he => hs.hand_free _ rfl (he ▸ hc)
      exact Or.inr (Or.inr ⟨hs.free_subset hc, hne⟩)
  · rintro c rfl
    exact Or.inl rfl
  · rintro c rfl (hmem | hmem)
    · exact Block.buddy_ne halign hmem.symm
    · have hne : c ≠ c.parent := fun he => by
        have := congrArg Block.order he
        rw [Block.parent_order] at this
        omega
      exact (hnot c (hs.free_subset hmem) hne).2.2 rfl
  · intro i hi
    rw [hcnt] at hi
    by_cases hib : i = b.buddy.start
    · subst hib
      exact iff_of_true hhead ⟨b.buddy, Or.inr (Or.inl rfl), rfl⟩
    · rw [hsame i hib, hs.head_iff i hi]
      constructor
      · rintro ⟨c, hc, rfl⟩
        by_cases hne : c = b.parent
        · exact ⟨b, Or.inl rfl, by rw [hne, hstart]⟩
        · exact ⟨c, Or.inr (Or.inr ⟨hc, hne⟩), rfl⟩
      · rintro ⟨c, rfl | rfl | hc, rfl⟩
        · exact ⟨_, hparent, hstart⟩
        · exact absurd rfl hib
        · exact ⟨c, hc.1, rfl⟩
  · rintro c (rfl | rfl | ⟨hc, hne⟩) hcb
    · exact absurd rfl hcb
    · rw [hsize, Block.buddy_order]
    · rw [hsame _ (hnot c hc hne).1]
      exact hs.size_eq c hc hne
  · intro a ha hroot i hi
    rw [hother a hroot] at hi
    obtain ⟨c, hc, hcF, hne, hci⟩ := hs.other a ha hroot i hi
    obtain ⟨_, hcbuddy, hcb⟩ := hnot c hc hne
    refine ⟨c, Or.inr (Or.inr ⟨hc, hne⟩), ?_, hcb, hci⟩
    rintro (hmem | hmem)
    · exact hcbuddy hmem
    · exact hcF hmem

theorem split_allocated : (insert b (insert b.buddy (T \ {b.parent})) \ insert b.buddy F) \ {b} =
      (T \ F) \ {b.parent} := by
  ext c
  constructor
  · rintro ⟨⟨rfl | rfl | ⟨hc, hne⟩, hcF⟩, hcb⟩
    · exact absurd rfl hcb
    · exact absurd (Or.inl rfl) hcF
    · exact ⟨⟨hc, fun hmem => hcF (Or.inr hmem)⟩, hne⟩
  · rintro ⟨⟨hc, hcF⟩, hne⟩
    obtain ⟨_, hcbuddy, hcb⟩ := hs.ne_halves halign hc hne
    refine ⟨⟨Or.inr (Or.inr ⟨hc, hne⟩), ?_⟩, hcb⟩
    rintro (hmem | hmem)
    · exact hcbuddy hmem
    · exact hcF hmem

end

theorem give (hs : Inv s R T F {b} L) (hcnt : s'.pageCnt = s.pageCnt)
    (hsame : ∀ i, i ≠ b.start → s'.pages i = s.pages i)
    (hhead : pageHead (s'.pages b.start) = pageHead (s.pages b.start))
    (hsize : (s'.pages b.start).size = orderSize b.order)
    (hlists : Lists s'.links R L') (hlist : ∀ a, a ∉ roots → L' a = L a) : Inv s' R T F ∅ L' := by
  have hb : b ∈ T := hs.hand_subset rfl
  have hother : ∀ c ∈ T, c ≠ b → c.start ≠ b.start :=
    fun c hc hne he => hne (hs.tiling.eq_of_start_eq hc hb he)
  refine ⟨hs.heads, ?_, hs.free_subset, Set.empty_subset T, fun c hc => absurd hc (Set.notMem_empty c),
    ?_, ?_, hlists, ?_⟩
  · rw [hcnt]
    exact hs.tiling
  · intro i hi
    rw [hcnt] at hi
    rw [← hs.head_iff i hi]
    by_cases hib : i = b.start
    · rw [hib, hhead]
    · rw [hsame i hib]
  · intro c hc _
    by_cases hcb : c = b
    · rw [hcb, hsize]
    · rw [hsame _ (hother c hc hcb)]
      exact hs.size_eq c hc hcb
  · intro a ha hroot i hi
    rw [hlist a hroot] at hi
    obtain ⟨c, hc, hcF, _, hci⟩ := hs.other a ha hroot i hi
    exact ⟨c, hc, hcF, Set.notMem_empty c, hci⟩

theorem drop (hs : Inv s R T F ∅ L) (hb : b ∈ T) (hbF : b ∉ F) (hcnt : s'.pageCnt = s.pageCnt)
    (hsame : ∀ i, i ≠ b.start → s'.pages i = s.pages i)
    (hhead : pageHead (s'.pages b.start) = true) (hlinks : s'.links = s.links)
    (hlist : ∀ a ∈ R, a ∉ roots → .page b.start ∉ L a) : Inv s' R T F {b} L := by
  have hother : ∀ c ∈ T, c ≠ b → c.start ≠ b.start :=
    fun c hc hne he => hne (hs.tiling.eq_of_start_eq hc hb he)
  refine ⟨hs.heads, ?_, hs.free_subset, ?_, ?_, ?_, ?_, ?_, ?_⟩
  · rw [hcnt]
    exact hs.tiling
  · rintro c rfl
    exact hb
  · rintro c rfl
    exact hbF
  · intro i hi
    rw [hcnt] at hi
    by_cases hib : i = b.start
    · rw [hib]
      exact iff_of_true hhead ⟨b, hb, rfl⟩
    · rw [hsame i hib, hs.head_iff i hi]
  · intro c hc hcb
    rw [hsame _ (hother c hc hcb)]
    exact hs.size_eq c hc (Set.notMem_empty c)
  · rw [hlinks]
    exact hs.lists
  · intro a ha hroot i hi
    obtain ⟨c, hc, hcF, _, hci⟩ := hs.other a ha hroot i hi
    refine ⟨c, hc, hcF, ?_, hci⟩
    rintro rfl
    exact hlist a ha hroot (hci ▸ hi)

theorem join (hs : Inv s R T F {b} L) (hbuddy : b.buddy ∈ F) (hord : b.order < maxOrder)
    (hcnt : s'.pageCnt = s.pageCnt) (hhead : ∀ i, i ≠ max b.start b.buddy.start →
      pageHead (s'.pages i) = pageHead (s.pages i))
    (hclear : pageHead (s'.pages (max b.start b.buddy.start)) = false)
    (hsize : ∀ i, i ≠ b.parent.start → (s'.pages i).size = (s.pages i).size)
    (hlists : Lists s'.links R L')
    (hlist : ∀ a, a ∉ roots → L' a = L a) :
    Inv s' R (insert b.parent (T \ {b, b.buddy})) (F \ {b.buddy}) {b.parent} L' := by
  have hb : b ∈ T := hs.hand_subset rfl
  have hbT : b.buddy ∈ T := hs.free_subset hbuddy
  have halign := hs.tiling.aligned b hb
  have htiling := hs.tiling.coarsen hb hbT hord
  have hne : b.buddy ≠ b := Block.buddy_ne halign
  have hstart : b.parent.start = min b.start b.buddy.start := rfl
  -- The two halves start at the two ends of the pair: one at the parent's start, one at `max`.
  have hends : ∀ i, (i = b.start ∨ i = b.buddy.start) ↔
      i = b.parent.start ∨ i = max b.start b.buddy.start := by
    intro i
    rw [hstart]
    rcases Nat.le_total b.start b.buddy.start with hle | hle
    · rw [Nat.min_eq_left hle, Nat.max_eq_right hle]
    · rw [Nat.min_eq_right hle, Nat.max_eq_left hle, or_comm]
  have hstarts : ∀ c ∈ T \ {b, b.buddy}, c.start ≠ b.start ∧ c.start ≠ b.buddy.start := by
    rintro c ⟨hc, hcne⟩
    exact ⟨fun he => hcne (Or.inl (hs.tiling.eq_of_start_eq hc hb he)),
      fun he => hcne (Or.inr (hs.tiling.eq_of_start_eq hc hbT he))⟩
  have hparentNe : ∀ c ∈ T \ {b, b.buddy}, c.start ≠ b.parent.start := by
    intro c hc he
    rcases (hends c.start).2 (Or.inl he) with he | he
    · exact (hstarts c hc).1 he
    · exact (hstarts c hc).2 he
  have hmaxNe : max b.start b.buddy.start ≠ b.parent.start := by
    have hstarts : b.start ≠ b.buddy.start := fun he =>
      hne (hs.tiling.eq_of_start_eq hbT hb he.symm)
    rw [hstart]
    omega
  refine ⟨hs.heads, ?_, ?_, ?_, ?_, ?_, ?_, hlists, ?_⟩
  · rw [hcnt]
    exact htiling
  · rintro c ⟨hc, hcne⟩
    refine Or.inr ⟨hs.free_subset hc, ?_⟩
    rintro (rfl | hmem)
    · exact hs.hand_free c rfl hc
    · exact hcne hmem
  · rintro c rfl
    exact Or.inl rfl
  · rintro c rfl ⟨hmem, _⟩
    have hin := hs.tiling.eq_of_mem _ (hs.free_subset hmem) b hb b.start
      ((Block.mem_parent halign).2 (Or.inl b.start_mem)) b.start_mem
    have := congrArg Block.order hin
    rw [Block.parent_order] at this
    omega
  · intro i hi
    rw [hcnt] at hi
    by_cases him : i = max b.start b.buddy.start
    · rw [him, hclear]
      refine iff_of_false (by simp) ?_
      rintro ⟨c, rfl | hc, he⟩
      · exact hmaxNe he.symm
      · rcases (hends c.start).2 (Or.inr he) with he | he
        · exact (hstarts c hc).1 he
        · exact (hstarts c hc).2 he
    · rw [hhead i him, hs.head_iff i hi]
      constructor
      · rintro ⟨c, hc, rfl⟩
        by_cases hcb : c = b ∨ c = b.buddy
        · have hcs : c.start = b.start ∨ c.start = b.buddy.start := by
            rcases hcb with rfl | rfl
            · exact Or.inl rfl
            · exact Or.inr rfl
          rcases (hends c.start).1 hcs with he | he
          · exact ⟨b.parent, Or.inl rfl, he.symm⟩
          · exact absurd he him
        · exact ⟨c, Or.inr ⟨hc, by simpa using hcb⟩, rfl⟩
      · rintro ⟨c, rfl | hc, rfl⟩
        · rcases (hends b.parent.start).2 (Or.inl rfl) with he | he
          · exact ⟨b, hb, he.symm⟩
          · exact ⟨b.buddy, hbT, he.symm⟩
        · exact ⟨c, hc.1, rfl⟩
  · rintro c (rfl | hc) hcp
    · exact absurd rfl hcp
    · rw [hsize _ (hparentNe c hc)]
      exact hs.size_eq c hc.1 fun he => hc.2 (Or.inl he)
  · intro a ha hroot i hi
    rw [hlist a hroot] at hi
    obtain ⟨c, hc, hcF, hcb, hci⟩ := hs.other a ha hroot i hi
    have hcbuddy : c ≠ b.buddy := fun he => hcF (he ▸ hbuddy)
    have hcmem : c ∈ T \ {b, b.buddy} := ⟨hc, by simpa using ⟨hcb, hcbuddy⟩⟩
    refine ⟨c, Or.inr hcmem, fun hmem => hcF hmem.1, ?_, hci⟩
    rintro rfl
    exact hparentNe _ hcmem rfl

theorem join_allocated (hs : Inv s R T F {b} L) (hbuddy : b.buddy ∈ F) :
    (insert b.parent (T \ {b, b.buddy}) \ (F \ {b.buddy})) \ {b.parent} = (T \ F) \ {b} := by
  have hb : b ∈ T := hs.hand_subset rfl
  have halign := hs.tiling.aligned b hb
  ext c
  constructor
  · rintro ⟨⟨rfl | ⟨hc, hne⟩, hcF⟩, hcp⟩
    · exact absurd rfl hcp
    · exact ⟨⟨hc, fun hmem => hcF ⟨hmem, fun he => hne (Or.inr he)⟩⟩, fun he => hne (Or.inl he)⟩
  · rintro ⟨⟨hc, hcF⟩, hcb⟩
    have hcbuddy : c ≠ b.buddy := fun he => hcF (he ▸ hbuddy)
    refine ⟨⟨Or.inr ⟨hc, by simpa using ⟨hcb, hcbuddy⟩⟩, fun hmem => hcF hmem.1⟩, ?_⟩
    rintro rfl
    exact hcb (hs.tiling.eq_of_mem _ hc b hb b.start
      ((Block.mem_parent halign).2 (Or.inl b.start_mem)) b.start_mem)

theorem put (hs : Inv s R T F {b} L) (hcnt : s'.pageCnt = s.pageCnt) (hpages : s'.pages = s.pages)
    (hsize : (s.pages b.start).size = orderSize b.order) (hlists : Lists s'.links R L')
    (hlist : ∀ a, a ∉ roots → L' a = L a) : Inv s' R T (insert b F) ∅ L' := by
  refine ⟨hs.heads, ?_, ?_, Set.empty_subset T, fun c hc => absurd hc (Set.notMem_empty c), ?_, ?_,
    hlists, ?_⟩
  · rw [hcnt]
    exact hs.tiling
  · rintro c (rfl | hc)
    · exact hs.hand_subset rfl
    · exact hs.free_subset hc
  · rw [hcnt, hpages]
    exact hs.head_iff
  · intro c hc _
    rw [hpages]
    by_cases hcb : c = b
    · rw [hcb, hsize]
    · exact hs.size_eq c hc hcb
  · intro a ha hroot i hi
    rw [hlist a hroot] at hi
    obtain ⟨c, hc, hcF, hcb, hci⟩ := hs.other a ha hroot i hi
    refine ⟨c, hc, ?_, Set.notMem_empty c, hci⟩
    rintro (hmem | hmem)
    · exact hcb hmem
    · exact hcF hmem

end Inv

end BuddyAllocator

end QuarkOS
