import QuarkOS.Mm.BuddyOps

/-!
# Setting up the page allocator

`block_alloc.c` hands out memory before the page allocator runs: the regions of free memory, in
ascending order, from the front of which `block_alloc` takes what the kernel needs. `pmm_init_mm`
reserves the array of page structures there, and `pmm_init` gives the rest of every region to the page
allocator. The page structures of the regions follow each other in the array without a gap.
-/

namespace QuarkOS

open CList Dyadic

structure BlockInfo where
  addr : Nat
  size : Nat
deriving DecidableEq, Repr

structure BlockAllocator where
  addr : Nat
  size : Nat
  infos : List BlockInfo
deriving DecidableEq, Repr

namespace BlockAllocator

/-- `MEM_ALIGN`, for an alignment that is a power of two. -/
def memAlign (s align : Nat) : Nat := (s + align - 1) % 2 ^ 32 / align * align

/-- The first region that is large enough loses `size` bytes at its front; the result is their
address. -/
def takeFront (size : Nat) : List BlockInfo → Option (Nat × List BlockInfo)
  | [] => none
  | info :: infos =>
    if size ≤ info.size then
      some (info.addr, { addr := (info.addr + size) % 2 ^ 32, size := info.size - size } :: infos)
    else (takeFront size infos).map fun (addr, infos) => (addr, info :: infos)

/-- `blockAllocator.addr` after `size` bytes were taken: it follows the first region. -/
def startAfter (b : BlockAllocator) (size : Nat) : Nat :=
  match b.infos.head? with
  | none => b.addr
  | some info => if size ≤ info.size then (info.addr + size) % 2 ^ 32 else b.addr

def blockAlloc (b : BlockAllocator) (size : Nat) : Except Fault (Nat × BlockAllocator) := do
  assertk (size ≤ b.size)
  let size := memAlign size 4
  match takeFront size b.infos with
  | none => .error .assertk
  | some (addr, infos) => do
    assertk (addr ≠ 0)
    .ok (addr, { addr := b.startAfter size, size := (b.size + 2 ^ 32 - size) % 2 ^ 32, infos })

def blockAllocAlign (b : BlockAllocator) (size align : Nat) :
    Except Fault (Nat × BlockAllocator) := do
  assertk (4 < align ∧ align % 4 = 0)
  let (addr, b) ← b.blockAlloc ((size + align - 1) % 2 ^ 32)
  .ok (memAlign addr align, b)

def blockStart (b : BlockAllocator) : Nat := b.addr

def blockEnd (b : BlockAllocator) : Except Fault Nat :=
  match b.infos.getLast? with
  | none => .error .assertk
  | some info => .ok ((info.addr + info.size) % 2 ^ 32)

/-- The regions lie in ascending order below 4 GiB and share no byte, and the allocator knows where
the first one starts. -/
structure Ascending (b : BlockAllocator) : Prop where
  sorted : b.infos.Pairwise fun i j => i.addr + i.size ≤ j.addr
  below : ∀ i ∈ b.infos, i.addr + i.size ≤ 2 ^ 32
  addr_lt : ∀ i ∈ b.infos, i.addr < 2 ^ 32
  size_lt : ∀ i ∈ b.infos, i.size < 2 ^ 32
  addr : ∀ i ∈ b.infos.head?, b.addr = i.addr

end BlockAllocator

def pageStructSize : Nat := 64

namespace BuddyAllocator

/-- The pages of a block, from `page` on, are no holes. A page structure past the end of the array is
not there to be written. -/
def markPages : Nat → BuddyAllocator → Nat → Except Fault BuddyAllocator
  | 0, s, _ => .ok s
  | k + 1, s, page =>
    if s.pageCnt ≤ page then .error .undefined
    else markPages k (s.modifyPage page fun p => { p with flag := p.flag ||| pgPage }) (page + 1)

/-- The blocks of order `i`, as many as the second argument says. -/
def setupBlocks (i : Nat) : Nat → BuddyAllocator → Nat → Except Fault (Nat × BuddyAllocator)
  | 0, s, page => .ok (page, s)
  | cnt + 1, s, page =>
    if s.pageCnt ≤ page then .error .undefined
    else do
      let s ← markPages (orderCnt i) (s.addHalf page i) page
      setupBlocks i cnt s (page + orderCnt i)

/-- The loop over the orders; the first argument is one above the order of the next round. -/
def setupOrders : Nat → BuddyAllocator → Nat → Nat → Except Fault (Nat × BuddyAllocator)
  | 0, s, page, _ => .ok (page, s)
  | i + 1, s, page, size =>
    if size = 0 then .ok (page, s)
    else if size < orderSize i then setupOrders i s page size
    else do
      let (page, s) ← setupBlocks i (size / orderSize i) s page
      setupOrders i s page (size % orderSize i)

def wholeSize (info : BlockInfo) : Nat :=
  pageCeil ((info.size + 2 ^ 32 - (pageFloor info.addr + 2 ^ 32 - info.addr) % 2 ^ 32) % 2 ^ 32)

/-- The result is the first page structure that is not used. -/
def pageSetup (s : BuddyAllocator) (pages : Nat) (info : BlockInfo) :
    Except Fault (Nat × BuddyAllocator) := do
  let reSize := (s.pageCnt + 2 ^ 32 - pages) % 2 ^ 32
  assertk (info.size >>> 12 ≤ reSize)
  let (page, s) ← setupOrders (maxOrder + 1) s pages (wholeSize info)
  .ok (page, { s with size := (s.size + (page - pages) <<< 12) % 2 ^ 32 })

/-- The array of page structures has one for every page from the first region to the last. -/
def pmmInitMm (s : BuddyAllocator) (b : BlockAllocator) :
    Except Fault (BuddyAllocator × BlockAllocator) := do
  let fin ← b.blockEnd
  let pageCnt := ((fin + 2 ^ 32 - b.blockStart) % 2 ^ 32) >>> 12
  let (_, b) ← b.blockAllocAlign (pageCnt * pageStructSize % 2 ^ 32) pageStructSize
  .ok ({ s with pageCnt }, b)

/-- Every page structure of the array becomes that of a hole. -/
def initPages (s : BuddyAllocator) : BuddyAllocator :=
  { s with
    pages := fun i =>
      if i < s.pageCnt then
        { s.pages i with flag := 0, refCnt := 0, size := 0, magic := pageMagic
                         rwlock := rwlockInit }
      else s.pages i
    links :=
      (List.range (maxOrder + 1)).foldl (fun links j => listHeaderInit links (.root j))
        ((List.range s.pageCnt).foldl (fun links i => listHeaderInit links (.page i)) s.links) }

def setupRegions : List BlockInfo → BuddyAllocator → Nat → Except Fault (Nat × BuddyAllocator)
  | [], s, page => .ok (page, s)
  | info :: infos, s, page => do
    let (page, s) ← s.pageSetup page info
    setupRegions infos s page

/-- `pmm_init` up to the call of `test_alloc`. -/
def pmmSetup (s : BuddyAllocator) (b : BlockAllocator) : Except Fault BuddyAllocator := do
  let s := { s with size := 0, addr := pageFloor b.blockStart }
  let (page, s) ← setupRegions b.infos s.initPages 0
  .ok { s with pageCnt := page, lock := spinlockInit }

/-- `list_for_each`, with what its body does to a value; the number bounds the nodes still to go. -/
def listForEach (s : BuddyAllocator) (header : PageNode) (body : Nat → PageNode → Except Fault Nat) :
    Nat → PageNode → Nat → Except Fault Nat
  | 0, _, _ => .error .spin
  | fuel + 1, hdr, x =>
    if hdr = header then .ok x
    else do
      let x ← body x hdr
      listForEach s header body fuel (s.links.next hdr) x

def listCnt (s : BuddyAllocator) (header : PageNode) : Except Fault Nat :=
  s.listForEach header (fun cnt _ => .ok ((cnt + 1) % 2 ^ 32)) (s.pageCnt + 1) (s.links.next header) 0

/-- `page_cnt`. -/
def listedPageCnt (s : BuddyAllocator) : Except Fault Nat :=
  (List.range (maxOrder + 1)).foldlM
    (fun pageCnt j => do
      let cnt ← s.listCnt (.root j)
      .ok ((pageCnt + cnt * orderCnt j) % 2 ^ 32)) 0

def allocatorSize (s : BuddyAllocator) : Except Fault Nat :=
  (List.range (maxOrder + 1)).foldlM
    (fun size j => s.listForEach (.root j)
      (fun size hdr => do
        let page ← pageEntry hdr
        assertk ((s.pages page).size = orderSize j)
        .ok ((size + orderSize j) % 2 ^ 32))
      (s.pageCnt + 1) (s.links.next (.root j)) size) 0

/-- The first loop of `test_alloc`: the page at an address has that address. -/
def testPage (s : BuddyAllocator) (i : Nat) : Except Fault Unit := do
  let addr := (s.addr + i <<< 12) % 2 ^ 32
  match ← s.getPage addr with
  | none => .error .assertk
  | some page => assertk (addr = s.pageAddr page)

/-- `alloc_page` for each of the sizes. -/
def allocPages : List Nat → BuddyAllocator → Except Fault (List Nat × BuddyAllocator)
  | [], s => .ok ([], s)
  | size :: sizes, s => do
    let (addr, s) ← s.allocPage size
    let (pages, s) ← allocPages sizes s
    .ok (addr :: pages, s)

/-- `free_page` for each of the addresses. -/
def releasePages : List Nat → BuddyAllocator → Except Fault BuddyAllocator
  | [], s => .ok s
  | addr :: pages, s => do
    let (_, s) ← s.freePage addr
    releasePages pages s

def testAlloc (s : BuddyAllocator) : Except Fault BuddyAllocator := do
  let pageCnt ← s.listedPageCnt
  let size ← s.allocatorSize
  (List.range 10).forM s.testPage
  assertk (size = s.pageCnt <<< 12 % 2 ^ 32)
  let (pages, s) ← allocPages ((List.range maxOrder).map orderSize) s
  let (pages2, s) ← allocPages (List.replicate 20 0x1000) s
  let s ← releasePages pages s
  let s ← releasePages pages2 s
  let size' ← s.allocatorSize
  assertk (size' = size)
  let pageCnt' ← s.listedPageCnt
  assertk (pageCnt' = pageCnt)
  .ok s

def pmmInit (s : BuddyAllocator) (b : BlockAllocator) : Except Fault BuddyAllocator := do
  let s ← s.pmmSetup b
  s.testAlloc

/-- The whole pages of a region, as `page_setup` counts them. -/
def wholePages (info : BlockInfo) : Nat := wholeSize info / 4096

/-- The blocks of regions with these numbers of pages, from the page `start` on. -/
def regionBlocks : Nat → List Nat → List Block
  | _, [] => []
  | start, n :: ns => carve (maxOrder + 1) start n ++ regionBlocks (start + n) ns

/-- The pages below `page` are set up: the blocks `F` are in the free lists `L`, their first pages are
the heads, and nobody uses a page. -/
structure SettingUp (s : BuddyAllocator) (page : Nat) (F : Set Block)
    (L : PageNode → List PageNode) : Prop where
  lists : Lists s.links roots L
  holds : Holds L F
  before : ∀ b ∈ F, b.start < page
  head_iff : ∀ i < s.pageCnt, pageHead (s.pages i) = true ↔ ∃ b ∈ F, b.start = i
  size_eq : ∀ b ∈ F, (s.pages b.start).size = orderSize b.order
  refCnt : ∀ i < s.pageCnt, (s.pages i).refCnt = 0
  magic : ∀ i < s.pageCnt, (s.pages i).magic = pageMagic
  flag : ∀ i < s.pageCnt, (s.pages i).flag &&& clientFlags = 0

variable {s s' : BuddyAllocator} {page page' n : Nat} {F : Set Block} {L : PageNode → List PageNode}

section

variable (hs : SettingUp s page F L)
include hs

theorem SettingUp.mono (hle : page ≤ page') : SettingUp s page' F L :=
  { hs with before := fun b hb => (hs.before b hb).trans_le hle }

theorem SettingUp.congr (hlinks : s'.links = s.links)
    (hcnt : s'.pageCnt ≤ s.pageCnt)
    (hpages : ∀ i, pageHead (s'.pages i) = pageHead (s.pages i) ∧
      (s'.pages i).size = (s.pages i).size ∧ (s'.pages i).refCnt = (s.pages i).refCnt ∧
      (s'.pages i).magic = (s.pages i).magic ∧
      (s'.pages i).flag &&& clientFlags = (s.pages i).flag &&& clientFlags) :
    SettingUp s' page F L where
  lists := hlinks ▸ hs.lists
  holds := hs.holds
  before := hs.before
  head_iff i hi := by rw [(hpages i).1, hs.head_iff i (hi.trans_le hcnt)]
  size_eq b hb := by rw [(hpages _).2.1, hs.size_eq b hb]
  refCnt i hi := by rw [(hpages i).2.2.1, hs.refCnt i (hi.trans_le hcnt)]
  magic i hi := by rw [(hpages i).2.2.2.1, hs.magic i (hi.trans_le hcnt)]
  flag i hi := by rw [(hpages i).2.2.2.2, hs.flag i (hi.trans_le hcnt)]

theorem SettingUp.notMem : ∀ a ∈ roots, PageNode.page page ∉ a :: L a := by
  rintro a ⟨k, hk, rfl⟩ hmem
  rcases List.mem_cons.1 hmem with he | hmem
  · cases he
  · obtain ⟨i, hi, hF⟩ := (hs.holds k hk _).1 hmem
    cases hi
    exact absurd (hs.before _ hF) (Nat.lt_irrefl _)

theorem SettingUp.addHalf {i : Nat} (hi : i ≤ maxOrder) :
    ∃ L', SettingUp (s.addHalf page i) (page + 1) (insert ⟨page, i⟩ F) L' := by
  have hother : ∀ b ∈ F, b.start ≠ page := fun b hb he =>
    absurd (hs.before b hb) (by rw [he]; exact Nat.lt_irrefl _)
  have hquiet : Quiet s (s.addHalf page i) ∅ := addHalf_quiet fun c hc => absurd hc (Set.notMem_empty c)
  refine ⟨_, hs.lists.addPrev (root_mem_roots hi) hs.notMem, hs.holds.add (b := ⟨page, i⟩),
    ?_, ?_, ?_, ?_, ?_, ?_⟩
  · rintro b (rfl | hb)
    · exact Nat.lt_succ_self _
    · exact (hs.before b hb).trans (Nat.lt_succ_self _)
  · intro j hj
    by_cases hjp : j = page
    · subst hjp
      rw [addHalf_self]
      exact iff_of_true (pageHead_or rfl) ⟨_, Or.inl rfl, rfl⟩
    · rw [addHalf_of_ne hjp, hs.head_iff j hj]
      constructor
      · rintro ⟨b, hb, rfl⟩
        exact ⟨b, Or.inr hb, rfl⟩
      · rintro ⟨b, rfl | hb, rfl⟩
        · exact absurd rfl hjp
        · exact ⟨b, hb, rfl⟩
  · rintro b (rfl | hb)
    · rw [addHalf_self]
    · rw [addHalf_of_ne (hother b hb), hs.size_eq b hb]
  · exact fun j hj => (hquiet.refCnt j).trans (hs.refCnt j hj)
  · exact fun j hj => (hquiet.magic j).trans (hs.magic j hj)
  · exact fun j hj => (hquiet.flag j).trans (hs.flag j hj)

end

theorem markPages_spec (k : Nat) : ∀ {s : BuddyAllocator} {page : Nat}, markPages k s page = .ok s' →
    (page ≤ s.pageCnt → page + k ≤ s.pageCnt) ∧ s' = { s with pages := s'.pages } ∧
      ∀ i, s'.pages i = s.pages i ∨
        s'.pages i = { s.pages i with flag := (s.pages i).flag ||| pgPage } := by
  induction k with
  | zero =>
    intro s page hok
    cases hok
    exact ⟨id, rfl, fun _ => Or.inl rfl⟩
  | succ k ih =>
    intro s page hok
    rw [markPages] at hok
    split at hok
    · cases hok
    rename_i hlt
    obtain ⟨hle, heq, hpages⟩ := ih hok
    refine ⟨fun _ => ?_, heq, ?_⟩
    · have := hle (Nat.not_le.1 hlt)
      rw [modifyPage_pageCnt] at this
      omega
    · intro i
      obtain hi | hi := hpages i <;> rw [hi, modifyPage_pages] <;> split
      · exact Or.inr rfl
      · exact Or.inl rfl
      · right
        simp only [BitVec.or_assoc, BitVec.or_self]
      · exact Or.inr rfl

theorem SettingUp.markPages {k : Nat} (hs : SettingUp s page F L)
    (hok : markPages k s page' = .ok s') : SettingUp s' page F L := by
  obtain ⟨_, heq, hpages⟩ := markPages_spec k hok
  refine hs.congr (by rw [heq]) (by rw [heq]) ?_
  intro i
  obtain hi | hi := hpages i <;> rw [hi]
  · exact ⟨rfl, rfl, rfl, rfl, rfl⟩
  · refine ⟨?_, rfl, rfl, rfl, or_and_clientFlags _ (by decide)⟩
    rw [pageHead_eq, pageHead_eq, BitVec.getLsbD_or]
    simp [pgPage]

/-- The next `n` pages are set up as the blocks `B`, and the counter of free memory has grown by `size`. -/
structure SetUp (s s' : BuddyAllocator) (page page' n size : Nat) (B : Set Block) : Prop where
  page_eq : page' = page + n
  fits : page ≤ s.pageCnt → page' ≤ s.pageCnt
  addr : s'.addr = s.addr
  size_eq : s'.size % 2 ^ 32 = (s.size + size) % 2 ^ 32
  pageCnt : s'.pageCnt = s.pageCnt
  blocks : ∀ {F L}, SettingUp s page F L → ∃ L', SettingUp s' page' (F ∪ B) L'

theorem SetUp.refl {B : Set Block} (hn : n = 0) (hB : ∀ b, b ∉ B) : SetUp s s page page n 0 B := by
  subst hn
  refine ⟨rfl, id, rfl, rfl, rfl, fun {F L} hs => ⟨L, ?_⟩⟩
  rw [Set.eq_empty_of_forall_notMem hB, Set.union_empty]
  exact hs

theorem SetUp.trans {s1 : BuddyAllocator} {page1 n1 n2 size1 size2 : Nat} {B B1 B2 : Set Block}
    (h1 : SetUp s s1 page page1 n1 size1 B1) (h2 : SetUp s1 s' page1 page' n2 size2 B2)
    (hn : n = n1 + n2) (hB : ∀ b, b ∈ B ↔ b ∈ B1 ∨ b ∈ B2) :
    SetUp s s' page page' n (size1 + size2) B where
  page_eq := by rw [h2.page_eq, h1.page_eq, hn, Nat.add_assoc]
  fits hle := h1.pageCnt ▸ h2.fits (h1.pageCnt.symm ▸ h1.fits hle)
  addr := h2.addr.trans h1.addr
  size_eq := by rw [h2.size_eq, Nat.add_mod, h1.size_eq, ← Nat.add_mod, Nat.add_assoc]
  pageCnt := h2.pageCnt.trans h1.pageCnt
  blocks hs := by
    obtain ⟨L1, hs1⟩ := h1.blocks hs
    rw [show B = B1 ∪ B2 from Set.ext hB, ← Set.union_assoc]
    exact h2.blocks hs1

theorem setupBlocks_spec {i : Nat} (hi : i ≤ maxOrder) (cnt : Nat) :
    ∀ {s : BuddyAllocator} {page : Nat}, setupBlocks i cnt s page = .ok (page', s') →
      SetUp s s' page page' (cnt * 2 ^ i) 0 {b | ∃ j < cnt, b = ⟨page + j * 2 ^ i, i⟩} := by
  induction cnt with
  | zero =>
    intro s page hok
    cases hok
    exact .refl (Nat.zero_mul _) fun b ⟨j, hj, _⟩ => Nat.not_lt_zero j hj
  | succ cnt ih =>
    intro s page hok
    rw [setupBlocks] at hok
    split at hok
    · cases hok
    obtain ⟨s1, hmark, hrest⟩ := bind_eq_ok hok
    obtain ⟨hle, heq, _⟩ := markPages_spec _ hmark
    have hpos := Nat.two_pow_pos i
    have hnext : page + 1 ≤ page + orderCnt i := by
      rw [orderCnt_eq]
      omega
    have hfirst : SetUp s s1 page (page + orderCnt i) (2 ^ i) 0 {⟨page, i⟩} := by
      refine ⟨by rw [orderCnt_eq], hle, by rw [heq]; rfl, by rw [heq]; rfl, by rw [heq]; rfl, fun hs => ?_⟩
      obtain ⟨L1, hs1⟩ := hs.addHalf hi
      exact ⟨L1, Set.union_singleton ▸ (hs1.markPages hmark).mono hnext⟩
    refine hfirst.trans (ih hrest) (by rw [Nat.succ_mul, Nat.add_comm]) fun b => ?_
    rw [orderCnt_eq]
    constructor
    · rintro ⟨j, hj, rfl⟩
      cases j with
      | zero => exact Or.inl (by rw [Nat.zero_mul]; rfl)
      | succ j => exact Or.inr ⟨j, by omega, by rw [Nat.succ_mul]; congr 1; omega⟩
    · rintro (rfl | ⟨j, hj, rfl⟩)
      · exact ⟨0, Nat.succ_pos _, by rw [Nat.zero_mul, Nat.add_zero]⟩
      · exact ⟨j + 1, by omega, by rw [Nat.succ_mul]; congr 1; omega⟩

theorem setupOrders_spec (k : Nat) :
    ∀ {s : BuddyAllocator} {page n : Nat}, k ≤ maxOrder + 1 → (k = 0 → n = 0) →
      setupOrders k s page (4096 * n) = .ok (page', s') →
      SetUp s s' page page' n 0 {b | b ∈ carve k page n} := by
  induction k with
  | zero =>
    intro s page n _ hn hok
    cases hok
    exact .refl (hn rfl) fun b => List.not_mem_nil
  | succ k ih =>
    intro s page n hk _ hok
    rw [setupOrders] at hok
    split at hok
    · cases hok
      refine .refl (by omega) fun b hb => ?_
      have hle := (carve_within b hb).2
      have hpos := Nat.two_pow_pos b.order
      omega
    split at hok
    · -- No block of this order fits, so the next order goes on with all pages.
      rename_i hlt
      rw [orderSize_eq] at hlt
      have hnk : n < 2 ^ k := Nat.lt_of_mul_lt_mul_left hlt
      have hskip : {b | b ∈ carve (k + 1) page n} = {b | b ∈ carve k page n} := by
        ext b
        rw [Set.mem_ofPred_eq, mem_carve_succ, Nat.div_eq_of_lt hnk, Nat.mod_eq_of_lt hnk,
          Nat.zero_mul, Nat.add_zero]
        exact ⟨fun h => h.resolve_left fun ⟨j, hj, _⟩ => absurd hj (Nat.not_lt_zero j), Or.inr⟩
      rw [hskip]
      refine ih (by omega) ?_ hok
      rintro rfl
      rw [pow_zero] at hnk
      omega
    · obtain ⟨⟨page1, s1⟩, hblocks, hrest⟩ := bind_eq_ok hok
      rw [orderSize_eq, Nat.mul_div_mul_left _ _ (by decide)] at hblocks
      rw [orderSize_eq, Nat.mul_mod_mul_left] at hrest
      have hfirst := setupBlocks_spec (Nat.le_of_succ_le_succ hk) _ hblocks
      obtain rfl := hfirst.page_eq
      exact hfirst.trans (ih (by omega) (by rintro rfl; exact Nat.mod_one n) hrest)
        (Nat.div_add_mod' n (2 ^ k)).symm fun b => mem_carve_succ

theorem wholeSize_eq (info : BlockInfo) : wholeSize info = 4096 * wholePages info := by
  rw [wholePages, wholeSize, pageCeil]
  omega

theorem pageSetup_spec {info : BlockInfo} (hok : s.pageSetup page info = .ok (page', s')) :
    SetUp s s' page page' (wholePages info) (4096 * wholePages info)
      {b | b ∈ carve (maxOrder + 1) page (wholePages info)} := by
  obtain ⟨_, _, hok⟩ := bind_eq_ok hok
  obtain ⟨⟨page1, s1⟩, horders, hret⟩ := bind_eq_ok hok
  cases hret
  rw [wholeSize_eq] at horders
  have h := setupOrders_spec (maxOrder + 1) le_rfl (fun h => absurd h (by decide)) horders
  refine ⟨h.page_eq, h.fits, h.addr, ?_, h.pageCnt, fun hs => ?_⟩
  · have hsize := h.size_eq
    rw [h.page_eq, Nat.add_sub_cancel_left, Nat.shiftLeft_eq]
    dsimp only
    omega
  · obtain ⟨L', hs'⟩ := h.blocks hs
    exact ⟨L', hs'.congr rfl le_rfl fun _ => ⟨rfl, rfl, rfl, rfl, rfl⟩⟩

theorem setupRegions_spec (infos : List BlockInfo) : ∀ {s : BuddyAllocator} {page : Nat},
    setupRegions infos s page = .ok (page', s') → SetUp s s' page page' (infos.map wholePages).sum
      (4096 * (infos.map wholePages).sum) {b | b ∈ regionBlocks page (infos.map wholePages)} := by
  induction infos with
  | nil =>
    intro s page hok
    cases hok
    exact .refl rfl fun b => List.not_mem_nil
  | cons info infos ih =>
    intro s page hok
    obtain ⟨⟨page1, s1⟩, hsetup, hrest⟩ := bind_eq_ok hok
    have hfirst := pageSetup_spec hsetup
    obtain rfl := hfirst.page_eq
    rw [List.map_cons, List.sum_cons, Nat.mul_add]
    exact hfirst.trans (ih hrest) rfl fun b => List.mem_append

theorem foldl_listHeaderInit {α : Type} [DecidableEq α] (l : List α) : ∀ (h : Links α) (x : α),
    (l.foldl listHeaderInit h).next x = (if x ∈ l then x else h.next x) ∧
      (l.foldl listHeaderInit h).prev x = (if x ∈ l then x else h.prev x) := by
  induction l with
  | nil => exact fun h x => ⟨rfl, rfl⟩
  | cons y l ih =>
    intro h x
    obtain ⟨hnext, hprev⟩ := ih (listHeaderInit h y) x
    rw [List.foldl_cons, hnext, hprev]
    by_cases hx : x ∈ l
    · simp [hx]
    · by_cases hxy : x = y <;> simp [hx, hxy, listHeaderInit]

theorem initPages_settingUp (s : BuddyAllocator) : SettingUp s.initPages 0 ∅ fun _ => [] := by
  have hlinks : s.initPages.links = ((List.range (maxOrder + 1)).map PageNode.root).foldl
      listHeaderInit ((List.range s.pageCnt).foldl (fun links i => listHeaderInit links (.page i))
        s.links) := by
    rw [List.foldl_map]
    rfl
  have hroot : ∀ k ≤ maxOrder, PageNode.root k ∈ (List.range (maxOrder + 1)).map PageNode.root :=
    fun k hk => List.mem_map.2 ⟨k, List.mem_range.2 (by omega), rfl⟩
  have hpage : ∀ i < s.pageCnt, s.initPages.pages i = { s.pages i with
      flag := 0, refCnt := 0, size := 0, magic := pageMagic, rwlock := rwlockInit } :=
    fun i hi => if_pos hi
  refine ⟨⟨?_, ?_⟩, ?_, ?_, ?_, ?_, ?_, ?_, ?_⟩
  · rintro a ⟨k, hk, rfl⟩
    obtain ⟨hnext, hprev⟩ := foldl_listHeaderInit ((List.range (maxOrder + 1)).map PageNode.root)
      ((List.range s.pageCnt).foldl (fun links i => listHeaderInit links (.page i)) s.links)
      (.root k)
    rw [if_pos (hroot k hk)] at hnext hprev
    rw [hlinks]
    exact ⟨⟨hnext, hprev⟩, List.nodup_singleton _⟩
  · intro a _ b _ hne x hx
    rw [List.mem_singleton] at hx ⊢
    exact hx ▸ hne
  · intro k _ x
    exact iff_of_false List.not_mem_nil fun ⟨_, _, h⟩ => h
  · exact fun b hb => absurd hb (Set.notMem_empty b)
  · intro i hi
    rw [hpage i hi]
    refine iff_of_false ?_ fun ⟨b, hb, _⟩ => hb
    simp [pageHead]
  · exact fun b hb => absurd hb (Set.notMem_empty b)
  · intro i hi
    rw [hpage i hi]
  · intro i hi
    rw [hpage i hi]
  · intro i hi
    rw [hpage i hi]
    exact BitVec.zero_and

/-- The page structures of all regions follow each other, and the free lists hold the blocks that they
were cut into. -/
theorem pmmSetup_spec {b : BlockAllocator} (hok : s.pmmSetup b = .ok s') :
    s'.addr = pageFloor b.addr ∧ s'.pageCnt = (b.infos.map wholePages).sum ∧
      (s'.lock = false ∧ s'.size % 2 ^ 32 = 4096 * s'.pageCnt % 2 ^ 32) ∧
      ∃ L, SettingUp s' s'.pageCnt {c | c ∈ regionBlocks 0 (b.infos.map wholePages)} L := by
  obtain ⟨⟨page, s1⟩, hregions, hret⟩ := bind_eq_ok hok
  cases hret
  have h := setupRegions_spec _ hregions
  obtain ⟨L, hs⟩ := h.blocks (initPages_settingUp _)
  have hpage := h.page_eq
  rw [Nat.zero_add] at hpage
  rw [Set.empty_union] at hs
  refine ⟨h.addr, hpage, ⟨rfl, ?_⟩, L, hs.congr rfl (h.pageCnt ▸ h.fits (Nat.zero_le _))
    fun _ => ⟨rfl, rfl, rfl, rfl, rfl⟩⟩
  rw [hpage]
  exact h.size_eq.trans (congrArg (· % 2 ^ 32) (Nat.zero_add _))

end BuddyAllocator

end QuarkOS
