import QuarkOS.Lib.CList
import QuarkOS.Base.Prelude

/-!
# The physical page allocator

`page_alloc.c`: one `struct page` for each managed page, and the free blocks of every order in the
lists `root[0]` to `root[10]`. The `struct page *` of the source are indices into `allocator.pages`.
The list node inside a page stays a node of the shared list heap, because the pages of the slab
allocator and of the page cache are linked through the same field.
-/

namespace QuarkOS

open CList

def pgHead : BitVec 16 := 1
def pgPage : BitVec 16 := 1 <<< 1
def pgDirty : BitVec 16 := 1 <<< 2
def pgValid : BitVec 16 := 1 <<< 3
def pgCache : BitVec 16 := 1 <<< 4
def pgSlab : BitVec 16 := 1 <<< 5

def pgHeadBit : Nat := 0

/-- The flags that the users of a page set. -/
def clientFlags : BitVec 16 := pgDirty ||| pgValid ||| pgCache ||| pgSlab

def pageMagic : Nat := 0x265ef118

structure Page where
  size : Nat
  flag : BitVec 16
  refCnt : Nat
  data : Nat
  magic : Nat
  rwlock : RwLock
deriving DecidableEq, Repr

def pageHead (page : Page) : Bool := page.flag &&& pgHead ≠ 0

def clearBit (value : BitVec 16) (bit : Nat) : BitVec 16 := value &&& ~~~((1 : BitVec 16) <<< bit)

def isSlab (page : Page) : Bool := page.flag &&& pgSlab ≠ 0

/-- The list nodes that pages are linked through: the field of a page, and the heads of the lists of
the page allocator, of the slab allocator, of every `struct slabCache` and of the page cache. -/
inductive PageNode
  | root (order : Nat)
  | slab (idx : Nat)
  | fullSlab
  | cacheList (cache : Nat)
  | fullList (cache : Nat)
  | pageCache
  | page (i : Nat)
deriving DecidableEq, Repr

/-- `PAGE_ENTRY`: the page a list node lies in. -/
def pageEntry : PageNode → Except Fault Nat
  | .page i => .ok i
  | _ => .error .undefined

def maxOrder : Nat := 10

def orderSize (order : Nat) : Nat := 1 <<< order <<< 12

def orderCnt (order : Nat) : Nat := 1 <<< order

structure BuddyAllocator where
  links : Links PageNode
  pages : Nat → Page
  lock : Bool
  addr : Nat
  size : Nat
  pageCnt : Nat

namespace BuddyAllocator

def modifyPage (s : BuddyAllocator) (i : Nat) (f : Page → Page) : BuddyAllocator :=
  { s with pages := fun j => if j = i then f (s.pages j) else s.pages j }

def setLinks (s : BuddyAllocator) (links : Links PageNode) : BuddyAllocator := { s with links }

def setLock (s : BuddyAllocator) (lock : Bool) : BuddyAllocator := { s with lock }

def pageAddr (s : BuddyAllocator) (page : Nat) : Nat := (s.addr + page <<< 12) % 2 ^ 32

/-- A page past the end of the array is whatever lies there in memory: only its magic is checked. -/
def getPage (s : BuddyAllocator) (addr : Nat) : Except Fault (Option Nat) :=
  if addr % 4096 ≠ 0 then .ok none
  else if addr < s.addr then .ok none
  else do
    let page := (addr - s.addr) >>> 12
    assertk ((s.pages page).magic = pageMagic)
    .ok (some page)

def getBuddy (s : BuddyAllocator) (page : Nat) : Option Nat :=
  let pgCnt := (s.pages page).size >>> 12
  let cnt := page / pgCnt
  let buddy := if cnt &&& 1 ≠ 0 then page - pgCnt else page + pgCnt
  if s.pageCnt ≤ buddy then none else some buddy

/-- The page `new` becomes the first page of a free block of order `j`. -/
def addHalf (s : BuddyAllocator) (new j : Nat) : BuddyAllocator :=
  (s.modifyPage new fun p => { p with size := orderSize j, flag := p.flag ||| pgHead }).setLinks
    (listAddPrev s.links (.page new) (.root j))

/-- Cut the upper half off a block until it has order `logSize`; the last argument counts the loop
variable down from the order the block was found at. -/
def splitBlock (page logSize : Nat) : BuddyAllocator → Nat → Except Fault BuddyAllocator
  | s, 0 => .ok s
  | s, j + 1 =>
    if logSize ≤ j then do
      assertk !(pageHead (s.pages (page + orderCnt j)))
      splitBlock page logSize (s.addHalf (page + orderCnt j) j) j
    else .ok s

/-- The first order from `logSize` on with a free block. -/
def findOrder (s : BuddyAllocator) (logSize : Nat) : Option Nat :=
  (List.range' logSize (maxOrder + 1 - logSize)).find? fun i => !listEmpty s.links (.root i)

/-- The block leaves its free list and gets its size and its first reference. -/
def handOut (s : BuddyAllocator) (page size : Nat) : BuddyAllocator :=
  { links := listDel s.links (.page page)
    pages := (s.modifyPage page fun p => { p with size, refCnt := 1, rwlock := rwlockInit }).pages
    lock := spinlockUnlock
    addr := s.addr
    size := (s.size + 2 ^ 32 - size) % 2 ^ 32
    pageCnt := s.pageCnt }

def _allocPage (s : BuddyAllocator) (size : Nat) : Except Fault (Nat × BuddyAllocator) := do
  let size := fixSize size
  assertk (0 < size ∧ size ≤ 4 * 0x100000 ∧ size % 4096 = 0)
  let logSize ← log2 (size >>> 12)
  let lock ← spinlockLock s.lock
  let s := s.setLock lock
  match s.findOrder logSize with
  | none => .error .outOfMemory
  | some i => do
    let page ← pageEntry (s.links.next (.root i))
    assertk (pageHead (s.pages page))
    let s ← splitBlock page logSize s i
    .ok (page, s.handOut page size)

def allocPage (s : BuddyAllocator) (size : Nat) : Except Fault (Nat × BuddyAllocator) := do
  let (page, s) ← s._allocPage size
  .ok (s.pageAddr page, s)

/-- Take `buddy` out of its free list and join the block that starts at `tmp` to the one before it,
which starts at `page`. -/
def joinHalves (s : BuddyAllocator) (buddy page tmp : Nat) : BuddyAllocator :=
  ((s.modifyPage tmp fun p => { p with flag := clearBit p.flag pgHeadBit }).modifyPage page
    fun p => { p with size := p.size <<< 1 % 2 ^ 32 }).setLinks
      (listHeaderInit (listDel s.links (.page buddy)) (.page tmp))

/-- The merge loop of `__free_page`: the last argument bounds the orders still to go. The page the
loop ends with is the one whose lock is released. -/
def coalesce : BuddyAllocator → Nat → Nat → Nat → Except Fault (Nat × BuddyAllocator)
  | s, page, _, 0 => .ok (page, s)
  | s, page, order, fuel + 1 =>
    if (s.pages page).refCnt ≠ 0 then .ok (page, s)
    else
      match s.getBuddy page with
      | none => .ok (page, s.setLinks (listAddPrev s.links (.page page) (.root order)))
      | some buddy =>
        if (s.pages buddy).refCnt ≠ 0 ∨ (s.pages buddy).size ≠ (s.pages page).size ∨
            order = maxOrder then
          .ok (page, s.setLinks (listAddPrev s.links (.page page) (.root order)))
        else do
          let tmp := max buddy page
          let low := min buddy page
          assertk (low + (s.pages low).size >>> 12 = tmp)
          coalesce (s.joinHalves buddy low tmp) low (order + 1) fuel

/-- The rest of `__free_page` when no reference is left. -/
def releaseBlock (s : BuddyAllocator) (page : Nat) : Except Fault BuddyAllocator := do
  let order ← log2 ((s.pages page).size >>> 12)
  let s := s.modifyPage page fun p => { p with data := 0, flag := p.flag ||| (pgPage ||| pgHead) }
  let lock ← spinlockLock s.lock
  let (page, s) ← coalesce (s.setLock lock) page order (maxOrder + 1 - order)
  let s := s.modifyPage page fun p => { p with rwlock := wlockUnlock p.rwlock }
  .ok (s.setLock spinlockUnlock)

def _freePage (s : BuddyAllocator) (page : Nat) : Except Fault BuddyAllocator := do
  assertk (0 < (s.pages page).refCnt)
  assertk (pageHead (s.pages page))
  let rwlock ← wlockLock (s.pages page).rwlock
  let s := s.modifyPage page fun p => { p with rwlock, refCnt := p.refCnt - 1 }
  -- The early return keeps the write lock.
  if 0 < (s.pages page).refCnt then .ok s else s.releaseBlock page

/-- The result is the error code of the source. -/
def freePage (s : BuddyAllocator) (addr : Nat) : Except Fault (Int × BuddyAllocator) := do
  assertk (addr % 4096 = 0)
  match ← s.getPage addr with
  | none => .ok (-1, s)
  | some page => do
    assertk (pageHead (s.pages page))
    let s ← s._freePage page
    .ok (0, s)

end BuddyAllocator

end QuarkOS
