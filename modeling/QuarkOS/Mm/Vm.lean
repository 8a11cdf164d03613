import QuarkOS.Mm.PageAlloc
import QuarkOS.Lib.Bytes

/-!
# Kernel virtual memory

`vm.c`, `kmalloc.c` and `slab.c` over one machine state: the page allocator,
the kernel page tables and the physical memory, which is a table of frames of 1024 words. An address
is a natural number below `2 ^ 32`; what lies behind it is found the way the processor does, through
`kPageTables` above `KERNEL_START` and through the page directory in `cr3` below. The translation
cache is not modelled, so `tlb_flush` does nothing.
-/

namespace QuarkOS

open CList

abbrev Pte := BitVec 32

def vmPres : Pte := 0b1
def vmNpres : Pte := 0b0
def vmKrw : Pte := 0b010
def vmUr : Pte := 0b100
def vmUrw : Pte := 0b110

def vmRwBit : Nat := 1

def vmIgnoreBit1 : Pte := 0x200

def physTop : Nat := 1024 * 1024 * 1024 - 0x2000000

def pdeIndex (addr : Nat) : Nat := addr >>> 22

def pteIndex (addr : Nat) : Nat := addr >>> 12 % 1024

/-- The part of `struct page` that the slab allocator uses. -/
structure SlabInfo where
  chunk : Nat
  size : Nat
  nAllocated : Nat
  magic : Nat
deriving DecidableEq, Repr

structure Vm where
  alloc : BuddyAllocator
  slabs : Nat → SlabInfo
  slabLock : Bool
  kPageTables : Nat → Pte
  pageDir : Nat → Pte
  mem : Nat → Nat → BitVec 32
  cr3 : Nat

namespace Vm

def setAlloc (s : Vm) (alloc : BuddyAllocator) : Vm := { s with alloc }

def modifyPage (s : Vm) (page : Nat) (f : Page → Page) : Vm := s.setAlloc (s.alloc.modifyPage page f)

def setMem (s : Vm) (frame word : Nat) (value : BitVec 32) : Vm :=
  { s with mem := fun g w => if g = frame ∧ w = word then value else s.mem g w }

def setFrame (s : Vm) (frame : Nat) (words : Nat → BitVec 32) : Vm :=
  { s with mem := fun g => if g = frame then words else s.mem g }

def setEntry (s : Vm) (i : Nat) (e : Pte) : Vm :=
  { s with kPageTables := fun j => if j = i then e else s.kPageTables j }

def setSlab (s : Vm) (page : Nat) (info : SlabInfo) : Vm :=
  { s with slabs := fun i => if i = page then info else s.slabs i }

def setSlabLock (s : Vm) (slabLock : Bool) : Vm := { s with slabLock }

def presentFrame (e : Pte) : Except Fault Nat :=
  if e &&& vmPres = 0 then .error .pageFault else .ok (e.toNat >>> 12)

/-- The frame an address translates to. -/
def frameAt (s : Vm) (va : Nat) : Except Fault Nat :=
  if kernelStart ≤ va then presentFrame (s.kPageTables ((va - kernelStart) >>> 12))
  else do
    let table ← presentFrame (s.mem (s.cr3 >>> 12) (pdeIndex va))
    presentFrame (s.mem table (pteIndex va))

def loadByte (s : Vm) (va : Nat) : Except Fault (BitVec 8) := do
  let frame ← s.frameAt va
  .ok (Bytes.ofWords (s.mem frame) (va % 4096))

def storeByte (s : Vm) (va : Nat) (b : BitVec 8) : Except Fault Vm := do
  let frame ← s.frameAt va
  .ok (s.setFrame frame (Bytes.toWords (Function.update (Bytes.ofWords (s.mem frame)) (va % 4096) b)))

/-- The little-endian number in so many bytes, which may lie in two pages. -/
def loadBytes (s : Vm) : Nat → Nat → Except Fault Nat
  | _, 0 => .ok 0
  | va, w + 1 => do
    let b ← s.loadByte va
    let v ← s.loadBytes ((va + 1) % 2 ^ 32) w
    .ok (b.toNat + 256 * v)

def storeBytes : Vm → Nat → Nat → Nat → Except Fault Vm
  | s, _, _, 0 => .ok s
  | s, va, v, w + 1 => do
    let s ← s.storeByte va (BitVec.ofNat 8 v)
    storeBytes s ((va + 1) % 2 ^ 32) (v / 256) w

/-- An aligned word is read at once. -/
def load (s : Vm) (va : Nat) : Except Fault (BitVec 32) :=
  if va % 4 = 0 then do
    let frame ← s.frameAt va
    .ok (s.mem frame (va % 4096 / 4))
  else do
    let v ← s.loadBytes va 4
    .ok (BitVec.ofNat 32 v)

def store (s : Vm) (va : Nat) (value : BitVec 32) : Except Fault Vm :=
  if va % 4 = 0 then do
    let frame ← s.frameAt va
    .ok (s.setMem frame (va % 4096 / 4) value)
  else s.storeBytes va value.toNat 4

/-- `memcpy` of one page between two page boundaries. -/
def copyPage (s : Vm) (dst src : Nat) : Except Fault Vm := do
  let source ← s.frameAt src
  let target ← s.frameAt dst
  .ok { s with mem := fun g w => if g = target then s.mem source w else s.mem g w }

/-- `memcpy`, byte by byte. -/
def memcpy : Nat → Vm → Nat → Nat → Except Fault Vm
  | 0, s, _, _ => .ok s
  | n + 1, s, dest, src => do
    let b ← s.loadByte src
    let s ← s.storeByte dest b
    memcpy n s ((dest + 1) % 2 ^ 32) ((src + 1) % 2 ^ 32)

/-- `bzero` of one page that starts at a page boundary. -/
def zeroPage (s : Vm) (dst : Nat) : Except Fault Vm := do
  let target ← s.frameAt dst
  .ok { s with mem := fun g w => if g = target then 0 else s.mem g w }

def _allocPage (s : Vm) (size : Nat) : Except Fault (Nat × Vm) := do
  let (page, alloc) ← s.alloc._allocPage size
  .ok (page, s.setAlloc alloc)

def _freePage (s : Vm) (page : Nat) : Except Fault Vm := do
  let alloc ← s.alloc._freePage page
  .ok (s.setAlloc alloc)

def freePage (s : Vm) (addr : Nat) : Except Fault (Int × Vm) := do
  let (errno, alloc) ← s.alloc.freePage addr
  .ok (errno, s.setAlloc alloc)

/-- The index into `kPageTables` taken as one array. -/
def getPageTableEntry (va : Nat) : Except Fault Nat := do
  assertk (kernelStart ≤ va)
  .ok ((va - kernelStart) >>> 12)

/-- The loop of `kvm_maps`, for as many pages as the first argument says. -/
def kvmMapsLoop (flags : Pte) : Nat → Vm → Nat → Nat → Except Fault Vm
  | 0, s, _, _ => .ok s
  | n + 1, s, pte, pa => do
    assertk (s.kPageTables pte &&& vmPres = 0)
    kvmMapsLoop flags n (s.setEntry pte (BitVec.ofNat 32 pa ||| flags)) (pte + 1)
      ((pa + pageSize) % 2 ^ 32)

def kvmMaps (s : Vm) (va pa size : Nat) (flags : Pte) : Except Fault Vm := do
  assertk (va % 4096 = 0)
  let fin := (va + size) % 2 ^ 32
  let pte ← getPageTableEntry va
  kvmMapsLoop flags ((fin - va + 4095) / 4096) s pte pa

def kvmMap (s : Vm) (page : Nat) (flags : Pte) : Except Fault Vm := do
  let pa := s.alloc.pageAddr page
  let va := (pa + kernelStart) % 2 ^ 32
  assertk (pa < physTop)
  let s := s.modifyPage page fun p => { p with data := va }
  s.kvmMaps va pa (s.alloc.pages page).size flags

def v2p (s : Vm) (va : Nat) : Except Fault Nat := do
  let pte ← getPageTableEntry va
  .ok (pageCeil (s.kPageTables pte).toNat)

def switchUvm (s : Vm) (pgdir : Nat) : Except Fault Vm := do
  let cr3 ← s.v2p pgdir
  .ok { s with cr3 }

def p2v (s : Vm) (pa : Nat) : Except Fault Nat := do
  match ← s.alloc.getPage pa with
  | none => .error .assertk
  | some page => .ok (s.alloc.pages page).data

def kvmUnmapLoop : Nat → Vm → Nat → Vm
  | 0, s, _ => s
  | n + 1, s, pte => kvmUnmapLoop n (s.setEntry pte vmNpres) (pte + 1)

def kvmUnmap3 (s : Vm) (va size : Nat) : Except Fault Vm := do
  assertk (kernelStart < va)
  assertk (size % 4096 = 0)
  let fin := (va + size) % 2 ^ 32
  let pte ← getPageTableEntry va
  .ok (kvmUnmapLoop ((fin - va + 4095) / 4096) s pte)

def kvmUnmap (s : Vm) (page : Nat) : Except Fault Vm :=
  s.kvmUnmap3 (s.alloc.pages page).data (s.alloc.pages page).size

def kvmVm2page (s : Vm) (va : Nat) : Except Fault (Option Nat) := do
  let pte ← getPageTableEntry va
  s.alloc.getPage (pageCeil (s.kPageTables pte).toNat)

/-- Without a page the source reads through a null pointer. -/
def kvmUnmap2 (s : Vm) (addr : Nat) : Except Fault Vm := do
  match ← s.kvmVm2page addr with
  | none => .error .undefined
  | some page => s.kvmUnmap page

/-- The loop of `kvm_copy` over the entries that are left. -/
def kvmCopyLoop (pgdir : Nat) : List Nat → Vm → Except Fault Vm
  | [], s => .ok s
  | i :: l, s => do
    if s.pageDir i &&& vmPres ≠ 0 then
      let s ← s.store (pgdir + 4 * (768 + i)) (s.pageDir i)
      kvmCopyLoop pgdir l s
    else kvmCopyLoop pgdir l s

/-- `pageDir` holds the last quarter of the directory of the kernel. -/
def kvmCopy (s : Vm) (pgdir : Nat) : Except Fault Vm := kvmCopyLoop pgdir (List.range 256) s

def listSize : Nat := 10

def slabMax : Nat := 2 <<< listSize

def slabMin : Nat := 4

def slabMagic : Nat := 0xac616749

/-- Link the chunks of a fresh slab, from the chunk at `chunk` on. -/
def linkChunks (chunkSize : Nat) : Nat → Vm → Nat → Except Fault Vm
  | 0, s, chunk => s.store chunk 0
  | n + 1, s, chunk => do
    let s ← s.store chunk (BitVec.ofNat 32 (chunk + chunkSize))
    linkChunks chunkSize n s (chunk + chunkSize)

def addSlab (s : Vm) (slab : PageNode) (chunkSize : Nat) : Except Fault Vm := do
  let (page, s) ← s._allocPage pageSize
  let s := s.modifyPage page fun p => { p with flag := p.flag ||| pgSlab }
  let s ← s.kvmMap page (vmPres ||| vmKrw)
  let chunk := (s.alloc.pages page).data
  let s := s.setSlab page { chunk, size := chunkSize, nAllocated := 0, magic := slabMagic }
  let s ← linkChunks chunkSize (pageSize / chunkSize - 1) s chunk
  .ok (s.setAlloc (s.alloc.setLinks (listAddNext s.alloc.links (.page page) slab)))

/-- The links after a chunk of the slab `page` was taken and `next` is what follows it. -/
def takenLinks (links : Links PageNode) (page : Nat) (full : PageNode) (next : BitVec 32) :
    Links PageNode :=
  if next = 0 then listAddNext (listDel links (.page page)) (.page page) full else links

def _slabAlloc (s : Vm) (head full : PageNode) (size : Nat) : Except Fault (Nat × Vm) := do
  let s ← if listEmpty s.alloc.links head then s.addSlab head size else .ok s
  let page ← pageEntry (s.alloc.links.next head)
  let rwlock ← wlockLock (s.alloc.pages page).rwlock
  let info := s.slabs page
  assertk (!listEmpty s.alloc.links head && info.chunk ≠ 0)
  let next ← s.load info.chunk
  let s := s.setSlab page
    { info with nAllocated := (info.nAllocated + 1) % 2 ^ 16, chunk := next.toNat }
  let s := s.setAlloc (s.alloc.setLinks (takenLinks s.alloc.links page full next))
  .ok (info.chunk, s.modifyPage page fun p => { p with rwlock := wlockUnlock rwlock })

def slabAlloc (s : Vm) (size : Nat) : Except Fault (Nat × Vm) := do
  let size := size % 2 ^ 16
  assertk (size ≠ 0 ∧ size ≤ slabMax)
  let size := fixSize (max size slabMin)
  let idx ← log2 size
  let lock ← spinlockLock s.slabLock
  let (chunk, s) ← (s.setSlabLock lock)._slabAlloc (.slab (idx - 2)) .fullSlab size
  .ok (chunk, s.setSlabLock spinlockUnlock)

def vaGetPage (s : Vm) (addr : Nat) : Except Fault (Option Nat) := do
  let addr ← s.v2p addr
  assertk (addr ≠ 0)
  match ← s.alloc.getPage addr with
  | none => .ok none
  | some page => .ok (if pageHead (s.alloc.pages page) then some page else none)

/-- The page of a chunk, which has to be a slab. -/
def slabPage (s : Vm) (addr : Nat) : Except Fault Nat := do
  match ← s.vaGetPage (pageCeil addr) with
  | none => .error .assertk
  | some page => do
    assertk (isSlab (s.alloc.pages page))
    .ok page

def slabChunkSize (s : Vm) (addr : Nat) : Except Fault Nat := do
  let page ← s.slabPage addr
  assertk ((s.slabs page).size ≤ slabMax)
  .ok (s.slabs page).size

/-- The links before a chunk goes back to the slab `page`, whose first free chunk is `chunk`. -/
def givenLinks (links : Links PageNode) (page : Nat) (head : PageNode) (chunk : Nat) :
    Links PageNode :=
  if chunk = 0 then listAddNext (listDel links (.page page)) (.page page) head else links

def _slabFree (s : Vm) (addr : Nat) (head : PageNode) : Except Fault Vm := do
  let page ← s.slabPage addr
  let info := s.slabs page
  assertk (info.magic = slabMagic)
  assertk (0 < info.nAllocated)
  let s := s.setAlloc (s.alloc.setLinks (givenLinks s.alloc.links page head info.chunk))
  let s ← s.store addr (BitVec.ofNat 32 info.chunk)
  .ok (s.setSlab page { info with nAllocated := info.nAllocated - 1, chunk := addr })

def slabFree (s : Vm) (addr : Nat) : Except Fault Vm := do
  let page ← s.slabPage addr
  let idx ← log2 (s.slabs page).size
  let lock ← spinlockLock s.slabLock
  let s ← (s.setSlabLock lock)._slabFree addr (.slab (idx - 2))
  .ok (s.setSlabLock spinlockUnlock)

/-- `struct slabCache`. Its two lists are known by `id`. -/
structure SlabCache where
  id : Nat
  size : Nat
  lock : Bool
deriving DecidableEq, Repr

def cacheAlloc (s : Vm) (cache : SlabCache) : Except Fault (Nat × SlabCache × Vm) := do
  let _ ← spinlockLock cache.lock
  let (chunk, s) ← s._slabAlloc (.cacheList cache.id) (.fullList cache.id) (cache.size % 2 ^ 16)
  .ok (chunk, { cache with lock := spinlockUnlock }, s)

def cacheFree (s : Vm) (cache : SlabCache) (addr : Nat) : Except Fault (SlabCache × Vm) := do
  let _ ← spinlockLock cache.lock
  let s ← s._slabFree addr (.cacheList cache.id)
  .ok ({ cache with lock := spinlockUnlock }, s)

/-- One round of `recycle`. -/
def recyclePage (s : Vm) (page : Nat) : Except Fault Vm := do
  let rwlock ← wlockLock (s.alloc.pages page).rwlock
  let s := s.modifyPage page fun p => { p with rwlock }
  if (s.slabs page).nAllocated = 0 then do
    let s := s.setAlloc (s.alloc.setLinks (listDel s.alloc.links (.page page)))
    let s ← s._freePage page
    let s ← s.kvmUnmap page
    .ok (s.modifyPage page fun p => { p with rwlock := wlockUnlock p.rwlock })
  else .ok (s.modifyPage page fun p => { p with rwlock := wlockUnlock p.rwlock })

/-- The loop of `recycle` over the nodes of a list, with how it goes on from a node and the page that a
node is taken to lie in. -/
def recycleLoop {α : Type} [DecidableEq α] (next : Vm → α → α) (entry : α → Except Fault Nat)
    (head : α) : Nat → Vm → α → Except Fault Vm
  | 0, _, _ => .error .spin
  | fuel + 1, s, hdr =>
    if hdr = head then .ok s
    else do
      let page ← entry hdr
      let s ← s.recyclePage page
      recycleLoop next entry head fuel s (next s hdr)

/-- `recycle` of a list of slabs, which has no more nodes than there are pages. -/
def recycle (s : Vm) (head : PageNode) : Except Fault Vm :=
  recycleLoop (fun s hdr => s.alloc.links.next hdr) pageEntry head (s.alloc.pageCnt + 1) s
    (s.alloc.links.next head)

/-- The nodes of the list of all caches: its head, and the field `head` of each `struct slabCache`. -/
inductive CacheNode
  | registry
  | head (cache : Nat)
deriving DecidableEq, Repr

/-- The list after `cache_alloc_create` of these caches, the last one first. -/
def registryLinks : List SlabCache → Links CacheNode
  | [] => listHeaderInit ⟨id, id⟩ .registry
  | cache :: caches =>
    listAddNext (listHeaderInit (registryLinks caches) (.head cache.id)) (.head cache.id) .registry

/-- The loop of `slab_recycle` over the caches. What it hands to `recycle` is the node of the cache in the
list of all caches, where no node lies in a page. -/
def recycleCaches (caches : List SlabCache) : Nat → Vm → CacheNode → Except Fault Vm
  | 0, _, _ => .error .spin
  | _ + 1, s, .registry => .ok s
  | fuel + 1, s, .head id =>
    match caches.find? fun cache => cache.id = id with
    | none => .error .undefined
    | some cache => do
      let _ ← spinlockLock cache.lock
      let links := registryLinks caches
      let s ← recycleLoop (fun _ hdr => links.next hdr) (fun _ => .error .undefined) (.head id)
        (caches.length + 1) s (links.next (.head id))
      recycleCaches caches fuel s (links.next (.head id))

def slabRecycle (s : Vm) (caches : List SlabCache) : Except Fault Vm := do
  let lock ← spinlockLock s.slabLock
  let s ← (List.range listSize).foldlM (fun s i => s.recycle (.slab i)) (s.setSlabLock lock)
  let s := s.setSlabLock spinlockUnlock
  recycleCaches caches (caches.length + 1) s ((registryLinks caches).next .registry)

def kmalloc (s : Vm) (size : Nat) : Except Fault (Nat × Vm) := do
  let size := fixSize size
  if size ≤ slabMax then s.slabAlloc size
  else do
    let (page, s) ← s._allocPage size
    let s ← s.kvmMap page (vmPres ||| vmKrw)
    .ok ((s.alloc.pages page).data, s)

/-- `kcalloc(PAGE_SIZE)`, the only size the address spaces ask for. -/
def kcallocPage (s : Vm) : Except Fault (Nat × Vm) := do
  let (addr, s) ← s.kmalloc (fixSize pageSize)
  let s ← s.zeroPage addr
  .ok (addr, s)

def kfree (s : Vm) (addr : Nat) : Except Fault Vm := do
  match ← s.vaGetPage (pageCeil addr) with
  | none => .error .assertk
  | some page =>
    if isSlab (s.alloc.pages page) then s.slabFree addr
    else do
      let s ← s.kvmUnmap page
      s._freePage page

/-- The number of bytes that `krealloc` copies from a block in `page` to the new block at `addr`. -/
def oldSize (s : Vm) (page addr : Nat) : Except Fault Nat :=
  if isSlab (s.alloc.pages page) then s.slabChunkSize addr else .ok (s.alloc.pages page).size

def krealloc (s : Vm) (old newSize : Nat) : Except Fault (Nat × Vm) := do
  let (addr, s) ← s.kmalloc newSize
  assertk (addr ≠ 0)
  match ← s.vaGetPage (pageCeil old) with
  | none => .error .assertk
  | some page => do
    assertk ((s.alloc.pages page).size < newSize)
    let size ← s.oldSize page addr
    let s ← memcpy size s addr old
    let s ← s.kfree old
    .ok (addr, s)

end Vm

end QuarkOS
