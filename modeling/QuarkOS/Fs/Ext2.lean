import QuarkOS.Fs.PageCache

/-!
# ext2 files

`block.c`, the group descriptors of `super.c`, reading and writing of `ext2.c` and the file position of
`vfs.c`. The page cache holds pages of 4 KiB, and `page_get` refuses a sector number that is not a
multiple of eight, so the block size is 4096 throughout. A function that follows block pointers brings
pages into the cache, and so returns a new page cache with its result.

The inode carries the fields that reading and writing use, with the ones of `ext2_inode_info`; its lock
is taken and released around each change of the size and is left out, as is the queue of dirty inodes.
-/

namespace QuarkOS

open Bytes Function

def sectorSize : Nat := 512

def blockSize : Nat := 4096

def nDirectBlock : Nat := 12

def nPtr : Nat := blockSize / 4

def divCeil (x y : Nat) : Nat := (x + y - 1) % 2 ^ 64 / y

/-- The copy of a group descriptor in memory. -/
structure InfoDescriptor where
  blockBitmapAddr : Nat
deriving DecidableEq, Repr

structure Ext2SbInfo where
  blockPerGroup : Nat
  desc : List InfoDescriptor
deriving DecidableEq, Repr

def Ext2SbInfo.groupCnt (sb : Ext2SbInfo) : Nat := sb.desc.length

/-- `sb->desc[groupNo]`; the array has an entry for each group. -/
def Ext2SbInfo.descAt (sb : Ext2SbInfo) (groupNo : Nat) : Except Fault InfoDescriptor :=
  match sb.desc[groupNo]? with
  | none => .error .undefined
  | some desc => .ok desc

inductive InodeState
  | old
  | new
  | data
  | time
  | del
  /-- None of these: what the memory of a new inode may hold. -/
  | other
deriving DecidableEq, Repr

structure Inode where
  state : InodeState
  type : BitVec 16
  size : Nat
  offset : Nat
  blockCnt : Nat
  blocks : Nat → Nat

def ext2IfReg : BitVec 16 := 0x8000

def markInodeDirty (inode : Inode) (state : InodeState) : Inode :=
  match inode.state with
  | .old => { inode with state }
  | .new => if state = .del then { inode with state := .del } else inode
  | .data =>
    if state = .time then { inode with state := .new }
    else if state = .del then { inode with state := .del }
    else inode
  | .time =>
    if state = .data then { inode with state := .new }
    else if state = .del then { inode with state := .del }
    else inode
  | .del => inode
  | .other => { inode with state := .new }

theorem markInodeDirty_eq (inode : Inode) (state : InodeState) :
    ∃ state', markInodeDirty inode state = { inode with state := state' } := by
  unfold markInodeDirty
  split
  · exact ⟨_, rfl⟩
  · split
    · exact ⟨_, rfl⟩
    · exact ⟨_, rfl⟩
  · split
    · exact ⟨_, rfl⟩
    · split
      · exact ⟨_, rfl⟩
      · exact ⟨_, rfl⟩
  · split
    · exact ⟨_, rfl⟩
    · split
      · exact ⟨_, rfl⟩
      · exact ⟨_, rfl⟩
  · exact ⟨_, rfl⟩
  · exact ⟨_, rfl⟩

def ext2Block2Lba (blockNo : Nat) : Nat := blockSize / sectorSize * blockNo % 2 ^ 32

/-- The sector number stands for the page, as in the page cache. -/
def ext2BlockRead (s : PageCache) (blkNo : Nat) : Except Fault (Nat × PageCache) := do
  let s ← s.pageReadNo (ext2Block2Lba blkNo)
  .ok (ext2Block2Lba blkNo, s)

def ext2BlockGet (s : PageCache) (blkNo : Nat) : Except Fault (Nat × PageCache) := do
  let s ← s.pageGet (ext2Block2Lba blkNo)
  .ok (ext2Block2Lba blkNo, s)

def descriptorPerBlock : Nat := blockSize / 32

def descriptorBid (gno : Nat) : Nat := 1 + gno / descriptorPerBlock

def descriptorOffset (gno : Nat) : Nat := gno % descriptorPerBlock * 32

/-- The page of a group descriptor, and where in it the descriptor is. -/
def getRawGd (s : PageCache) (gno : Nat) : Except Fault (Nat × Nat × PageCache) := do
  let (page, s) ← ext2BlockRead s (descriptorBid gno)
  .ok (page, descriptorOffset gno, s)

/-- `desc->freeBlockCnt` of the descriptor at `off`: two bytes after three words. -/
def freeBlockCnt (page : Area) (off : Nat) : Nat := load page (off + 12) 2

def setFreeBlockCnt (page : Area) (off cnt : Nat) : Area := store page (off + 12) 2 cnt

/-- `ptr[i]` of a block of pointers. -/
def ptrAt (page : Area) (i : Nat) : Nat := load page (4 * i) 4

def setPtrAt (page : Area) (i bid : Nat) : Area := store page (4 * i) 4 bid

/-- The shift of `get_clear_bit` leaves no set bit after eight rounds. -/
def getClearBitFrom : Nat → Byte → Nat → Nat
  | 0, _, no => no
  | fuel + 1, ch, no => if ch &&& 1 ≠ 0 then getClearBitFrom fuel (ch >>> 1) (no + 1) else no

def getClearBit (ch : Byte) : Nat := getClearBitFrom 8 ch 0

/-- The loop of `set_next_zero_bit` from byte `i` on, with the map it leaves. -/
def setNextZeroBitFrom (map : Area) : Nat → Nat → Option (Nat × Area)
  | 0, _ => none
  | fuel + 1, i =>
    if map i ≠ 0xff then
      let n := getClearBit (map i)
      some (n + i <<< 3, update map i (map i ||| BitVec.ofNat 8 (1 <<< n)))
    else setNextZeroBitFrom map fuel (i + 1)

def setNextZeroBit (map : Area) (max : Nat) : Option (Nat × Area) := setNextZeroBitFrom map max 0

/-- The group of least count among those from `i` on; `groupNo` is unset before the first. `find_group` of
`block.c` and that of `inode.c` differ in the count. -/
def findGroupMin (count : Area → Nat → Nat) (s : PageCache) :
    Nat → Nat → Nat → Option Nat → Except Fault (Nat × PageCache)
  | 0, _, _, groupNo =>
    match groupNo with
    | none => .error .undefined
    | some groupNo => .ok (groupNo, s)
  | fuel + 1, i, min, groupNo => do
    let (page, off, s) ← getRawGd s i
    let cnt := count (s.data page) off
    if min > cnt then findGroupMin count s fuel (i + 1) cnt (some i)
    else findGroupMin count s fuel (i + 1) min groupNo

/-- The `do … while` of `find_group`. A round that starts outside the groups never comes back to `i`;
after `groupCnt + 1` rounds every group was looked at. -/
def findGroupNext (count : Area → Nat → Nat) (s : PageCache) (groupCnt i : Nat) :
    Nat → Nat → Except Fault (Nat × PageCache)
  | 0, _ => .error .spin
  | fuel + 1, groupNo => do
    let (page, off, s) ← getRawGd s groupNo
    if count (s.data page) off ≠ 0 then .ok (groupNo, s)
    else if groupCnt = 0 then .error .undefined
    else
      let groupNo := (groupNo + 1) % 2 ^ 32 % groupCnt
      if i ≠ groupNo then findGroupNext count s groupCnt i fuel groupNo else .ok (groupNo, s)

def findGroup (sb : Ext2SbInfo) (inode : Inode) (s : PageCache) : Except Fault (Nat × PageCache) :=
  if inode.blockCnt = 0 then findGroupMin freeBlockCnt s sb.groupCnt 0 0xffffffff none
  else
    let bid := inode.blocks 0
    if bid = 0 then .error .error
    else if sb.blockPerGroup = 0 then .error .undefined
    else
      let i := bid / sb.blockPerGroup
      findGroupNext freeBlockCnt s sb.groupCnt i (sb.groupCnt + 1) i

def setBlockBitmap (sb : Ext2SbInfo) (inode : Inode) (s : PageCache) :
    Except Fault (Nat × PageCache) := do
  let (groupNo, s) ← findGroup sb inode s
  let info ← sb.descAt groupNo
  let (bBuf, s) ← ext2BlockRead s info.blockBitmapAddr
  match setNextZeroBit (s.data bBuf) (blockSize / 8) with
  | none => .error .error
  | some (bit, map) =>
    let s := s.setData bBuf map
    let (buf, off, s) ← getRawGd s groupNo
    let cnt := freeBlockCnt (s.data buf) off
    let s := s.setData buf (setFreeBlockCnt (s.data buf) off (cnt + 2 ^ 16 - 1))
    let s ← s.markPageDirty buf
    let s ← s.markPageDirty bBuf
    .ok ((bit + groupNo * sb.blockPerGroup) % 2 ^ 32, s)

/-- The byte `map[bid / 8]` is in the page when `bid` is below eight times the page size. -/
def clearBlockBitmap (sb : Ext2SbInfo) (bid : Nat) (s : PageCache) : Except Fault PageCache :=
  if sb.blockPerGroup = 0 then .error .undefined
  else do
    let groupNo := bid / sb.blockPerGroup
    let (dBuf, off, s) ← getRawGd s groupNo
    let cnt := freeBlockCnt (s.data dBuf) off
    let s := s.setData dBuf (setFreeBlockCnt (s.data dBuf) off (cnt + 1))
    let info ← sb.descAt groupNo
    let (bBuf, s) ← ext2BlockRead s info.blockBitmapAddr
    if bid / 8 < pageSize then
      let s := s.setData bBuf (clearBit (s.data bBuf) bid)
      let s ← s.markPageDirty dBuf
      s.markPageDirty bBuf
    else .error .undefined

/-- `id[0]`, `id[1]` and `id[2]` of `find_block_layer`. -/
def blockIds (bno : Nat) : Nat → Nat
  | 0 => bno % nPtr
  | 1 => bno / nPtr % nPtr
  | _ => bno / (nPtr * nPtr)

/-- The kind of indirect pointer that leads to a block, and the index at each level. -/
def findBlockLayer (bno : Nat) : Except Fault (Nat × (Nat → Nat)) :=
  let bno := bno - nDirectBlock
  let (bno, layer) := if nPtr ≤ bno then (bno - nPtr, 1) else (bno, 0)
  let sqr := nPtr * nPtr
  let (bno, layer) := if sqr ≤ bno then (bno - sqr, 2) else (bno, layer)
  do
    assertk (bno < sqr * nPtr)
    .ok (layer, blockIds bno)

/-- The rounds `i, …, 0` of the loop of `get_bid`, where the number is `i + 1`. -/
def getBidLoop (id : Nat → Nat) : Nat → Nat → PageCache → Except Fault (Nat × PageCache)
  | 0, bid, s => .ok (bid, s)
  | i + 1, bid, s =>
    if bid = 0 then .ok (bid, s)
    else do
      let (page, s) ← ext2BlockRead s bid
      getBidLoop id i (ptrAt (s.data page) (id i)) s

def getBid (inode : Inode) (bno : Nat) (s : PageCache) : Except Fault (Nat × PageCache) :=
  if bno < nDirectBlock then .ok (inode.blocks bno, s)
  else do
    let (layer, id) ← findBlockLayer bno
    getBidLoop id (layer + 1) (inode.blocks (nDirectBlock + layer)) s

def newEmptyBlock (sb : Ext2SbInfo) (inode : Inode) (s : PageCache) :
    Except Fault (Nat × PageCache) := do
  let (bid, s) ← setBlockBitmap sb inode s
  let (page, s) ← ext2BlockRead s bid
  .ok (bid, s.setData page fun _ => 0)

/-- Where `_bid` of `alloc_block` points: into the inode, or into a block of pointers. -/
inductive Slot
  | blocks (i : Nat)
  | ptr (page i : Nat)
deriving DecidableEq, Repr

def Slot.load (inode : Inode) (s : PageCache) : Slot → Nat
  | .blocks i => inode.blocks i
  | .ptr page i => ptrAt (s.data page) i

def Slot.store (inode : Inode) (s : PageCache) (bid : Nat) : Slot → Inode × PageCache
  | .blocks i => ({ inode with blocks := update inode.blocks i bid }, s)
  | .ptr page i => (inode, s.setData page (setPtrAt (s.data page) i bid))

def Inode.addBlock (inode : Inode) : Inode :=
  { inode with blockCnt := (inode.blockCnt + 1) % 2 ^ 32 }

/-- What a round of `alloc_block` does with an empty slot. -/
def fillSlot (sb : Ext2SbInfo) (slot : Slot) (inode : Inode) (s : PageCache) :
    Except Fault (Inode × PageCache) := do
  let (bid, s) ← newEmptyBlock sb inode s
  let (inode, s) := slot.store inode s bid
  .ok (inode.addBlock, s)

/-- The rounds `i, …, -1` of the loop of `alloc_block`, where the number is `i + 1`. A last slot that is
in use is read through `id[-1]`. -/
def allocBlockLoop (sb : Ext2SbInfo) (id : Nat → Nat) :
    Nat → Slot → Inode → PageCache → Except Fault (Nat × Inode × PageCache)
  | 0, slot, inode, s =>
    if slot.load inode s = 0 then do
      let (inode, s) ← fillSlot sb slot inode s
      .ok (slot.load inode s, inode, s)
    else .error .undefined
  | i + 1, slot, inode, s => do
    let (inode, s) ← if slot.load inode s = 0 then fillSlot sb slot inode s else .ok (inode, s)
    let (page, s) ← ext2BlockRead s (slot.load inode s)
    allocBlockLoop sb id i (.ptr page (id i)) inode s

def allocBlock (sb : Ext2SbInfo) (inode : Inode) (bno : Nat) (s : PageCache) :
    Except Fault (Nat × Inode × PageCache) :=
  if bno < nDirectBlock then do
    assertk (inode.blocks bno = 0)
    let (bid, s) ← setBlockBitmap sb inode s
    let inode := inode.addBlock
    .ok (bid, { inode with blocks := update inode.blocks bno bid }, s)
  else do
    let (layer, id) ← findBlockLayer bno
    allocBlockLoop sb id (layer + 1) (.blocks (nDirectBlock + layer)) inode s

/-- Only the pointers of an inode and their number change. -/
def Inode.OnlyPtrs (inode inode' : Inode) : Prop :=
  ∃ blocks blockCnt, inode' = { inode with blocks, blockCnt }

variable {inode inode' : Inode} {sb : Ext2SbInfo} {s s' : PageCache}

theorem Inode.OnlyPtrs.trans {inode'' : Inode} (h : inode.OnlyPtrs inode')
    (h' : inode'.OnlyPtrs inode'') : inode.OnlyPtrs inode'' := by
  obtain ⟨_, _, rfl⟩ := h
  obtain ⟨blocks, blockCnt, rfl⟩ := h'
  exact ⟨blocks, blockCnt, rfl⟩

theorem fillSlot_onlyPtrs {slot : Slot}
    (h : fillSlot sb slot inode s = .ok (inode', s')) : inode.OnlyPtrs inode' := by
  obtain ⟨⟨bid, s1⟩, _, h⟩ := bind_eq_ok h
  cases slot with
  | blocks i =>
    cases h
    exact ⟨_, _, rfl⟩
  | ptr page i =>
    cases h
    exact ⟨_, _, rfl⟩

theorem allocBlockLoop_onlyPtrs {id : Nat → Nat} {n bid : Nat} {slot : Slot}
    (h : allocBlockLoop sb id n slot inode s = .ok (bid, inode', s')) : inode.OnlyPtrs inode' := by
  induction n generalizing slot inode s with
  | zero =>
    rw [allocBlockLoop] at h
    split at h
    · obtain ⟨⟨inode1, s1⟩, hfill, h⟩ := bind_eq_ok h
      cases h
      exact fillSlot_onlyPtrs hfill
    · cases h
  | succ n ih =>
    rw [allocBlockLoop] at h
    split at h
    · obtain ⟨⟨inode1, s1⟩, hfill, h⟩ := bind_eq_ok h
      obtain ⟨⟨page, s2⟩, _, h⟩ := bind_eq_ok h
      exact (fillSlot_onlyPtrs hfill).trans (ih h)
    · obtain ⟨⟨inode1, s1⟩, hok, h⟩ := bind_eq_ok h
      cases hok
      obtain ⟨⟨page, s2⟩, _, h⟩ := bind_eq_ok h
      exact ih h

theorem allocBlock_onlyPtrs {bno bid : Nat}
    (h : allocBlock sb inode bno s = .ok (bid, inode', s')) : inode.OnlyPtrs inode' := by
  rw [allocBlock] at h
  split at h
  · obtain ⟨_, _, h⟩ := bind_eq_ok h
    obtain ⟨⟨bid1, s1⟩, _, h⟩ := bind_eq_ok h
    cases h
    exact ⟨_, _, rfl⟩
  · obtain ⟨⟨layer, id⟩, _, h⟩ := bind_eq_ok h
    exact allocBlockLoop_onlyPtrs h

/-- The position of `next_block`: four counters of sixteen bits. -/
abbrev BlockPos := Nat → Nat

def getLayer (id : BlockPos) : Nat :=
  if id 3 ≠ 0 then 2
  else if id 2 ≠ 0 then 1
  else 0

/-- The rounds `i, …, 0` of the loop of `next_block`, where the number is `i + 1`; `none` is its
`return 0`. -/
def nextBlockLoop (id : BlockPos) : Nat → Nat → PageCache → Except Fault (Option Nat × PageCache)
  | 0, bid, s => .ok (some bid, s)
  | i + 1, bid, s =>
    if bid = 0 then .ok (none, s)
    else do
      let (page, s) ← ext2BlockRead s bid
      nextBlockLoop id i (ptrAt (s.data page) (id i)) s

/-- One round of the carry at the end of `next_block`. -/
def carry (id : BlockPos) (i : Nat) : BlockPos :=
  if nPtr ≤ id i then
    let id := update id i 0
    update id (i + 1) ((id (i + 1) + 1) % 2 ^ 16)
  else id

def nextBlock (inode : Inode) (id : BlockPos) (s : PageCache) :
    Except Fault (Nat × BlockPos × PageCache) :=
  if nPtr ≤ id 3 then .ok (0, id, s)
  else if id 0 < nDirectBlock then
    .ok (inode.blocks (id 0), update id 0 (id 0 + 1), s)
  else do
    let layer := getLayer id
    let (bid, s) ← nextBlockLoop id (layer + 1) (inode.blocks (nDirectBlock + layer)) s
    match bid with
    | none => .ok (0, id, s)
    | some bid =>
      let id := update id 1 ((id 1 + 1) % 2 ^ 16)
      .ok (bid, carry (carry id 1) 2, s)

def nextFreeBno (inode : Inode) : Nat := divCeil inode.size blockSize % 2 ^ 32

/-- The bytes that were read; their number is what the source returns. -/
def ext2Read (file : Inode) (offset size : Nat) (s : PageCache) :
    Except Fault (List Byte × PageCache) :=
  let blkOffset := offset % blockSize
  let bno := offset / blockSize
  if divCeil file.size blockSize ≤ bno then .ok ([], s)
  else do
    let size := min (blockSize - blkOffset) size
    let (bid, s) ← getBid file bno s
    if bid = 0 then .ok ([], s)
    else
      let (page, s) ← ext2BlockRead s bid
      .ok (slice (s.data page) blkOffset size, s)

def writePage (sb : Ext2SbInfo) (file : Inode) (bno : Nat) (s : PageCache) :
    Except Fault (Nat × Inode × PageCache) :=
  if bno < nextFreeBno file then do
    let (bid, s) ← getBid file bno s
    let (page, s) ← ext2BlockRead s bid
    .ok (page, file, s)
  else do
    let (bid, file, s) ← allocBlock sb file bno s
    let (page, s) ← ext2BlockGet s bid
    .ok (page, file, s)

/-- `buf` holds the `size` bytes that are left to write. -/
def ext2Write (sb : Ext2SbInfo) (file : Inode) (offset : Nat) (buf : List Byte) (s : PageCache) :
    Except Fault (Nat × Inode × PageCache) :=
  if file.type &&& ext2IfReg = 0 then .error .error
  else do
    let blkOffset := offset % blockSize
    let bno := offset / blockSize
    let size := min (blockSize - blkOffset) buf.length
    let (page, file, s) ← writePage sb file bno s
    let file := { file with size := (offset + size) % 2 ^ 32 }
    let s := s.setData page (copy (s.data page) blkOffset (buf.take size))
    let s ← s.markPageDirty page
    .ok (size, markInodeDirty file .data, s)

structure Fs where
  sb : Ext2SbInfo
  cache : PageCache
  /-- `file_table` of `hash.c`; an inode has one descriptor. -/
  files : Nat → Option Inode

namespace Fs

def setFile (fs : Fs) (fd : Nat) (node : Inode) : Fs :=
  { fs with files := update fs.files fd (some node) }

def fileTableSize : Nat := 1024

def getInode (fs : Fs) (fd : Nat) : Except Fault (Option Inode) :=
  if fd < fileTableSize then .ok (fs.files fd) else .error .undefined

/-- The loop of `vfs_read`; every round that goes on reads at least one byte. -/
def vfsReadLoop : Nat → Nat → Inode → PageCache → Except Fault (List Byte × Inode × PageCache)
  | _, 0, node, s => .ok ([], node, s)
  | 0, _ + 1, _, _ => .error .spin
  | fuel + 1, remain + 1, node, s => do
    let (bytes, s) ← ext2Read node node.offset (remain + 1) s
    if bytes = [] then .ok ([], node, s)
    else
      let node := { node with offset := (node.offset + bytes.length) % 2 ^ 32 }
      let (rest, node, s) ← vfsReadLoop fuel (remain + 1 - bytes.length) node s
      .ok (bytes ++ rest, node, s)

def vfsRead (fs : Fs) (fd size : Nat) : Except Fault (List Byte × Fs) := do
  match ← fs.getInode fd with
  | none => .ok ([], fs)
  | some node =>
    let (bytes, node, cache) ← vfsReadLoop size size node fs.cache
    .ok (bytes, { fs with cache }.setFile fd node)

/-- One round of the loop of `vfs_write`. -/
def writeRound (sb : Ext2SbInfo) (node : Inode) (buf : List Byte) (s : PageCache) :
    Except Fault (Nat × Inode × PageCache) := do
  let (wtSize, node, s) ← ext2Write sb node node.offset buf s
  .ok (wtSize, { node with offset := (node.offset + wtSize) % 2 ^ 32 }, s)

def vfsWriteLoop (sb : Ext2SbInfo) :
    Nat → List Byte → Inode → PageCache → Except Fault (Nat × Inode × PageCache)
  | _, [], node, s => .ok (0, node, s)
  | 0, _ :: _, _, _ => .error .spin
  | fuel + 1, b :: buf, node, s => do
    let (wtSize, node, s) ← writeRound sb node (b :: buf) s
    if wtSize = 0 then .ok (0, node, s)
    else
      let (cnt, node, s) ← vfsWriteLoop sb fuel ((b :: buf).drop wtSize) node s
      .ok (wtSize + cnt, node, s)

def vfsWrite (fs : Fs) (fd : Nat) (buf : List Byte) : Except Fault (Nat × Fs) := do
  match ← fs.getInode fd with
  | none => .ok (0, fs)
  | some node =>
    let (cnt, node, cache) ← vfsWriteLoop fs.sb buf.length buf node fs.cache
    .ok (cnt, { fs with cache }.setFile fd node)

inductive SeekWhence
  | set
  | cur
  | end
deriving DecidableEq, Repr

/-- The position after a seek by the 32-bit number `offset`, or `none` where the source returns `-1`.
The sum for `SEEK_END` is a 64-bit and the one for `SEEK_CUR` a 32-bit number without sign. -/
def seekTo (node : Inode) (offset : Int) : SeekWhence → Option Nat
  | .set => if offset < 0 then none else some (offset.toNat % 2 ^ 32)
  | .end =>
    let sum := ((node.size + offset) % 2 ^ 64).toNat
    if 2 ^ 63 ≤ sum then none else some (sum % 2 ^ 32)
  | .cur => some ((node.offset + offset) % 2 ^ 32).toNat

def vfsLseek (fs : Fs) (fd : Nat) (offset : Int) (whence : SeekWhence) :
    Except Fault (Int × Fs) := do
  match ← fs.getInode fd with
  | none => .ok (-2, fs)
  | some node =>
    match seekTo node offset whence with
    | none => .ok (-1, fs)
    | some pos => .ok (Int.bmod pos (2 ^ 32), fs.setFile fd { node with offset := pos })

end Fs

end QuarkOS
