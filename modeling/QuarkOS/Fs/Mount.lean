import Mathlib.Data.Finset.Erase
import Mathlib.Data.Finset.Insert
import QuarkOS.Fs.DirBlock
import QuarkOS.Fs.Ext2

/-!
# A mounted file system

`inode.c` and `dir.c`: the inodes and directory entries that the kernel keeps in memory, over the inode
table and the directory blocks of the disk. The memory objects are named by their addresses; an object
that is not allocated is `none`, and to go through a pointer to it is undefined.

Blocks are allocated and freed as in `Ext2.lean`, on the pages of the cache. What the pages of the inode
table and of directories hold is given by its meaning instead of its bytes: `raw` is the inode table as it
is read through the cache and `rawDisk` what of it is on the disk, and `entries` are for the blocks in
`dirBlocks`, which hold a directory. Time stamps and the lists that nothing walks over (`lru`, `link`) are
left out. The write lock of an inode is part of the state, since `inode_delete` keeps it.
-/

namespace QuarkOS

open Bytes Function

def fileDnameLen : Nat := 40

def ext2IfDir : BitVec 16 := 0x4000

def ext2AllRwx : BitVec 16 := 0x1fd

/-- `directory_t`. `brother` is the directory whose list `child` the entry is linked in, and `sb` says
that the pointer to the super block was set. -/
structure Directory where
  ino : Nat
  inode : Option Nat
  name : Name
  sb : Bool
  parent : Option Nat
  child : List Nat
  brother : Option Nat
deriving DecidableEq, Repr

structure InodeInfo extends Inode where
  linkCnt : Nat
  permission : BitVec 16
  dir : Option Nat
  writelock : Bool

/-- `ext2_inode_t`, a slot of the inode table. -/
structure Ext2Inode where
  mode : BitVec 16
  size : Nat
  linkCnt : Nat
  cntSectors : Nat
  blocks : Nat → Nat

/-- The fields of `ext2_sb_info_t` that are about inodes; the lists have an entry for each group. -/
structure InodeGeometry where
  inodePerGroup : Nat
  inodeSize : Nat
  inodeBitmapAddr : List Nat
  inodeTableAddr : List Nat
deriving DecidableEq, Repr

structure Mount where
  sb : Ext2SbInfo
  geometry : InodeGeometry
  cache : PageCache
  raw : Nat → Ext2Inode
  rawDisk : Nat → Ext2Inode
  dirBlocks : Finset Nat
  entries : Nat → List Ext2Dir
  inodes : Nat → Option InodeInfo
  /-- The free objects of the slab, with the word that a new inode has as its state. -/
  inoCache : List (Nat × InodeState)
  dirs : Nat → Option Directory
  dirCache : List Nat
  /-- The queue of inodes to write back. -/
  inodeDirty : List Nat
  /-- The directory in `vfs_tree`. -/
  root : Nat
  /-- The inode of `CUR_TCB->cwd`; `none` when it is the descriptor 0. -/
  cwd : Option Nat

/-- The inode that `inode_cpy` makes of a slot, in an object with the given state. -/
def Ext2Inode.info (ei : Ext2Inode) (state : InodeState) : InodeInfo where
  state
  type := ei.mode &&& 0xf000
  size := ei.size
  offset := 0
  blockCnt := ei.cntSectors / (blockSize / sectorSize)
  blocks := ei.blocks
  linkCnt := ei.linkCnt
  permission := ei.mode &&& 0xfff
  dir := none
  writelock := false

def InodeInfo.isDir (i : InodeInfo) : Bool := i.type &&& ext2IfDir ≠ 0

def InodeInfo.isReg (i : InodeInfo) : Bool := i.type &&& ext2IfReg ≠ 0

/-- A pointer that is gone through. -/
def deref : Option Nat → Except Fault Nat
  | none => .error .undefined
  | some a => .ok a

namespace Mount

variable (s : Mount)

def inode (p : Nat) : Except Fault InodeInfo :=
  match s.inodes p with
  | none => .error .undefined
  | some i => .ok i

def directory (d : Nat) : Except Fault Directory :=
  match s.dirs d with
  | none => .error .undefined
  | some dir => .ok dir

def setInode (p : Nat) (i : InodeInfo) : Mount :=
  { s with inodes := update s.inodes p (some i) }

def setDir (d : Nat) (dir : Directory) : Mount :=
  { s with dirs := update s.dirs d (some dir) }

def inodeGet : Except Fault (Nat × InodeState × Mount) :=
  match s.inoCache with
  | [] => .error .outOfMemory
  | (p, state) :: inoCache => .ok (p, state, { s with inoCache })

/-- The object comes before the other free ones of its page, and a page that was full comes first. -/
def inodeDestroy (p : Nat) : Mount :=
  let others := s.inoCache.takeWhile fun q => q.1 / pageSize ≠ p / pageSize
  let page := s.inoCache.dropWhile fun q => q.1 / pageSize ≠ p / pageSize
  { s with
    inodes := update s.inodes p none
    -- `__slab_free` stores the link to the next object of the page where the state was; `I_OLD` is 0
    inoCache := if page = [] then (p, .old) :: s.inoCache else others ++ (p, .other) :: page }

/-- An inode that was clean is put into the queue. -/
def markInodeDirty (p : Nat) (state : InodeState) : Except Fault Mount := do
  let i ← s.inode p
  let s := s.setInode p { i with toInode := QuarkOS.markInodeDirty i.toInode state }
  if i.state = .old ∨ i.state = .other then .ok { s with inodeDirty := s.inodeDirty ++ [p] } else .ok s

/-- The group of a number, and its place in the group. -/
def inodePlace (ino : Nat) : Nat × Nat :=
  let n := (ino + 2 ^ 32 - 1) % 2 ^ 32
  (n / s.geometry.inodePerGroup, n % s.geometry.inodePerGroup)

def inodePerBlock : Nat := blockSize / s.geometry.inodeSize

/-- The block of the inode table with the slot of a number. -/
def inodeBlock (ino : Nat) : Except Fault Nat :=
  if s.geometry.inodePerGroup = 0 ∨ s.inodePerBlock = 0 then .error .undefined
  else
    match s.geometry.inodeTableAddr[(s.inodePlace ino).1]? with
    | none => .error .undefined
    | some base => .ok ((base + (s.inodePlace ino).2 / s.inodePerBlock) % 2 ^ 32)

def sizeofExt2Inode : Nat := 128

/-- Where the slot of a number lies from the start of its page on: at the place in the group. -/
def inodeOffset (ino : Nat) : Nat := (s.inodePlace ino).2 * s.geometry.inodeSize % 2 ^ 32

/-- The page with the slot of a number. -/
def getRawInode (ino : Nat) : Except Fault (Nat × Mount) := do
  let blkNo ← s.inodeBlock ino
  let (page, cache) ← ext2BlockRead s.cache blkNo
  if s.inodeOffset ino + sizeofExt2Inode ≤ blockSize then
    .ok (page, { s with cache })
  else .error .undefined

def inodeCpy (ino : Nat) : Except Fault (Nat × Mount) := do
  let (_, s) ← s.getRawInode ino
  let (p, state, s) ← s.inodeGet
  let s := s.setInode p ((s.raw ino).info state)
  let s ← s.markInodeDirty p .time
  .ok (p, s)

def directoryGet : Except Fault (Nat × Mount) :=
  match s.dirCache with
  | [] => .error .assertk
  | d :: dirCache => .ok (d, { s with dirCache })

def directoryDestroy (d : Nat) : Mount :=
  { s with dirs := update s.dirs d none, dirCache := d :: s.dirCache }

def dirNameSet (name : Name) : Except Fault Name := do
  assertk (name.length ≤ fileNameLen)
  .ok name

/-- The bytes of a name after the first 40 are not copied. -/
def dirNameDump (name : Name) : Except Fault Name :=
  if name.length ≤ fileDnameLen then .ok name else .error .undefined

/-- For a name of the length of the entry's name; the bytes after the first 40 are not compared. -/
def dirNameCmp (dir : Directory) (name : Name) : Bool :=
  dir.name.take fileDnameLen = name.take fileDnameLen

/-- The new entry is not in a list yet. `sb` is the one of the inode, which `inode_alloc` sets later. -/
def directoryAlloc (name : Name) (ino : Nat) (parent : Option Nat) (inode : Nat) (sb : Bool) :
    Except Fault (Nat × Mount) := do
  let (d, s) ← s.directoryGet
  let name ← dirNameSet name
  .ok (d, s.setDir d { ino, inode := some inode, name, sb, parent, child := [], brother := none })

def directoryCpy (src : Ext2Dir) (parent : Nat) : Except Fault (Nat × Mount) := do
  let (d, s) ← s.directoryGet
  let name ← dirNameSet src.name
  let parentDir ← s.directory parent
  if parentDir.sb then
    .ok (d, s.setDir d
      { ino := src.inode, inode := none, name, sb := true, parent := some parent, child := []
        brother := none })
  else .error .undefined

def addChild (d parent : Nat) : Except Fault Mount := do
  let dir ← s.directory d
  let s := s.setDir d { dir with brother := some parent }
  let parentDir ← s.directory parent
  .ok (s.setDir parent { parentDir with child := parentDir.child ++ [d] })

def delChild (d : Nat) : Except Fault Mount := do
  let dir ← s.directory d
  let parent ← deref dir.brother
  let s := s.setDir d { dir with brother := none }
  let parentDir ← s.directory parent
  .ok (s.setDir parent { parentDir with child := parentDir.child.erase d })

/-- The loop of `find_entry_cache` over the list of a directory. -/
def findEntryCache (name : Name) : List Nat → Except Fault (Option Nat)
  | [] => .ok none
  | d :: child => do
    let tmp ← s.directory d
    if tmp.name.length = name.length ∧ dirNameCmp tmp name then .ok (some d)
    else findEntryCache name child

def maxBlocks : Nat := nDirectBlock + nPtr + nPtr * nPtr + nPtr * nPtr * nPtr

/-- `for_each_block` with a body that ends the loop when it returns something. -/
def forEachBlock {β : Type} (inode : Inode) (body : Nat → Mount → Except Fault (Option β × Mount)) :
    Nat → BlockPos → Mount → Except Fault (Option β × Mount)
  | 0, _, _ => .error .spin
  | fuel + 1, id, s => do
    let (bid, id, cache) ← nextBlock inode id s.cache
    if bid = 0 then .ok (none, { s with cache })
    else
      let (_, cache) ← ext2BlockRead cache bid
      match ← body bid { s with cache } with
      | (some b, s) => .ok (some b, s)
      | (none, s) => forEachBlock inode body fuel id s

def forBlocks {β : Type} (inode : Inode) (body : Nat → Mount → Except Fault (Option β × Mount)) :
    Except Fault (Option β × Mount) :=
  forEachBlock inode body (maxBlocks + 1) (fun _ => 0) s

/-- The bytes of any other block are no entries. -/
def block (bid : Nat) : Except Fault (List Ext2Dir) :=
  if bid ∈ s.dirBlocks then .ok (s.entries bid) else .error .undefined

/-- The block is changed and its page marked. -/
def setBlock (bid : Nat) (block : List Ext2Dir) : Except Fault Mount := do
  let cache ← s.cache.markPageDirty (ext2Block2Lba bid)
  .ok { s with cache, entries := update s.entries bid block }

def findInBlock (name : Name) (bid : Nat) (s : Mount) : Except Fault (Option Ext2Dir × Mount) := do
  let block ← s.block bid
  .ok (block.find? fun dir => dir.Matches name, s)

def findEntryDisk (parent : Nat) (name : Name) : Except Fault (Option Nat × Mount) := do
  let i ← s.inode parent
  match ← s.forBlocks i.toInode (findInBlock name) with
  | (none, s) => .ok (none, s)
  | (some dir, s) => do
    let parentDir ← deref i.dir
    let (d, s) ← s.directoryCpy dir parentDir
    .ok (some d, s)

def createIn (ino : Nat) (name : Name) (type : Nat) (bid : Nat) (s : Mount) :
    Except Fault (Option Unit × Mount) := do
  let block ← s.block bid
  match ← createInBlock ino name type block with
  | none => .ok (none, s)
  | some block => do
    let s ← s.setBlock bid block
    .ok (some (), s)

/-- The end of `create_dir_entry`: a new block with the entry. -/
def createBlock (parent : Nat) (i : InodeInfo) (ino : Nat) (name : Name) (type : Nat) :
    Except Fault Mount := do
  let (bid, node, cache) ← allocBlock s.sb i.toInode (nextFreeBno i.toInode) s.cache
  let node := { node with size := (node.size + blockSize) % 2 ^ 64 }
  let (_, cache) ← ext2BlockRead cache bid
  let placed ← newDirEntry (emptyEntry blockSize) ino name type
  let s := { s.setInode parent { i with toInode := node } with
    cache
    dirBlocks := insert bid s.dirBlocks }
  match placed with
  | some (before, new) => s.setBlock bid (before ++ [new])
  | none => s.setBlock bid [emptyEntry blockSize]

def createDirEntry (parent : Nat) (name : Name) (ino type : Nat) : Except Fault Mount := do
  let i ← s.inode parent
  match ← s.forBlocks i.toInode (createIn ino name type) with
  | (some _, s) => .ok s
  | (none, s) => s.createBlock parent i ino name type

def removeIn (name : Name) (bid : Nat) (s : Mount) : Except Fault (Option Unit × Mount) := do
  let block ← s.block bid
  match removeInBlock name block with
  | none => .ok (none, s)
  | some block => do
    let s ← s.setBlock bid block
    .ok (some (), s)

def removeFromParent (parent target : Nat) : Except Fault Mount := do
  let dir ← s.directory target
  let name ← dirNameDump dir.name
  let i ← s.inode parent
  let (_, s) ← s.forBlocks i.toInode (removeIn name)
  .ok s

def dot : Name := [0x2e]

def dotDot : Name := [0x2e, 0x2e]

/-- An entry that makes a directory count as not empty. -/
def otherIn (bid : Nat) (s : Mount) : Except Fault (Option Unit × Mount) := do
  let block ← s.block bid
  if block.any fun dir => dir.inode ≠ 0 ∧ dir.name ≠ dot ∧ dir.name ≠ dotDot then .ok (some (), s)
  else .ok (none, s)

def dirEmpty (p : Nat) : Except Fault (Bool × Mount) := do
  let i ← s.inode p
  assertk i.isDir
  if i.linkCnt ≠ 2 then .ok (false, s)
  else do
    let (found, s) ← s.forBlocks i.toInode otherIn
    .ok (found = none, s)

def ext2FtDir : Nat := 2

/-- `type_inode2dir`, whose table has an entry less than its bound says. -/
def typeInode2dir (type : BitVec 16) : Except Fault Nat :=
  match [5, 3, ext2FtDir, 4, 1, 7, 6][(type >>> 13).toNat]? with
  | none => .error .undefined
  | some ft => .ok ft

/-- The entries `.` and `..` of a new directory. -/
def makeEmptyDir (p : Nat) : Except Fault Mount := do
  let i ← s.inode p
  let bid := i.blocks 0
  assertk (bid ≠ 0)
  let (_, cache) ← ext2BlockRead s.cache bid
  let d ← deref i.dir
  let dir ← s.directory d
  let parent ← deref dir.parent
  let parentDir ← s.directory parent
  let s := { s with cache, dirBlocks := insert bid s.dirBlocks }
  match ← newDirEntry (emptyEntry blockSize) dir.ino dot ext2FtDir with
  | none => .error .undefined
  | some (before, new) => do
    match ← newDirEntry new parentDir.ino dotDot ext2FtDir with
    | none => s.setBlock bid (before ++ [new])
    | some (before', new) => s.setBlock bid (before ++ before' ++ [new])

def appendLinkToParent (parent d : Nat) (type : BitVec 16) : Except Fault Mount := do
  let ft ← typeInode2dir type
  let dir ← s.directory d
  let name ← dirNameDump dir.name
  let s ← s.createDirEntry parent name dir.ino ft
  let i ← s.inode parent
  let parentDir ← deref i.dir
  s.addChild d parentDir

def setLinkCnt (p cnt : Nat) : Except Fault Mount := do
  let i ← s.inode p
  .ok (s.setInode p { i with linkCnt := cnt % 2 ^ 16 })

def appendToParent (parent child : Nat) : Except Fault Mount := do
  let i ← s.inode child
  let d ← deref i.dir
  let s ← s.appendLinkToParent parent d i.type
  if i.isDir then do
    let par ← s.inode parent
    let s ← s.setLinkCnt parent (par.linkCnt + 1)
    s.markInodeDirty parent .data
  else .ok s

def freeInodesCnt (page : Area) (off : Nat) : Nat := load page (off + 14) 2

def setFreeInodesCnt (page : Area) (off cnt : Nat) : Area := store page (off + 14) 2 cnt

def dirNum (page : Area) (off : Nat) : Nat := load page (off + 16) 2

def setDirNum (page : Area) (off cnt : Nat) : Area := store page (off + 16) 2 cnt

def findGroup (parent : Nat) : Except Fault (Nat × Mount) := do
  let (empty, s) ← s.dirEmpty parent
  if empty then do
    let (groupNo, cache) ← findGroupMin freeInodesCnt s.cache s.sb.groupCnt 0 0xffffffff none
    .ok (groupNo, { s with cache })
  else do
    let i ← s.inode parent
    let d ← deref i.dir
    let dir ← s.directory d
    let groupNo := (s.inodePlace dir.ino).1
    let (groupNo, cache) ←
      findGroupNext freeInodesCnt s.cache s.sb.groupCnt groupNo (s.sb.groupCnt + 1) groupNo
    .ok (groupNo, { s with cache })

def setInodeBitmap (parent : Nat) : Except Fault (Nat × Mount) := do
  let (groupNo, s) ← s.findGroup parent
  match s.geometry.inodeBitmapAddr[groupNo]? with
  | none => .error .undefined
  | some addr => do
    let (buf, cache) ← ext2BlockRead s.cache addr
    match setNextZeroBit (cache.data buf) (s.geometry.inodePerGroup / 8) with
    | none => .error .error
    | some (bit, map) => do
      let cache ← (cache.setData buf map).markPageDirty buf
      .ok ((bit + 1 + groupNo * s.sb.blockPerGroup) % 2 ^ 32, { s with cache })

/-- The byte `map[ino / 8]` is in the page when the number is below eight times the page size. -/
def clearInodeBitmap (ino : Nat) : Except Fault Mount :=
  match s.geometry.inodeBitmapAddr[(s.inodePlace ino).1]? with
  | none => .error .undefined
  | some addr => do
    let (buf, cache) ← ext2BlockRead s.cache addr
    let n := (ino + 2 ^ 32 - 1) % 2 ^ 32
    if n / 8 < pageSize then
      let cache ← (cache.setData buf (clearBit (cache.data buf) n)).markPageDirty buf
      .ok { s with cache }
    else .error .undefined

/-- The counts of the group of an inode that comes or goes. -/
def countInode (ino : Nat) (free dirs : Nat → Nat) : Except Fault Mount := do
  let (buf, off, cache) ← getRawGd s.cache (s.inodePlace ino).1
  let page := cache.data buf
  let page := setFreeInodesCnt page off (free (freeInodesCnt page off))
  let page := setDirNum page off (dirs (dirNum page off))
  let cache ← (cache.setData buf page).markPageDirty buf
  .ok { s with cache }

def inodeAlloc (parent : Nat) (mode : BitVec 16) (name : Name) : Except Fault (Nat × Mount) := do
  let par ← s.inode parent
  let (p, state, s) ← s.inodeGet
  let (ino, s) ← s.setInodeBitmap parent
  let (d, s) ← s.directoryAlloc name ino par.dir p false
  let type := mode &&& 0xf000
  if type ≠ ext2IfReg ∧ type ≠ ext2IfDir then .error .error
  else do
    let s := s.setInode p
      { state
        type
        size := 0
        offset := 0
        blockCnt := 0
        blocks := fun _ => 0
        linkCnt := if type = ext2IfDir then 2 else 1
        permission := mode &&& 0xfff
        dir := some d
        writelock := false }
    let s ← s.countInode ino (· + 2 ^ 16 - 1) fun n => if type = ext2IfDir then n + 1 else n
    .ok (p, s)

/-- `clear_block_bitmap`; a free block holds no directory. -/
def clearBlock (bid : Nat) (s : Mount) : Except Fault Mount := do
  let cache ← clearBlockBitmap s.sb bid s.cache
  .ok { s with cache, dirBlocks := s.dirBlocks.erase bid }

def freePtrs (free : Nat → Mount → Except Fault Mount) (page : Nat) :
    Nat → Nat → Mount → Except Fault Mount
  | 0, _, s => .ok s
  | fuel + 1, i, s =>
    if ptrAt (s.cache.data page) i = 0 then .ok s
    else do
      let s ← free (ptrAt (s.cache.data page) i) s
      freePtrs free page fuel (i + 1) s

def freePtr : Nat → Nat → Mount → Except Fault Mount
  | 0, bid, s => clearBlock bid s
  | layer + 1, bid, s => do
    let (page, cache) ← ext2BlockRead s.cache bid
    let s ← freePtrs (freePtr layer) page nPtr 0 { s with cache }
    clearBlock bid s

/-- The blocks are those of the inode, which keeps its pointers. -/
def freeBlocks (blocks : Nat → Nat) (s : Mount) : Except Fault Mount := do
  let s ← (List.range nDirectBlock).foldlM
    (fun s i => if blocks i = 0 then .ok s else clearBlock (blocks i) s) s
  (List.range 3).foldlM (fun s i => if blocks (nDirectBlock + i) = 0 then .ok s
    else freePtr (i + 1) (blocks (nDirectBlock + i)) s) s

/-- The write lock is not given back. -/
def inodeDelete (p : Nat) : Except Fault Mount := do
  let i ← s.inode p
  if i.writelock then .error .spin
  else do
    let s ← freeBlocks i.blocks s
    let s := s.setInode p { i with linkCnt := 0, blockCnt := 0, writelock := true }
    let d ← deref i.dir
    let dir ← s.directory d
    let s ← s.clearInodeBitmap dir.ino
    let s ← s.delChild d
    let s ← s.countInode dir.ino (· + 1) fun n => if i.isDir then n + 2 ^ 16 - 1 else n
    s.markInodeDirty p .del

/-- What the write-back puts into the slot. -/
def rawOf (i : InodeInfo) (raw : Ext2Inode) : Ext2Inode :=
  if i.state = .data ∨ i.state = .new then
    { mode := i.type ||| i.permission
      size := i.size % 2 ^ 32
      linkCnt := i.linkCnt
      cntSectors := i.blockCnt * 8 % 2 ^ 32
      blocks := i.blocks }
  else if i.state = .del then { raw with linkCnt := 0, cntSectors := 0, blocks := fun _ => 0 }
  else raw

def ext2WriteBack (p : Nat) : Except Fault Mount := do
  let i ← s.inode p
  let d ← deref i.dir
  let dir ← s.directory d
  let (page, s) ← s.getRawInode dir.ino
  let s := { s with raw := update s.raw dir.ino (rawOf i (s.raw dir.ino)) }
  if i.state = .del then do
    assertk (i.linkCnt = 0)
    let cache ← s.cache.markPageDirty page
    .ok ({ s with cache }.directoryDestroy d |>.inodeDestroy p)
  else do
    let cache ← s.cache.markPageDirty page
    .ok ({ s with cache }.setInode p { i with state := .old })

end Mount

end QuarkOS
