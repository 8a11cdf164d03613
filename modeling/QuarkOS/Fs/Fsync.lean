import QuarkOS.Fs.Names

/-!
# Writing back a mounted file system

`page_fsync`: the super block, the inodes of the dirty queue and then the dirty pages. The pages are
flushed in an order that is given from outside, and every page in it has to be dirty. A transfer of a page
of the inode table brings the slots of the page to the disk.

`vfs_read` and `vfs_write` on an inode in memory, where a write puts a clean inode into the queue.
-/

namespace QuarkOS

open Bytes

namespace Mount

variable (s : Mount)

/-- The loops of `get_free_inode_cnt` and `get_free_block_cnt` over the groups. -/
def sumGroups (count : Area → Nat → Nat) : Nat → Nat → PageCache → Except Fault (Nat × PageCache)
  | 0, _, cache => .ok (0, cache)
  | fuel + 1, i, cache => do
    let (page, off, cache) ← getRawGd cache i
    let cnt := count (cache.data page) off
    let (sum, cache) ← sumGroups count fuel (i + 1) cache
    .ok (cnt + sum, cache)

def superBlockNo : Nat := 2

def ext2Signature : Nat := 0xef53

def ext2WriteSuperBlock : Except Fault Mount := do
  let (freeInodeCnt, cache) ← sumGroups freeInodesCnt s.sb.groupCnt 0 s.cache
  let (freeBlocks, cache) ← sumGroups freeBlockCnt s.sb.groupCnt 0 cache
  let (buf, cache) ← ext2BlockRead cache 0
  let blk := sectorSize * superBlockNo
  assertk (load (cache.data buf) (blk + 56) 2 = ext2Signature)
  let page := store (cache.data buf) (blk + 12) 4 (freeBlocks % 2 ^ 32)
  let page := store page (blk + 16) 4 (freeInodeCnt % 2 ^ 32)
  let cache ← (cache.setData buf page).markPageDirty buf
  .ok { s with cache }

def flushQueue : List Nat → Mount → Except Fault Mount
  | [], s => .ok s
  | p :: inodeDirty, s => do
    let s ← { s with inodeDirty }.ext2WriteBack p
    flushQueue inodeDirty s

def flushInode : Except Fault Mount :=
  if s.inodeDirty = [] then .ok s
  else do
    let s ← s.ext2WriteSuperBlock
    flushQueue s.inodeDirty s

/-- The slots of the inode table that are on a page. -/
def OnPage (no ino : Nat) : Prop := ∃ blkNo, s.inodeBlock ino = .ok blkNo ∧ ext2Block2Lba blkNo = no

instance (no ino : Nat) : Decidable (s.OnPage no ino) :=
  match h : s.inodeBlock ino with
  | .error _ => isFalse fun ⟨_, hblk, _⟩ => nomatch h.symm.trans hblk
  | .ok blkNo =>
    if hno : ext2Block2Lba blkNo = no then isTrue ⟨blkNo, h, hno⟩
    else isFalse fun ⟨_, hblk, hno'⟩ => hno (Except.ok.inj (h.symm.trans hblk) ▸ hno')

/-- A transfer that goes to other sectors than the ones of the page is not followed further. -/
def pageFlush (no : Nat) : Except Fault Mount :=
  match s.cache.bufs no with
  | none => .error .undefined
  | some buf => do
    assertk buf.dirty
    if lba28 no = no then
      .ok { s with
        cache := s.cache.pageRw no buf
        rawDisk := fun ino => if s.OnPage no ino then s.raw ino else s.rawDisk ino }
    else .error .undefined

def flushPages : List Nat → Mount → Except Fault Mount
  | [], s => .ok s
  | no :: order, s => do
    let s ← s.pageFlush no
    flushPages order s

def pageFsync (order : List Nat) : Except Fault Mount := do
  let s ← s.flushInode
  flushPages order s

def vfsRead (p size : Nat) : Except Fault (List Byte × Mount) := do
  let i ← s.inode p
  let (bytes, node, cache) ← Fs.vfsReadLoop size size i.toInode s.cache
  .ok (bytes, { s with cache }.setInode p { i with toInode := node })

/-- A write takes the write lock of the inode, and its first round puts a clean inode into the queue. -/
def vfsWrite (p : Nat) (buf : List Byte) : Except Fault (Nat × Mount) := do
  let i ← s.inode p
  if buf = [] then .ok (0, s)
  else if i.writelock then .error .spin
  else do
    let (cnt, node, cache) ← Fs.vfsWriteLoop s.sb buf.length buf i.toInode s.cache
    let s := { s with cache }.setInode p { i with toInode := node }
    .ok (cnt, if i.state = .old ∨ i.state = .other then { s with inodeDirty := s.inodeDirty ++ [p] }
      else s)

end Mount

end QuarkOS
