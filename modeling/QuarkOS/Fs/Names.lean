import QuarkOS.Fs.Mount

/-!
# Operations on names

The operations of `ext2.c` on directories, and the paths of `vfs.c` that lead to them. A lookup goes to the
list of the directory first, and on a miss to its blocks; the entry it finds there is added to the list.
The inode of an entry is copied from the disk when it is first asked for.
-/

namespace QuarkOS

open Bytes

namespace Mount

variable (s : Mount)

def ext2InodeMount (d : Nat) : Except Fault Mount := do
  let dir ← s.directory d
  match dir.inode with
  | some _ => .ok s
  | none => do
    assertk (dir.parent.isSome ∧ dir.sb)
    let (p, s) ← s.inodeCpy dir.ino
    let i ← s.inode p
    .ok ((s.setDir d { dir with inode := some p }).setInode p { i with dir := some d })

def ext2Find (parent : Nat) (name : Name) : Except Fault (Option Nat × Mount) := do
  let dir ← s.directory parent
  match ← s.findEntryCache name dir.child with
  | some d => .ok (some d, s)
  | none => do
    let s ← s.ext2InodeMount parent
    let dir ← s.directory parent
    let p ← deref dir.inode
    match ← s.findEntryDisk p name with
    | (none, s) => .ok (none, s)
    | (some d, s) => do
      let s ← s.addChild d parent
      .ok (some d, s)

/-- The block that `ext2_mkdir` allocates for a new directory. -/
def newDirBlock (p : Nat) : Except Fault Mount := do
  let i ← s.inode p
  let (_, node, cache) ← allocBlock s.sb i.toInode 0 s.cache
  .ok ({ s with cache }.setInode p { i with toInode := { node with size := blockSize } })

/-- What `ext2_mkdir` and `ext2_mkfile` have in common: `make` is called if the directory has no such name. -/
def makeEntry (parent : Nat) (name : Name) (make : Mount → Except Fault Mount) :
    Except Fault (Int × Mount) := do
  let par ← s.inode parent
  if par.isDir then do
    let d ← deref par.dir
    match ← s.ext2Find d name with
    | (some _, s) => .ok (-2, s)
    | (none, s) => do
      let s ← make s
      .ok (0, s)
  else .ok (-1, s)

def ext2Mkdir (parent : Nat) (name : Name) : Except Fault (Int × Mount) :=
  s.makeEntry parent name fun s => do
    let (p, s) ← s.inodeAlloc parent (ext2AllRwx ||| ext2IfDir) name
    let s ← s.newDirBlock p
    let s ← s.makeEmptyDir p
    let s ← s.appendToParent parent p
    s.markInodeDirty p .new

def ext2Mkfile (parent : Nat) (name : Name) : Except Fault (Int × Mount) :=
  s.makeEntry parent name fun s => do
    let (p, s) ← s.inodeAlloc parent (ext2AllRwx ||| ext2IfReg) name
    let s ← s.appendToParent parent p
    s.markInodeDirty p .new

/-- The end of `ext2_rmdir`, for a directory that is empty. -/
def removeDir (p d : Nat) (parent : Option Nat) : Except Fault Mount := do
  let pd ← deref parent
  let s ← s.ext2InodeMount pd
  let dir ← s.directory pd
  let parent ← deref dir.inode
  let s ← s.removeFromParent parent d
  let s ← s.inodeDelete p
  let par ← s.inode parent
  if par.writelock then .error .spin
  else do
    let s ← s.setLinkCnt parent (par.linkCnt + 2 ^ 16 - 1)
    s.markInodeDirty parent .data

def ext2Rmdir (p : Nat) : Except Fault (Int × Mount) := do
  let i ← s.inode p
  match i.dir with
  | none => .error .assertk
  | some d => do
    let dir ← s.directory d
    assertk dir.parent.isSome
    if i.isDir then
      if dir.child ≠ [] then .ok (-2, s)
      else do
        match ← s.dirEmpty p with
        | (false, s) => .ok (-2, s)
        | (true, s) => do
          let s ← s.removeDir p d dir.parent
          .ok (0, s)
    else .ok (-1, s)

def ext2Link (src parent : Nat) (name : Name) : Except Fault (Int × Mount) := do
  let i ← s.inode src
  if i.isReg then
    if i.writelock then .error .spin
    else do
      let s ← s.setLinkCnt src (i.linkCnt + 1)
      let d ← deref i.dir
      let dir ← s.directory d
      let par ← s.inode parent
      let (new, s) ← s.directoryAlloc name dir.ino par.dir src true
      let s ← s.appendLinkToParent parent new i.type
      let s ← s.markInodeDirty src .data
      .ok (0, s)
  else .ok (-1, s)

/-- The end of `ext2_unlink`, with the inodes in memory. -/
def removeLink (p parent file : Nat) : Except Fault Mount := do
  let i ← s.inode p
  let cnt := (i.linkCnt + 2 ^ 16 - 1) % 2 ^ 16
  let s ← s.setLinkCnt p cnt
  let s ← s.removeFromParent parent file
  if cnt = 0 then s.inodeDelete p else s.markInodeDirty p .data

def ext2Unlink (file : Nat) : Except Fault (Int × Mount) := do
  let dir ← s.directory file
  assertk dir.parent.isSome
  let s ← s.ext2InodeMount file
  let dir ← s.directory file
  let p ← deref dir.inode
  let i ← s.inode p
  if i.isDir then .ok (-1, s)
  else do
    let pd ← deref dir.parent
    let s ← s.ext2InodeMount pd
    let parentDir ← s.directory pd
    let parent ← deref parentDir.inode
    let s ← s.removeLink p parent file
    .ok (0, s)

def separator : Byte := 0x2f

/-- The inode that the search for a path starts from. -/
def cwdOf (path : Name) : Except Fault Nat :=
  if path.head? = some separator then do
    let dir ← s.directory s.root
    match dir.inode with
    | none => .error .assertk
    | some p => .ok p
  else
    match s.cwd with
    | none => .error .assertk
    | some p => .ok p

/-- The names of a path that does not start with a separator, where `name` is what was read of the first
one. -/
def components (name : Name) : Name → List Name
  | [] => if name = [] then [] else [name]
  | c :: rest => if c = separator then name :: components [] rest else components (name ++ [c]) rest

/-- The loop of `find_dir`. -/
def findNames : List Name → Nat → Mount → Except Fault (Option Nat × Mount)
  | [], dir, s => .ok (some dir, s)
  | name :: names, dir, s => do
    match ← s.ext2Find dir name with
    | (none, s) => .ok (none, s)
    | (some d, s) => findNames names d s

def pathNames (path : Name) : List Name :=
  if path.head? = some separator then components [] path.tail else components [] path

def findDir (path : Name) : Except Fault (Option Nat × Mount) := do
  let parent ← s.cwdOf path
  let i ← s.inode parent
  let d ← deref i.dir
  findNames (pathNames path) d s

def vfsFind (path : Name) : Except Fault (Option Nat × Mount) := do
  match ← s.findDir path with
  | (none, s) => .ok (none, s)
  | (some d, s) => do
    let s ← s.ext2InodeMount d
    let dir ← s.directory d
    .ok (dir.inode, s)

/-- What comes after the last separator of a path. -/
def lastName (path : Name) : Name := (path.reverse.takeWhile fun c => c ≠ separator).reverse

/-- The inode of the directory and the name in it. -/
def splitPath (path : Name) : Except Fault (Option Nat × Name × Mount) :=
  let name := lastName path
  if path.length ≤ name.length + 1 then do
    let parent ← s.cwdOf path
    .ok (some parent, name, s)
  else do
    let (parent, s) ← s.vfsFind (path.take (path.length - name.length - 1))
    .ok (parent, name, s)

/-- What `vfs_mkdir` and `vfs_mkfile` have in common: `make` is called for the directory and the name. -/
def vfsMake (path : Name) (make : Mount → Nat → Name → Except Fault (Int × Mount)) :
    Except Fault (Int × Mount) := do
  match ← s.splitPath path with
  | (none, _, s) => .ok (-1, s)
  | (some parent, name, s) => make s parent name

def vfsMkdir (path : Name) : Except Fault (Int × Mount) := s.vfsMake path ext2Mkdir

def vfsMkfile (path : Name) : Except Fault (Int × Mount) := s.vfsMake path ext2Mkfile

def vfsRmdir (path : Name) : Except Fault (Int × Mount) := do
  match ← s.vfsFind path with
  | (none, s) => .ok (-1, s)
  | (some p, s) => s.ext2Rmdir p

def vfsUnlink (path : Name) : Except Fault (Int × Mount) := do
  match ← s.findDir path with
  | (none, s) => .ok (-2, s)
  | (some file, s) => do
    let s ← s.ext2InodeMount file
    s.ext2Unlink file

def vfsLink (src desc : Name) : Except Fault (Int × Mount) := do
  match ← s.vfsFind src with
  | (none, s) => .ok (-4, s)
  | (some p, s) => do
    match ← s.splitPath desc with
    | (none, _, s) => .ok (-3, s)
    | (some parent, name, s) => s.ext2Link p parent name

def rootInum : Nat := 2

/-- `root_init`; `vfs_mount` puts the directory into `vfs_tree`. -/
def rootInit : Except Fault Mount := do
  let (p, s) ← s.inodeCpy rootInum
  let (d, s) ← s.directoryAlloc [separator] rootInum none p true
  let i ← s.inode p
  .ok { s.setInode p { i with dir := some d } with root := d }

/-- The first task sets `CUR_TCB->cwd = vfs_ops.find("/")`, for which it gets the descriptor `fd`. -/
def boot (fd : Nat) : Except Fault Mount := do
  let s ← s.rootInit
  let dir ← s.directory s.root
  .ok { s with cwd := if fd = 0 then none else dir.inode }

/-- No inode and no entry is in memory yet, and what is in the cache is what is on the disk. -/
structure Blank (s : Mount) : Prop where
  dirs : s.dirs = fun _ => none
  inodes : s.inodes = fun _ => none
  dirCache : s.dirCache.Nodup
  inoCache : (s.inoCache.map Prod.fst).Nodup
  inodeDirty : s.inodeDirty = []
  clean : ∀ no buf, s.cache.bufs no = some buf →
    buf.dirty = false ∧ (buf.valid = true → buf.data = s.cache.disk (lba28 no))
  rawDisk : s.rawDisk = s.raw

end Mount

inductive NameOp
  /-- `find_dir` alone. -/
  | lookup (path : Name)
  | find (path : Name)
  /-- `ext2_inode_mount` of any entry in memory. -/
  | mount (d : Nat)
  | mkdir (path : Name)
  | mkfile (path : Name)
  | rmdir (path : Name)
  | unlink (path : Name)
  | link (src desc : Name)
deriving DecidableEq, Repr

def Mount.step (s : Mount) : NameOp → Except Fault (Int × Mount)
  | .lookup path => do
    let (found, s) ← s.findDir path
    .ok (if found.isSome then 0 else -1, s)
  | .mount d => do
    let s ← s.ext2InodeMount d
    .ok (0, s)
  | .find path => do
    let (found, s) ← s.vfsFind path
    .ok (if found.isSome then 0 else -1, s)
  | .mkdir path => s.vfsMkdir path
  | .mkfile path => s.vfsMkfile path
  | .rmdir path => s.vfsRmdir path
  | .unlink path => s.vfsUnlink path
  | .link src desc => s.vfsLink src desc

/-- What is reached by calls that meet a condition; a call may fail with an error code. -/
inductive NameRun (C : Mount → NameOp → Prop) (s0 : Mount) : Mount → Prop
  | start : NameRun C s0 s0
  | step {s s' : Mount} {ret : Int} (hrun : NameRun C s0 s) (op : NameOp) (hcond : C s op)
      (hstep : s.step op = .ok (ret, s')) : NameRun C s0 s'

end QuarkOS
