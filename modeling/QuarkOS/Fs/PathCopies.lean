import Mathlib.Data.Finset.Disjoint
import Mathlib.Data.Finset.Lattice.Lemmas
import QuarkOS.Fs.OpenInode

/-!
# Path copies

Every call of `vfs.c` that takes a path copies it first (`parse_path`), since the walk cuts the path into
names in place. The copy is freed at the end of the call only: a return with an error code is in front of
`kfree`, so the copy stays allocated. It is all that stays. A call that fails has done nothing but look
things up, which brings pages, inodes and entries into memory and changes no block, no directory, no
inode that was in memory before, and no descriptor.
-/

namespace QuarkOS

namespace Mount

variable {s s' s'' : Mount} {p parent d : Nat} {name path : Name} {o : Option Nat} {ret : Int}

/-- The contents of the blocks, the directories and the inodes in memory stay. -/
structure Looked (s s' : Mount) : Prop where
  view : s'.cache.view = s.cache.view
  dirBlocks : s'.dirBlocks = s.dirBlocks
  entries : s'.entries = s.entries
  inodes : s.Slab → s'.Slab ∧ ∀ p i, s.inodes p = some i → s'.inodes p = some i

theorem Looked.refl (s : Mount) : Looked s s := ⟨rfl, rfl, rfl, fun h => ⟨h, fun _ _ hp => hp⟩⟩

theorem Looked.trans (h : Looked s s') (h' : Looked s' s'') : Looked s s'' := by
  refine ⟨h'.view.trans h.view, h'.dirBlocks.trans h.dirBlocks, h'.entries.trans h.entries, fun hslab => ?_⟩
  obtain ⟨hslab', hinodes⟩ := h.inodes hslab
  obtain ⟨hslab'', hinodes'⟩ := h'.inodes hslab'
  exact ⟨hslab'', fun p i hp => hinodes' p i (hinodes p i hp)⟩

theorem Reads.looked (h : Reads s s') : Looked s s' := by
  obtain ⟨cache, hcache, rfl⟩ := h
  exact ⟨hcache.view, rfl, rfl, fun hslab => ⟨⟨hslab.free, hslab.nodup⟩, fun _ _ hp => hp⟩⟩

theorem ext2InodeMount_looked (h : s.ext2InodeMount d = .ok s') : Looked s s' := by
  have hinodes := fun hslab => ext2InodeMount_inodes hslab h
  obtain ⟨dir, _, ⟨_, rfl⟩ | ⟨_, p, cache, _, _, _, _, hcache, _, rfl⟩⟩ := ext2InodeMount_eq h
  · exact .refl _
  · exact ⟨hcache.view, rfl, rfl, hinodes⟩

theorem findEntryDisk_looked (h : s.findEntryDisk p name = .ok (o, s')) : Looked s s' := by
  obtain ⟨s1, hs1, ⟨_, rfl⟩ | ⟨_, _, _, _, rfl⟩⟩ := findEntryDisk_reads h
  · exact hs1.looked
  · exact hs1.looked.trans ⟨rfl, rfl, rfl, fun hslab => ⟨⟨hslab.free, hslab.nodup⟩, fun _ _ hp => hp⟩⟩

theorem addChild_looked (h : s.addChild d parent = .ok s') : Looked s s' := by
  obtain ⟨dir, _, h⟩ := bind_eq_ok h
  obtain ⟨parentDir, _, h⟩ := bind_eq_ok h
  cases h
  exact ⟨rfl, rfl, rfl, fun hslab => ⟨⟨hslab.free, hslab.nodup⟩, fun _ _ hp => hp⟩⟩

theorem lookup_looked : Lookup Looked :=
  .of_parts .refl (fun _ _ _ => .trans) (fun _ _ _ => ext2InodeMount_looked)
    (fun _ _ _ _ _ => findEntryDisk_looked) fun _ _ _ _ => addChild_looked

theorem makeEntry_looked {make : Mount → Except Fault Mount} (h : s.makeEntry parent name make = .ok (ret, s'))
    (hfail : ret ≠ 0) : Looked s s' := by
  obtain ⟨par, _, h⟩ := bind_eq_ok h
  split at h
  · obtain ⟨d, _, h⟩ := bind_eq_ok h
    obtain ⟨⟨found, s1⟩, hfind, h⟩ := bind_eq_ok h
    cases found with
    | some e =>
      cases h
      exact lookup_looked.find _ _ _ _ _ hfind
    | none =>
      obtain ⟨s2, _, h⟩ := bind_eq_ok h
      cases h
      exact absurd rfl hfail
  · cases h
    exact .refl s

theorem ext2Rmdir_looked (h : s.ext2Rmdir p = .ok (ret, s')) (hfail : ret ≠ 0) : Looked s s' := by
  obtain ⟨i, _, h⟩ := bind_eq_ok h
  split at h
  · cases h
  · obtain ⟨dir, _, h⟩ := bind_eq_ok h
    obtain ⟨_, _, h⟩ := bind_eq_ok h
    split at h
    · split at h
      · cases h
        exact .refl s
      · obtain ⟨⟨empty, s1⟩, hempty, h⟩ := bind_eq_ok h
        cases empty with
        | false =>
          cases h
          exact (dirEmpty_reads hempty).looked
        | true =>
          obtain ⟨s2, _, h⟩ := bind_eq_ok h
          cases h
          exact absurd rfl hfail
    · cases h
      exact .refl s

theorem ext2Unlink_looked (h : s.ext2Unlink d = .ok (ret, s')) (hfail : ret ≠ 0) : Looked s s' := by
  obtain ⟨dir, _, h⟩ := bind_eq_ok h
  simp only [bind_ok_iff] at h
  obtain ⟨_, _, s1, hmount, dir', _, p, _, i, _, h⟩ := h
  split at h
  · cases h
    exact ext2InodeMount_looked hmount
  · simp only [bind_ok_iff] at h
    obtain ⟨pd, _, s2, _, parentDir, _, parent, _, s3, _, h⟩ := h
    cases h
    exact absurd rfl hfail

theorem ext2Link_looked (h : s.ext2Link p parent name = .ok (ret, s')) (hfail : ret ≠ 0) : Looked s s' := by
  obtain ⟨i, _, h⟩ := bind_eq_ok h
  split at h
  · split at h
    · cases h
    · simp only [bind_ok_iff, Prod.exists] at h
      obtain ⟨s1, _, d, _, dir, _, par, _, new, s2, _, s3, _, s4, _, h⟩ := h
      cases h
      exact absurd rfl hfail
  · cases h
    exact .refl s

theorem vfsMake_looked {make : Nat → Name → Mount → Except Fault Mount}
    (h : s.vfsMake path (fun s parent name => s.makeEntry parent name (make parent name)) = .ok (ret, s'))
    (hfail : ret ≠ 0) : Looked s s' := by
  obtain ⟨⟨found, name, s1⟩, hsplit, h⟩ := bind_eq_ok h
  have hs1 := lookup_looked.splitPath hsplit
  cases found with
  | none =>
    cases h
    exact hs1
  | some parent => exact hs1.trans (makeEntry_looked h hfail)

theorem vfsRmdir_looked (h : s.vfsRmdir path = .ok (ret, s')) (hfail : ret ≠ 0) : Looked s s' := by
  obtain ⟨⟨found, s1⟩, hfind, h⟩ := bind_eq_ok h
  have hs1 := lookup_looked.vfsFind hfind
  cases found with
  | none =>
    cases h
    exact hs1
  | some p => exact hs1.trans (ext2Rmdir_looked h hfail)

theorem vfsUnlink_looked (h : s.vfsUnlink path = .ok (ret, s')) (hfail : ret ≠ 0) : Looked s s' := by
  obtain ⟨⟨found, s1⟩, hfind, h⟩ := bind_eq_ok h
  have hs1 := lookup_looked.findDir hfind
  cases found with
  | none =>
    cases h
    exact hs1
  | some file =>
    obtain ⟨s2, hmount, h⟩ := bind_eq_ok h
    exact hs1.trans ((ext2InodeMount_looked hmount).trans (ext2Unlink_looked h hfail))

theorem vfsLink_looked {src desc : Name} (h : s.vfsLink src desc = .ok (ret, s')) (hfail : ret ≠ 0) :
    Looked s s' := by
  obtain ⟨⟨found, s1⟩, hfind, h⟩ := bind_eq_ok h
  have hs1 := lookup_looked.vfsFind hfind
  cases found with
  | none =>
    cases h
    exact hs1
  | some p =>
    obtain ⟨⟨found', name, s2⟩, hsplit, h⟩ := bind_eq_ok h
    have hs2 := hs1.trans (lookup_looked.splitPath hsplit)
    cases found' with
    | none =>
      cases h
      exact hs2
    | some parent => exact hs2.trans (ext2Link_looked h hfail)

end Mount

/-- A virtual file system, with the path copies that are allocated. -/
structure PathWorld where
  vfs : Vfs
  paths : Finset Nat

namespace Vfs

/-- A call that works on names only. -/
def onMount (w : Vfs) (call : Mount → Except Fault (Int × Mount)) : Except Fault (Int × Vfs) := do
  let (ret, mount) ← call w.mount
  .ok (ret, w.remount mount)

/-- The blocks with the bitmaps, the directories, the inodes in memory with their counts, and the
descriptors stay. -/
structure Kept (w w' : Vfs) : Prop where
  view : w'.mount.cache.view = w.mount.cache.view
  dirBlocks : w'.mount.dirBlocks = w.mount.dirBlocks
  entries : w'.mount.entries = w.mount.entries
  inodes : ∀ p i, w.mount.inodes p = some i → w'.mount.inodes p = some i
  refCnt : ∀ p, (w.mount.inodes p).isSome = true → w'.files.refCnt p = w.files.refCnt p
  hash : w'.files.hash = w.files.hash
  nodes : w'.files.nodes = w.files.nodes
  head : w'.files.head = w.files.head

theorem Kept.remount {w : Vfs} {mount : Mount} (h : w.mount.Looked mount) (hslab : w.mount.Slab) :
    Kept w (w.remount mount) where
  view := h.view
  dirBlocks := h.dirBlocks
  entries := h.entries
  inodes := (h.inodes hslab).2
  refCnt p hp := by
    refine if_neg fun hnew => ?_
    rw [Option.isNone_iff_eq_none.1 hnew.1] at hp
    cases hp
  hash := rfl
  nodes := rfl
  head := rfl

theorem onMount_kept {w w' : Vfs} {ret : Int} {call : Mount → Except Fault (Int × Mount)}
    (hcall : ∀ mount, call w.mount = .ok (ret, mount) → w.mount.Looked mount) (hslab : w.mount.Slab)
    (h : w.onMount call = .ok (ret, w')) : Kept w w' := by
  obtain ⟨⟨_, mount⟩, hmount, h⟩ := bind_eq_ok h
  cases h
  exact .remount (hcall mount hmount) hslab

theorem vfsOpen_kept {w w' : Vfs} {t addr : Nat} {path : Name} {fd : Int} (hslab : w.mount.Slab)
    (h : w.vfsOpen t path addr = .ok (fd, w')) (hfail : fd < 0) : Kept w w' := by
  obtain ⟨⟨found, mount⟩, hfind, h⟩ := bind_eq_ok h
  obtain ⟨⟨fd', files⟩, hopen, h⟩ := bind_eq_ok h
  cases found with
  | none =>
    cases hopen
    cases h
    have hkept := Kept.remount (Mount.lookup_looked.vfsFind hfind) hslab
    exact { hkept with }
  | some p =>
    obtain ⟨_, _, h⟩ := bind_eq_ok h
    obtain ⟨⟨n, hash⟩, _, hopen⟩ := bind_eq_ok hopen
    obtain ⟨files', _, hopen⟩ := bind_eq_ok hopen
    cases hopen
    cases h
    exact absurd hfail (Int.not_lt.2 (Int.natCast_nonneg n))

end Vfs

namespace PathWorld

variable (w : PathWorld)

/-- `addr` is the memory that `kmalloc` gives. -/
def parsePath (addr : Nat) : Except Fault PathWorld :=
  if addr ∈ w.paths then .error .outOfMemory else .ok { w with paths := insert addr w.paths }

def kfree (addr : Nat) : PathWorld := { w with paths := w.paths.erase addr }

def vfsOpen (t : Nat) (path : Name) (addr file : Nat) : Except Fault (Int × PathWorld) := do
  let w ← w.parsePath addr
  let (fd, vfs) ← w.vfs.vfsOpen t path file
  let w := { w with vfs }
  if fd < 0 then .ok (fd, w) else .ok (fd, w.kfree addr)

/-- A call with one path that changes names: an error is returned before `kfree`. -/
def withPath (addr : Nat) (call : Mount → Except Fault (Int × Mount)) : Except Fault (Int × PathWorld) := do
  let w ← w.parsePath addr
  let (error, vfs) ← w.vfs.onMount call
  let w := { w with vfs }
  if error ≠ 0 then .ok (error, w) else .ok (0, w.kfree addr)

def vfsMkdir (path : Name) (addr : Nat) : Except Fault (Int × PathWorld) :=
  w.withPath addr fun s => s.vfsMkdir path

def vfsMkfile (path : Name) (addr : Nat) : Except Fault (Int × PathWorld) :=
  w.withPath addr fun s => s.vfsMkfile path

def vfsRmdir (path : Name) (addr : Nat) : Except Fault (Int × PathWorld) :=
  w.withPath addr fun s => s.vfsRmdir path

def vfsUnlink (path : Name) (addr : Nat) : Except Fault (Int × PathWorld) :=
  w.withPath addr fun s => s.vfsUnlink path

def vfsLink (src desc : Name) (addr addr' : Nat) : Except Fault (Int × PathWorld) := do
  let w ← w.parsePath addr
  let w ← w.parsePath addr'
  let (error, vfs) ← w.vfs.onMount fun s => s.vfsLink src desc
  let w := { w with vfs }
  if error ≠ 0 then .ok (error, w) else .ok (0, (w.kfree addr').kfree addr)

end PathWorld

inductive PathCall
  | vfsOpen (t : Nat) (path : Name) (addr file : Nat)
  | vfsMkdir (path : Name) (addr : Nat)
  | vfsMkfile (path : Name) (addr : Nat)
  | vfsRmdir (path : Name) (addr : Nat)
  | vfsUnlink (path : Name) (addr : Nat)
  | vfsLink (src desc : Name) (addr addr' : Nat)
deriving DecidableEq, Repr

namespace PathCall

def copies : PathCall → Finset Nat
  | .vfsOpen _ _ addr _ | .vfsMkdir _ addr | .vfsMkfile _ addr | .vfsRmdir _ addr | .vfsUnlink _ addr =>
    {addr}
  | .vfsLink _ _ addr addr' => {addr', addr}

/-- What the caller takes for an error code. -/
def Failed : PathCall → Int → Prop
  | .vfsOpen .., fd => fd < 0
  | _, error => error ≠ 0

theorem copies_nonempty (call : PathCall) : ∃ addr, addr ∈ call.copies := by
  cases call with
  | vfsLink src desc addr addr' => exact ⟨addr', Finset.mem_insert_self ..⟩
  | _ => exact ⟨_, Finset.mem_singleton_self _⟩

end PathCall

namespace PathWorld

def step (w : PathWorld) : PathCall → Except Fault (Int × PathWorld)
  | .vfsOpen t path addr file => w.vfsOpen t path addr file
  | .vfsMkdir path addr => w.vfsMkdir path addr
  | .vfsMkfile path addr => w.vfsMkfile path addr
  | .vfsRmdir path addr => w.vfsRmdir path addr
  | .vfsUnlink path addr => w.vfsUnlink path addr
  | .vfsLink src desc addr addr' => w.vfsLink src desc addr addr'

/-- The call is over and nothing of it is left. -/
structure Same (w w' : PathWorld) : Prop extends w.vfs.Kept w'.vfs where
  paths : w'.paths = w.paths

/-- The copies are left, and nothing else of the call. -/
structure Leaks (w w' : PathWorld) (copies : Finset Nat) : Prop where
  new : Disjoint w.paths copies
  paths : w'.paths = copies ∪ w.paths
  kept : w.vfs.mount.Slab → w.vfs.Kept w'.vfs

variable {w w' : PathWorld} {addr : Nat} {ret : Int} {call : Mount → Except Fault (Int × Mount)}

theorem parsePath_eq_ok (h : w.parsePath addr = .ok w') :
    addr ∉ w.paths ∧ w' = { w with paths := insert addr w.paths } := by
  rw [parsePath] at h
  split at h
  · cases h
  · rename_i hnew
    cases h
    exact ⟨hnew, rfl⟩

theorem withPath_leaks (hcall : ∀ mount, call w.vfs.mount = .ok (ret, mount) → w.vfs.mount.Looked mount)
    (h : w.withPath addr call = .ok (ret, w')) (hfail : ret ≠ 0) : w.Leaks w' {addr} := by
  obtain ⟨w1, hparse, h⟩ := bind_eq_ok h
  obtain ⟨hnew, rfl⟩ := parsePath_eq_ok hparse
  obtain ⟨⟨error, vfs⟩, hmount, h⟩ := bind_eq_ok h
  dsimp only at h
  split at h
  · cases h
    exact ⟨Finset.disjoint_singleton_right.2 hnew, rfl, fun hslab => Vfs.onMount_kept hcall hslab hmount⟩
  · cases h
    exact absurd rfl hfail

theorem vfsOpen_leaks {t file : Nat} {path : Name} (h : w.vfsOpen t path addr file = .ok (ret, w'))
    (hfail : ret < 0) : w.Leaks w' {addr} := by
  obtain ⟨w1, hparse, h⟩ := bind_eq_ok h
  obtain ⟨hnew, rfl⟩ := parsePath_eq_ok hparse
  obtain ⟨⟨fd, vfs⟩, hopen, h⟩ := bind_eq_ok h
  dsimp only at h
  split at h
  · cases h
    exact ⟨Finset.disjoint_singleton_right.2 hnew, rfl, fun hslab => Vfs.vfsOpen_kept hslab hopen hfail⟩
  · rename_i hfd
    cases h
    exact absurd hfail hfd

theorem vfsLink_leaks {src desc : Name} {addr' : Nat} (h : w.vfsLink src desc addr addr' = .ok (ret, w'))
    (hfail : ret ≠ 0) : w.Leaks w' {addr', addr} := by
  obtain ⟨w1, hparse, h⟩ := bind_eq_ok h
  obtain ⟨hnew, rfl⟩ := parsePath_eq_ok hparse
  obtain ⟨w2, hparse', h⟩ := bind_eq_ok h
  obtain ⟨hnew', rfl⟩ := parsePath_eq_ok hparse'
  obtain ⟨⟨error, vfs⟩, hmount, h⟩ := bind_eq_ok h
  dsimp only at h
  split at h
  · cases h
    refine ⟨?_, ?_, fun hslab => ?_⟩
    · rw [Finset.disjoint_insert_right, Finset.disjoint_singleton_right]
      exact ⟨fun hmem => hnew' (Finset.mem_insert_of_mem hmem), hnew⟩
    · rw [Finset.insert_union]
      rfl
    · exact Vfs.onMount_kept (fun _ hlink => Mount.vfsLink_looked hlink hfail) hslab hmount
  · cases h
    exact absurd rfl hfail

theorem step_leaks {c : PathCall} (h : w.step c = .ok (ret, w')) (hfail : c.Failed ret) :
    w.Leaks w' c.copies := by
  cases c with
  | vfsOpen t path addr file => exact vfsOpen_leaks h hfail
  | vfsMkdir path addr => exact withPath_leaks (fun _ hcall => Mount.vfsMake_looked hcall hfail) h hfail
  | vfsMkfile path addr => exact withPath_leaks (fun _ hcall => Mount.vfsMake_looked hcall hfail) h hfail
  | vfsRmdir path addr => exact withPath_leaks (fun _ hcall => Mount.vfsRmdir_looked hcall hfail) h hfail
  | vfsUnlink path addr => exact withPath_leaks (fun _ hcall => Mount.vfsUnlink_looked hcall hfail) h hfail
  | vfsLink src desc addr addr' => exact vfsLink_leaks h hfail

theorem Leaks.not_same {copies : Finset Nat} (h : w.Leaks w' copies) (hcopies : ∃ addr, addr ∈ copies) :
    ¬ w.Same w' := by
  intro hsame
  obtain ⟨addr, hmem⟩ := hcopies
  refine Finset.disjoint_right.1 h.new hmem ?_
  rw [← hsame.paths, h.paths]
  exact Finset.mem_union_left _ hmem

end PathWorld

/-- A call leaves nothing behind on an error exactly if it never returns one: the copies of the paths stay.
In a file system whose slab is sound they are all that stays. -/
theorem pathCall_same_iff (w : PathWorld) (c : PathCall) :
    ((∀ ret w', w.step c = .ok (ret, w') → c.Failed ret → w.Same w') ↔
      ∀ ret w', w.step c = .ok (ret, w') → ¬ c.Failed ret) ∧
    ∀ ret w', w.step c = .ok (ret, w') → c.Failed ret → w.Leaks w' c.copies := by
  refine ⟨⟨fun h ret w' hstep hfail => ?_, fun h ret w' hstep hfail => absurd hfail (h ret w' hstep)⟩, ?_⟩
  · exact (PathWorld.step_leaks hstep hfail).not_same c.copies_nonempty (h ret w' hstep hfail)
  · exact fun ret w' => PathWorld.step_leaks

/-- A file that does not exist is opened on the small disk. -/
theorem openMissing_not_same : ∃ mount w', smallDisk.boot 0 = .ok mount ∧
    PathWorld.step ⟨⟨mount, oneTask⟩, ∅⟩ (.vfsOpen 1 fileA kernelStart 0) = .ok (-1, w') ∧
    kernelStart ∈ w'.paths ∧ ¬ PathWorld.Same ⟨⟨mount, oneTask⟩, ∅⟩ w' := by
  obtain ⟨_, hrun⟩ := exists_ok (x := do
      let mount ← smallDisk.boot 0
      let (fd, _) ← PathWorld.step ⟨⟨mount, oneTask⟩, ∅⟩ (.vfsOpen 1 fileA kernelStart 0)
      assertk (fd = -1))
    (by decide +kernel)
  obtain ⟨mount, hboot, hrun⟩ := bind_eq_ok hrun
  obtain ⟨⟨fd, w'⟩, hopen, hrun⟩ := bind_eq_ok hrun
  obtain rfl : fd = -1 := of_assertk hrun
  have hleaks := PathWorld.step_leaks hopen (by decide : (-1 : Int) < 0)
  refine ⟨mount, w', hboot, hopen, ?_, hleaks.not_same ⟨kernelStart, Finset.mem_singleton_self _⟩⟩
  rw [hleaks.paths]
  exact Finset.mem_union_left _ (Finset.mem_singleton_self _)

end QuarkOS
