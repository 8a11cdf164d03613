import QuarkOS.Fs.Alias
import QuarkOS.Fs.Fsync
import QuarkOS.Fs.OpenFile

/-!
# Inodes of open files

The descriptors of `vfs.c` over a mounted file system. `ext2_unlink` deletes an inode with its last name,
whether it is open or not, and `ext2_write_back` gives a deleted inode back to the slab. An inode that is
`Live`, that is, in memory and not deleted, stays so until it is deleted itself; so a descriptor leads to an
inode in memory as long as no open inode is deleted, and no deleted one is opened.
-/

namespace QuarkOS

open Bytes Function

structure Vfs where
  mount : Mount
  files : FileWorld

namespace Vfs

variable (w : Vfs)

/-- A new inode has the reference count 0. -/
def remount (mount : Mount) : Vfs where
  mount
  files := { w.files with
    refCnt := fun p => if (w.mount.inodes p).isNone ∧ (mount.inodes p).isSome then 0 else w.files.refCnt p }

/-- `t` is the task that calls, and `addr` the memory for the new `open_file`. -/
def vfsOpen (t : Nat) (path : Name) (addr : Nat) : Except Fault (Int × Vfs) := do
  let (found, mount) ← w.mount.vfsFind path
  let w := w.remount mount
  let (fd, files) ← w.files.vfsOpen t path found addr
  match found with
  | none => .ok (fd, { w with files })
  | some p => do
    let _ ← mount.inode p
    .ok (fd, { w with files })

/-- `ext2_close` sets the offset of a directory back. -/
def vfsClose (t fd : Nat) : Except Fault (Int × Vfs) := do
  match ← w.files.hash.getInode fd with
  | none => .ok (-1, w)
  | some p => do
    let i ← w.mount.inode p
    let (ret, files) ← w.files.vfsClose t fd
    if files.refCnt p = 0 ∧ i.isDir then
      .ok (ret, { mount := w.mount.setInode p { i with offset := 0 }, files })
    else .ok (ret, { w with files })

/-- The number of bytes that were read. -/
def vfsRead (fd size : Nat) : Except Fault (Int × Vfs) := do
  match ← w.files.hash.getInode fd with
  | none => .ok (0, w)
  | some p => do
    let (bytes, mount) ← w.mount.vfsRead p size
    .ok (bytes.length, { w with mount })

def vfsWrite (fd : Nat) (buf : List Byte) : Except Fault (Int × Vfs) := do
  match ← w.files.hash.getInode fd with
  | none => .ok (0, w)
  | some p => do
    let (cnt, mount) ← w.mount.vfsWrite p buf
    .ok (cnt, { w with mount })

def vfsUnlink (path : Name) : Except Fault (Int × Vfs) := do
  let (ret, mount) ← w.mount.vfsUnlink path
  .ok (ret, w.remount mount)

def pageFsync (order : List Nat) : Except Fault (Int × Vfs) := do
  let mount ← w.mount.pageFsync order
  .ok (0, { w with mount })

end Vfs

inductive VfsEvent
  | vfsOpen (t : Nat) (path : Name) (addr : Nat)
  | vfsClose (t fd : Nat)
  | vfsRead (fd size : Nat)
  | vfsWrite (fd : Nat) (buf : List Byte)
  | vfsUnlink (path : Name)
  | pageFsync (order : List Nat)
deriving DecidableEq, Repr

def Vfs.step (w : Vfs) : VfsEvent → Except Fault (Int × Vfs)
  | .vfsOpen t path addr => w.vfsOpen t path addr
  | .vfsClose t fd => w.vfsClose t fd
  | .vfsRead fd size => w.vfsRead fd size
  | .vfsWrite fd buf => w.vfsWrite fd buf
  | .vfsUnlink path => w.vfsUnlink path
  | .pageFsync order => w.pageFsync order

inductive VfsRun (C : Vfs → VfsEvent → Prop) (w0 : Vfs) : Vfs → Prop
  | start : VfsRun C w0 w0
  | step {w w' : Vfs} {ret : Int} (hrun : VfsRun C w0 w) (ev : VfsEvent) (hcond : C w ev)
      (hstep : w.step ev = .ok (ret, w')) : VfsRun C w0 w'

/-- The inode of a descriptor is not in the slab. -/
def InMemory (w : Vfs) : Prop :=
  ∀ fd p, w.files.hash.getInode fd = .ok (some p) → (w.mount.inodes p).isSome = true

namespace Mount

variable {s s' s'' : Mount} {p q d : Nat} {i i' : InodeInfo} {D : Nat → Prop}

/-- The call of `vfs_unlink` finds an inode with one link. -/
def Deletes (s : Mount) (path : Name) (p : Nat) : Prop :=
  ∃ file s1 s2 dir i, s.findDir path = .ok (some file, s1) ∧ s1.ext2InodeMount file = .ok s2 ∧
    s2.dirs file = some dir ∧ dir.inode = some p ∧ s2.inodes p = some i ∧ i.linkCnt % 2 ^ 16 = 1

def Live (s : Mount) (p : Nat) : Prop := ∃ i, s.inodes p = some i ∧ i.state ≠ .del

structure Slab (s : Mount) : Prop where
  free : ∀ p ∈ s.inoCache.map Prod.fst, s.inodes p = none
  nodup : (s.inoCache.map Prod.fst).Nodup

/-- Live inodes stay live, except those in `D`. -/
def Keeps (D : Nat → Prop) (s s' : Mount) : Prop :=
  s.Slab → s'.Slab ∧ ∀ p, ¬ D p → s.Live p → s'.Live p

theorem Keeps.trans (h : Keeps D s s') (h' : Keeps D s' s'') : Keeps D s s'' := by
  intro hslab
  obtain ⟨hslab', hlive⟩ := h hslab
  obtain ⟨hslab'', hlive'⟩ := h' hslab'
  exact ⟨hslab'', fun p hp hs => hlive' p hp (hlive p hp hs)⟩

theorem Keeps.of_eq (hinodes : s'.inodes = s.inodes) (hino : s'.inoCache = s.inoCache) : Keeps D s s' := by
  intro hslab
  refine ⟨⟨?_, ?_⟩, fun p _ hlive => ?_⟩
  · rw [hinodes, hino]
    exact hslab.free
  · rw [hino]
    exact hslab.nodup
  · rw [Live, hinodes]
    exact hlive

theorem Keeps.refl (s : Mount) : Keeps D s s := .of_eq rfl rfl

theorem OnlyBlocks.keeps (h : OnlyBlocks s s') : Keeps D s s' := by
  obtain ⟨_, _, rfl⟩ := h
  exact .of_eq rfl rfl

theorem OnlyFree.keeps (h : OnlyFree s s') : Keeps D s s' := by
  obtain ⟨_, _, rfl⟩ := h
  exact .of_eq rfl rfl

theorem Keeps.setInode (hi : s.inodes p = some i) (hstate : D p ∨ i.state ≠ .del → i'.state ≠ .del ∨ D p) :
    Keeps D s (s.setInode p i') := by
  intro hslab
  refine ⟨⟨fun q hq => ?_, hslab.nodup⟩, fun q hD hlive => ?_⟩
  · have hfree := hslab.free q hq
    have hqp : q ≠ p := by
      rintro rfl
      rw [hi] at hfree
      cases hfree
    exact (update_of_ne hqp ..).trans hfree
  · by_cases hqp : q = p
    · subst hqp
      obtain ⟨j, hj, hnot⟩ := hlive
      rw [hi] at hj
      cases hj
      exact ⟨i', update_self .., (hstate (Or.inr hnot)).resolve_right hD⟩
    · obtain ⟨j, hj, hnot⟩ := hlive
      exact ⟨j, (update_of_ne hqp ..).trans hj, hnot⟩

variable {state : InodeState} {node node' : Inode} {cnt : Nat} {cache cache' : PageCache}
  {sb : Ext2SbInfo} {buf : List Byte}

theorem Slab.take {inoCache : List (Nat × InodeState)} (h : Slab s)
    (hino : s.inoCache = (p, state) :: inoCache) (hino' : s'.inoCache = inoCache)
    (hinodes : s'.inodes = update s.inodes p (some i)) :
    Slab s' ∧ ∀ q j, s.inodes q = some j → s'.inodes q = some j := by
  have hfree := h.free
  have hnodup := h.nodup
  rw [hino, List.map_cons] at hfree hnodup
  obtain ⟨hp, hrest⟩ := List.nodup_cons.1 hnodup
  refine ⟨⟨fun q hq => ?_, ?_⟩, fun q j hj => ?_⟩
  · rw [hino'] at hq
    have hqp : q ≠ p := fun heq => hp (heq ▸ hq)
    rw [hinodes, update_of_ne hqp]
    exact hfree q (List.mem_cons_of_mem p hq)
  · rw [hino']
    exact hrest
  · have hqp : q ≠ p := by
      rintro rfl
      rw [hfree q List.mem_cons_self] at hj
      cases hj
    rw [hinodes, update_of_ne hqp]
    exact hj

theorem state_markInodeDirty (hstate : state ≠ .del)
    (hnode : node.state ≠ .del) : (QuarkOS.markInodeDirty node state).state ≠ .del := by
  rw [QuarkOS.markInodeDirty]
  cases hold : node.state <;> cases state <;> simp_all

theorem markInodeDirty_keeps (hstate : state = .del → D p)
    (h : s.markInodeDirty p state = .ok s') : Keeps D s s' := by
  obtain ⟨i, _, hi, rfl⟩ := markInodeDirty_eq_ok h
  have hset : Keeps D s (s.setInode p { i with toInode := QuarkOS.markInodeDirty i.toInode state }) := by
    apply Keeps.setInode hi
    rintro (hD | hnot)
    · exact Or.inr hD
    · by_cases hdel : state = .del
      · exact Or.inr (hstate hdel)
      · exact Or.inl (state_markInodeDirty hdel hnot)
  exact hset.trans (.of_eq rfl rfl)

theorem ext2InodeMount_inodes (hslab : Slab s) (h : s.ext2InodeMount d = .ok s') :
    Slab s' ∧ ∀ q j, s.inodes q = some j → s'.inodes q = some j := by
  obtain ⟨dir, _, ⟨_, rfl⟩ | ⟨_, p, _, _, _, _, _, _, hino, rfl⟩⟩ := ext2InodeMount_eq h
  · exact ⟨hslab, fun _ _ hj => hj⟩
  · exact hslab.take hino rfl rfl

theorem ext2InodeMount_dir (h : s.ext2InodeMount d = .ok s') :
    ∃ dir p, s'.dirs d = some dir ∧ dir.inode = some p := by
  obtain ⟨dir, hdir, ⟨hne, rfl⟩ | ⟨_, p, _, _, _, _, _, _, _, rfl⟩⟩ := ext2InodeMount_eq h
  · obtain ⟨p, hp⟩ := Option.ne_none_iff_exists'.1 hne
    exact ⟨dir, p, hdir, hp⟩
  · exact ⟨_, p, update_self .., rfl⟩

theorem ext2InodeMount_keeps (h : s.ext2InodeMount d = .ok s') : Keeps D s s' := by
  intro hslab
  obtain ⟨hslab', hsame⟩ := ext2InodeMount_inodes hslab h
  refine ⟨hslab', fun p _ hlive => ?_⟩
  obtain ⟨i, hi, hnot⟩ := hlive
  exact ⟨i, hsame p i hi, hnot⟩

theorem addChild_keeps {parent : Nat} (h : s.addChild d parent = .ok s') : Keeps D s s' := by
  obtain ⟨dir, _, h⟩ := bind_eq_ok h
  obtain ⟨parentDir, _, h⟩ := bind_eq_ok h
  cases h
  exact .of_eq rfl rfl

theorem delChild_keeps (h : s.delChild d = .ok s') : Keeps D s s' := by
  obtain ⟨dir, _, h⟩ := bind_eq_ok h
  obtain ⟨parent, _, h⟩ := bind_eq_ok h
  obtain ⟨parentDir, _, h⟩ := bind_eq_ok h
  cases h
  exact .of_eq rfl rfl

theorem findEntryDisk_keeps {name : Name} {r : Option Nat} (h : s.findEntryDisk p name = .ok (r, s')) :
    Keeps D s s' := by
  obtain ⟨s1, hs1, hs'⟩ := findEntryDisk_reads h
  refine hs1.onlyCache.blocks.keeps.trans ?_
  obtain ⟨_, rfl⟩ | ⟨_, _, _, _, rfl⟩ := hs' <;> exact .of_eq rfl rfl

theorem lookup_keeps : Lookup (Keeps D) :=
  .of_parts .refl (fun _ _ _ => .trans) (fun _ _ _ => ext2InodeMount_keeps)
    (fun _ _ _ _ _ => findEntryDisk_keeps) fun _ _ _ _ => addChild_keeps

theorem inodeDelete_keeps (h : s.inodeDelete p = .ok s') : Keeps (· = p) s s' := by
  obtain ⟨i, hi, h⟩ := bind_eq_ok h
  dsimp only at h
  split at h
  · cases h
  · simp only [bind_ok_iff] at h
    obtain ⟨s1, hfree, d, _, dir, _, s2, hclear, s3, hdel, s4, hcount, h⟩ := h
    have hs1 := freeBlocks_onlyFree hfree
    have hi1 : s1.inodes p = some i := by
      obtain ⟨_, _, rfl⟩ := hs1
      exact inode_eq_ok.1 hi
    have hset : Keeps (· = p) s1 (s1.setInode p { i with linkCnt := 0, blockCnt := 0, writelock := true }) :=
      Keeps.setInode hi1 fun _ => Or.inr rfl
    have hs3 : Keeps (· = p) _ s3 :=
      (clearInodeBitmap_onlyCache hclear).blocks.keeps.trans (delChild_keeps hdel)
    have hs' : Keeps (· = p) s3 s' :=
      (countInode_onlyCache hcount).blocks.keeps.trans (markInodeDirty_keeps (fun _ => rfl) h)
    exact (hs1.keeps.trans hset).trans (hs3.trans hs')

theorem setLinkCnt_keeps (h : s.setLinkCnt p cnt = .ok s') : Keeps D s s' := by
  obtain ⟨i, hi, h⟩ := bind_eq_ok h
  cases h
  exact Keeps.setInode (inode_eq_ok.1 hi) Or.symm

theorem Keeps.mono {D' : Nat → Prop} (h : Keeps D s s') (hD : ∀ p, D p → D' p) : Keeps D' s s' := by
  intro hslab
  obtain ⟨hslab', hlive⟩ := h hslab
  exact ⟨hslab', fun p hp => hlive p fun hDp => hp (hD p hDp)⟩

theorem removeLink_keeps {parent file : Nat} (h : s.removeLink p parent file = .ok s') :
    Keeps (fun q => q = p ∧ ∃ i, s.inodes p = some i ∧ i.linkCnt % 2 ^ 16 = 1) s s' := by
  obtain ⟨i, hi, h⟩ := bind_eq_ok h
  obtain ⟨s1, hcnt, h⟩ := bind_eq_ok h
  obtain ⟨s2, hremove, h⟩ := bind_eq_ok h
  refine (setLinkCnt_keeps hcnt).trans ((removeFromParent_onlyBlocks hremove).keeps.trans ?_)
  split at h
  · rename_i hzero
    refine (inodeDelete_keeps h).mono ?_
    rintro q rfl
    exact ⟨rfl, i, inode_eq_ok.1 hi, by omega⟩
  · exact markInodeDirty_keeps (fun hdel => absurd hdel (by decide)) h

theorem vfsUnlink_keeps {path : Name} {ret : Int} (hslab : Slab s) (h : s.vfsUnlink path = .ok (ret, s')) :
    Slab s' ∧ ∀ p, ¬ s.Deletes path p → s.Live p → s'.Live p := by
  suffices Keeps (s.Deletes path) s s' from this hslab
  obtain ⟨⟨found, s1⟩, hfind, h⟩ := bind_eq_ok h
  have hs1 : Keeps (s.Deletes path) s s1 := lookup_keeps.findDir hfind
  cases found with
  | none =>
    cases h
    exact hs1
  | some file =>
    obtain ⟨s2, hmount, h⟩ := bind_eq_ok h
    have hs2 := hs1.trans (ext2InodeMount_keeps hmount)
    obtain ⟨dir, _, h⟩ := bind_eq_ok h
    simp only [bind_ok_iff] at h
    obtain ⟨_, _, s3, hmount', dir', hdir', p, hp, i, hi, h⟩ := h
    have hs3 := hs2.trans (ext2InodeMount_keeps hmount')
    split at h
    · cases h
      exact hs3
    · simp only [bind_ok_iff] at h
      obtain ⟨pd, _, s4, hmount'', parentDir, _, parent, _, s5, hremove, h⟩ := h
      cases h
      refine hs3.trans ((ext2InodeMount_keeps hmount'').trans ?_)
      refine (removeLink_keeps hremove).mono ?_
      rintro q ⟨rfl, j, hj, hone⟩
      -- the file is mounted already, and mounting its directory leaves its inode alone
      obtain ⟨dir2, p2, hdir2, hp2⟩ := ext2InodeMount_dir hmount
      rw [ext2InodeMount_of_some hdir2 hp2] at hmount'
      cases hmount'
      have hi4 := (ext2InodeMount_inodes (hs3 hslab).1 hmount'').2 q i (inode_eq_ok.1 hi)
      rw [hj] at hi4
      cases hi4
      exact ⟨file, s1, s2, dir', i, hfind, hmount, directory_eq_ok.1 hdir', deref_eq_ok.1 hp,
        inode_eq_ok.1 hi, hone⟩

theorem inodeDestroy_perm (s : Mount) (p : Nat) :
    ((s.inodeDestroy p).inoCache.map Prod.fst).Perm (p :: s.inoCache.map Prod.fst) := by
  rw [inodeDestroy]
  dsimp only
  split
  · exact .refl _
  · refine ((List.perm_middle.map Prod.fst).trans ?_)
    rw [List.takeWhile_append_dropWhile]
    exact .refl _

theorem inodeDestroy_keeps (hi : s.inodes p = some i) (hdel : i.state = .del) :
    Keeps D s (s.inodeDestroy p) := by
  intro hslab
  have hnot : p ∉ s.inoCache.map Prod.fst := by
    intro hmem
    rw [hslab.free p hmem] at hi
    cases hi
  have hperm := inodeDestroy_perm s p
  refine ⟨⟨fun q hq => ?_, hperm.nodup_iff.2 (List.nodup_cons.2 ⟨hnot, hslab.nodup⟩)⟩, fun q _ hlive => ?_⟩
  · by_cases hqp : q = p
    · subst hqp
      exact update_self ..
    · have hq' := List.mem_of_ne_of_mem hqp (hperm.mem_iff.1 hq)
      exact (update_of_ne hqp ..).trans (hslab.free q hq')
  · obtain ⟨j, hj, hnot⟩ := hlive
    have hqp : q ≠ p := by
      rintro rfl
      rw [hi] at hj
      cases hj
      exact hnot hdel
    exact ⟨j, (update_of_ne hqp ..).trans hj, hnot⟩

theorem ext2WriteBack_keeps (h : s.ext2WriteBack p = .ok s') : Keeps D s s' := by
  obtain ⟨i, hi, h⟩ := bind_eq_ok h
  simp only [bind_ok_iff, Prod.exists] at h
  obtain ⟨d, _, dir, _, page, s1, hraw, h⟩ := h
  obtain ⟨_, _, rfl⟩ := getRawInode_reads hraw
  have hi' := inode_eq_ok.1 hi
  dsimp only at h
  split at h
  · rename_i hdel
    obtain ⟨_, _, h⟩ := bind_eq_ok h
    obtain ⟨cache, _, h⟩ := bind_eq_ok h
    cases h
    refine Keeps.trans ?_ (inodeDestroy_keeps hi' hdel)
    exact .of_eq rfl rfl
  · obtain ⟨cache, _, h⟩ := bind_eq_ok h
    cases h
    have hset : Keeps D s (s.setInode p { i with state := .old }) :=
      Keeps.setInode hi' fun _ => Or.inl nofun
    exact hset.trans (.of_eq rfl rfl)

theorem flushQueue_keeps {l : List Nat} (h : flushQueue l s = .ok s') : Keeps D s s' := by
  induction l generalizing s with
  | nil =>
    cases h
    exact .refl _
  | cons p l ih =>
    obtain ⟨s1, hs1, h⟩ := bind_eq_ok h
    have hpop : Keeps D s { s with inodeDirty := l } := .of_eq rfl rfl
    exact hpop.trans ((ext2WriteBack_keeps hs1).trans (ih h))

theorem ext2WriteSuperBlock_onlyCache (h : s.ext2WriteSuperBlock = .ok s') : OnlyCache s s' := by
  obtain ⟨⟨_, cache⟩, _, h⟩ := bind_eq_ok h
  simp only [bind_ok_iff, Prod.exists] at h
  obtain ⟨_, cache1, _, _, cache2, _, _, _, cache3, _, h⟩ := h
  cases h
  exact ⟨cache3, rfl⟩

theorem flushPages_keeps {order : List Nat} (h : flushPages order s = .ok s') : Keeps D s s' := by
  induction order generalizing s with
  | nil =>
    cases h
    exact .refl _
  | cons no order ih =>
    obtain ⟨s1, hs1, h⟩ := bind_eq_ok h
    refine Keeps.trans ?_ (ih h)
    rw [pageFlush] at hs1
    split at hs1
    · cases hs1
    · obtain ⟨_, _, hs1⟩ := bind_eq_ok hs1
      split at hs1
      · cases hs1
        exact .of_eq rfl rfl
      · cases hs1

theorem pageFsync_keeps {order : List Nat} (h : s.pageFsync order = .ok s') : Keeps D s s' := by
  obtain ⟨s1, hs1, h⟩ := bind_eq_ok h
  refine Keeps.trans ?_ (flushPages_keeps h)
  rw [flushInode] at hs1
  split at hs1
  · cases hs1
    exact .refl _
  · obtain ⟨s2, hs2, hs1⟩ := bind_eq_ok hs1
    exact (ext2WriteSuperBlock_onlyCache hs2).blocks.keeps.trans (flushQueue_keeps hs1)

theorem vfsReadLoop_state {fuel remain : Nat}
    {bytes : List Byte} (h : Fs.vfsReadLoop fuel remain node cache = .ok (bytes, node', cache')) :
    node'.state = node.state := by
  induction fuel generalizing remain node cache bytes with
  | zero =>
    cases remain with
    | zero =>
      cases h
      rfl
    | succ remain => cases h
  | succ fuel ih =>
    cases remain with
    | zero =>
      cases h
      rfl
    | succ remain =>
      obtain ⟨⟨bytes1, cache1⟩, _, h⟩ := bind_eq_ok h
      dsimp only at h
      split at h
      · cases h
        rfl
      · obtain ⟨⟨rest, node1, cache2⟩, hrest, h⟩ := bind_eq_ok h
        cases h
        have hstate := ih hrest
        exact hstate

theorem vfsRead_keeps {size : Nat} {bytes : List Byte} (h : s.vfsRead p size = .ok (bytes, s')) :
    Keeps D s s' := by
  obtain ⟨i, hi, h⟩ := bind_eq_ok h
  obtain ⟨⟨bytes1, node, cache⟩, hloop, h⟩ := bind_eq_ok h
  cases h
  have hset : Keeps D s (s.setInode p { i with toInode := node }) := by
    apply Keeps.setInode (inode_eq_ok.1 hi)
    rw [show ({ i with toInode := node } : InodeInfo).state = i.state from vfsReadLoop_state hloop]
    exact Or.symm
  exact hset.trans (.of_eq rfl rfl)

theorem writePage_state {file file' : Inode} {bno page : Nat}
    (h : writePage sb file bno cache = .ok (page, file', cache')) : file'.state = file.state := by
  rw [writePage] at h
  split at h
  · obtain ⟨⟨bid, cache1⟩, _, h⟩ := bind_eq_ok h
    obtain ⟨⟨page1, cache2⟩, _, h⟩ := bind_eq_ok h
    cases h
    rfl
  · obtain ⟨⟨bid, file1, cache1⟩, halloc, h⟩ := bind_eq_ok h
    obtain ⟨⟨page1, cache2⟩, _, h⟩ := bind_eq_ok h
    cases h
    obtain ⟨_, _, rfl⟩ := allocBlock_onlyPtrs halloc
    rfl

theorem writeRound_state (h : Fs.writeRound sb node buf cache = .ok (cnt, node', cache'))
    (hstate : node.state ≠ .del) : node'.state ≠ .del := by
  obtain ⟨⟨cnt1, node1, cache1⟩, hwrite, h⟩ := bind_eq_ok h
  cases h
  rw [ext2Write] at hwrite
  split at hwrite
  · cases hwrite
  · obtain ⟨⟨page, file, cache2⟩, hpage, hwrite⟩ := bind_eq_ok hwrite
    obtain ⟨cache3, _, hwrite⟩ := bind_eq_ok hwrite
    cases hwrite
    refine state_markInodeDirty (by decide) ?_
    rw [show ∀ size, ({ file with size } : Inode).state = file.state from fun _ => rfl,
      writePage_state hpage]
    exact hstate

theorem vfsWriteLoop_state {fuel : Nat}
    (h : Fs.vfsWriteLoop sb fuel buf node cache = .ok (cnt, node', cache'))
    (hstate : node.state ≠ .del) : node'.state ≠ .del := by
  induction fuel generalizing buf node cache cnt with
  | zero =>
    cases buf with
    | nil =>
      cases h
      exact hstate
    | cons b buf => cases h
  | succ fuel ih =>
    cases buf with
    | nil =>
      cases h
      exact hstate
    | cons b buf =>
      obtain ⟨⟨cnt1, node1, cache1⟩, hround, h⟩ := bind_eq_ok h
      have hnode1 := writeRound_state hround hstate
      dsimp only at h
      split at h
      · cases h
        exact hnode1
      · obtain ⟨⟨cnt2, node2, cache2⟩, hrest, h⟩ := bind_eq_ok h
        cases h
        exact ih hrest hnode1

theorem vfsWrite_keeps (h : s.vfsWrite p buf = .ok (cnt, s')) : Keeps D s s' := by
  obtain ⟨i, hi, h⟩ := bind_eq_ok h
  dsimp only at h
  split at h
  · cases h
    exact .refl _
  · split at h
    · cases h
    · obtain ⟨⟨cnt1, node, cache⟩, hloop, h⟩ := bind_eq_ok h
      have hset : Keeps D s (s.setInode p { i with toInode := node }) := by
        apply Keeps.setInode (inode_eq_ok.1 hi)
        rintro (hD | hnot)
        · exact Or.inr hD
        · exact Or.inl (vfsWriteLoop_state hloop hnot)
      cases h
      refine hset.trans ?_
      split
      · exact .of_eq rfl rfl
      · exact .of_eq rfl rfl

theorem Named.slab (h : Named s) : Slab s where
  free p hp := Option.map_eq_none_iff.1 (h.inoFree p hp)
  nodup := h.inoNodup

end Mount

namespace FileWorld

variable {w w' : FileWorld} {t fd p addr : Nat} {ret : Int}

theorem addOpenFile_hash (h : w.addOpenFile t p fd addr = .ok w') : w'.hash = w.hash := by
  obtain ⟨found, _, h⟩ := bind_eq_ok h
  split at h
  · obtain ⟨_, _, h⟩ := bind_eq_ok h
    cases h
    rfl
  · split at h
    · cases h
    · cases h
      rfl

theorem removeOpenFile_hash {file : Nat} (h : w.removeOpenFile t p = .ok (file, w')) :
    w'.hash = w.hash := by
  obtain ⟨found, _, h⟩ := bind_eq_ok h
  split at h
  · cases h
  · cases h
    rfl
  · cases h
    rfl

theorem vfsOpen_hash {path : Name} (hwf : w.hash.Wf) (h : w.vfsOpen t path (some p) addr = .ok (ret, w')) :
    w'.hash.Wf ∧ ∃ fd, w'.hash.fileTable = update w.hash.fileTable fd (some p) := by
  obtain ⟨⟨fd, hash⟩, halloc, h⟩ := bind_eq_ok h
  obtain ⟨w1, hadd, h⟩ := bind_eq_ok h
  cases h
  obtain ⟨hwf', htable, _⟩ := hwf.allocFd halloc
  rw [addOpenFile_hash hadd]
  exact ⟨hwf', fd, htable⟩

theorem vfsClose_hash (hwf : w.hash.Wf) (h : w.vfsClose t fd = .ok (ret, w')) :
    w'.hash.Wf ∧ ∀ fd' p, w'.hash.fileTable fd' = some p → w.hash.fileTable fd' = some p := by
  obtain ⟨node, hnode, h⟩ := bind_eq_ok h
  cases node with
  | none =>
    cases h
    exact ⟨hwf, fun _ _ hfile => hfile⟩
  | some p =>
    obtain ⟨⟨file, w1⟩, hremove, h⟩ := bind_eq_ok h
    have hhash : w1.hash = w.hash := (removeOpenFile_hash hremove).trans rfl
    dsimp only at h
    split at h
    · obtain ⟨hash, hfree, h⟩ := bind_eq_ok h
      cases h
      have hfile : w.hash.fileTable fd = some p := by
        rw [FdHash.getInode] at hnode
        split at hnode
        · exact Except.ok.inj hnode
        · cases hnode
      obtain ⟨hash', hfree', hwf', htable⟩ := hwf.freeFd hfile
      rw [hhash, hfree'] at hfree
      cases hfree
      refine ⟨hwf', fun fd' q hq => ?_⟩
      dsimp only at hq
      rw [htable] at hq
      by_cases hfd : fd' = fd
      · subst hfd
        rw [update_self] at hq
        cases hq
      · rwa [update_of_ne hfd] at hq
    · cases h
      rw [hhash]
      exact ⟨hwf, fun _ _ hfile => hfile⟩

end FileWorld

/-- No deleted inode is opened and no open one is deleted. -/
def KeepsOpen (w : Vfs) : VfsEvent → Prop
  | .vfsOpen _ path _ => ∀ p mount, w.mount.vfsFind path = .ok (some p, mount) → mount.Live p
  | .vfsUnlink path => ∀ fd p, w.files.hash.fileTable fd = some p → ¬ w.mount.Deletes path p
  | _ => True

structure Held (w : Vfs) : Prop where
  slab : w.mount.Slab
  hash : w.files.hash.Wf
  live : ∀ fd p, w.files.hash.fileTable fd = some p → w.mount.Live p

variable {w w' w0 : Vfs} {ret : Int} {ev : VfsEvent}

theorem Held.keeps {mount : Mount} (h : Held w)
    (hkeeps : Mount.Keeps (fun _ => False) w.mount mount) (hmount : w'.mount = mount)
    (hhash : w'.files.hash = w.files.hash) : Held w' := by
  subst hmount
  obtain ⟨hslab, hlive⟩ := hkeeps h.slab
  refine ⟨hslab, ?_, ?_⟩
  · rw [hhash]
    exact h.hash
  · rw [hhash]
    exact fun fd p hfile => hlive p id (h.live fd p hfile)

theorem Held.vfsOpen {t addr : Nat} {path : Name} (h : Held w)
    (hopen : w.vfsOpen t path addr = .ok (ret, w'))
    (hcond : ∀ p mount, w.mount.vfsFind path = .ok (some p, mount) → mount.Live p) : Held w' := by
  obtain ⟨⟨found, mount⟩, hfind, hopen⟩ := bind_eq_ok hopen
  have hkeeps : Mount.Keeps (fun _ => False) w.mount mount := Mount.lookup_keeps.vfsFind hfind
  obtain ⟨⟨fd, files⟩, hfiles, hopen⟩ := bind_eq_ok hopen
  cases found with
  | none =>
    cases hfiles
    cases hopen
    exact h.keeps hkeeps rfl rfl
  | some p =>
    obtain ⟨_, _, hopen⟩ := bind_eq_ok hopen
    cases hopen
    have h1 : Held (w.remount mount) := h.keeps hkeeps rfl rfl
    obtain ⟨hwf, fd, htable⟩ := FileWorld.vfsOpen_hash h1.hash hfiles
    refine ⟨h1.slab, hwf, fun fd' q hq => ?_⟩
    dsimp only at hq
    rw [htable] at hq
    by_cases hfd : fd' = fd
    · subst hfd
      rw [update_self] at hq
      cases hq
      exact hcond p mount hfind
    · rw [update_of_ne hfd] at hq
      exact h1.live fd' q hq

theorem Held.vfsClose {t fd : Nat} (h : Held w) (hclose : w.vfsClose t fd = .ok (ret, w')) : Held w' := by
  obtain ⟨node, hnode, hclose⟩ := bind_eq_ok hclose
  cases node with
  | none =>
    cases hclose
    exact h
  | some p =>
    obtain ⟨i, hi, hclose⟩ := bind_eq_ok hclose
    obtain ⟨⟨ret', files⟩, hfiles, hclose⟩ := bind_eq_ok hclose
    obtain ⟨hwf, htable⟩ := FileWorld.vfsClose_hash h.hash hfiles
    dsimp only at hclose
    split at hclose
    · cases hclose
      have hset : Mount.Keeps (fun _ => False) w.mount (w.mount.setInode p { i with offset := 0 }) :=
        Mount.Keeps.setInode (Mount.inode_eq_ok.1 hi) Or.symm
      obtain ⟨hslab, hlive⟩ := hset h.slab
      exact ⟨hslab, hwf, fun fd' q hq => hlive q id (h.live fd' q (htable fd' q hq))⟩
    · cases hclose
      exact ⟨h.slab, hwf, fun fd' q hq => h.live fd' q (htable fd' q hq)⟩

theorem Held.step (h : Held w) (hcond : KeepsOpen w ev) (hstep : w.step ev = .ok (ret, w')) : Held w' := by
  cases ev with
  | vfsOpen t path addr => exact h.vfsOpen hstep hcond
  | vfsClose t fd => exact h.vfsClose hstep
  | vfsRead fd size =>
    obtain ⟨node, _, hstep⟩ := bind_eq_ok hstep
    cases node with
    | none =>
      cases hstep
      exact h
    | some p =>
      obtain ⟨⟨bytes, mount⟩, hread, hstep⟩ := bind_eq_ok hstep
      cases hstep
      exact h.keeps (Mount.vfsRead_keeps hread) rfl rfl
  | vfsWrite fd buf =>
    obtain ⟨node, _, hstep⟩ := bind_eq_ok hstep
    cases node with
    | none =>
      cases hstep
      exact h
    | some p =>
      obtain ⟨⟨cnt, mount⟩, hwrite, hstep⟩ := bind_eq_ok hstep
      cases hstep
      exact h.keeps (Mount.vfsWrite_keeps hwrite) rfl rfl
  | vfsUnlink path =>
    obtain ⟨⟨ret', mount⟩, hunlink, hstep⟩ := bind_eq_ok hstep
    cases hstep
    obtain ⟨hslab, hlive⟩ := Mount.vfsUnlink_keeps h.slab hunlink
    exact ⟨hslab, h.hash, fun fd p hp => hlive p (hcond fd p hp) (h.live fd p hp)⟩
  | pageFsync order =>
    obtain ⟨mount, hsync, hstep⟩ := bind_eq_ok hstep
    cases hstep
    exact h.keeps (Mount.pageFsync_keeps hsync) rfl rfl

theorem Held.inMemory (h : Held w) : InMemory w := by
  intro fd p hfile
  rw [FdHash.getInode] at hfile
  split at hfile
  · obtain ⟨i, hi, _⟩ := h.live fd p (Except.ok.inj hfile)
    rw [hi]
    rfl
  · cases hfile

/-- Descriptors lead to inodes in memory as long as no open inode is deleted and no deleted one opened. -/
theorem vfsRun_inMemory {s1 : Mount} {fd : Nat} (hblank : s1.Blank) (hboot : s1.boot fd = .ok w0.mount)
    (hfiles : NoFiles w0.files) (hrun : VfsRun KeepsOpen w0 w) : InMemory w := by
  suffices Held w from this.inMemory
  induction hrun with
  | start =>
    refine ⟨(hblank.named hboot).slab, hfiles.hash, fun fd p hp => ?_⟩
    rw [hfiles.fileTable fd] at hp
    cases hp
  | step _ ev hcond hstep ih => exact ih.step hcond hstep

/-- Two empty files in the root. -/
def fileDisk : Mount :=
  { smallDisk with
    cache := { smallDisk.cache with
      disk := fun lba i => if lba = 24 ∧ i = 0 then 0x0f else smallBlocks lba i }
    raw := fileTable
    rawDisk := fileTable
    entries := fun _ => [⟨Mount.rootInum, 12, Mount.ext2FtDir, Mount.dot⟩,
      ⟨Mount.rootInum, 12, Mount.ext2FtDir, Mount.dotDot⟩, ⟨3, 12, 1, [0x61]⟩, ⟨4, 4060, 1, [0x62]⟩] }
where
  fileTable (ino : Nat) : Ext2Inode :=
    if ino = 3 ∨ ino = 4 then
      { mode := ext2AllRwx ||| ext2IfReg, size := 0, linkCnt := 1, cntSectors := 0, blocks := fun _ => 0 }
    else smallTable ino

theorem fileDisk_blank : fileDisk.Blank where
  dirs := rfl
  inodes := rfl
  dirCache := by decide +kernel
  inoCache := by decide +kernel
  inodeDirty := rfl
  clean := nofun
  rawDisk := rfl

def fileB : Name := [Mount.separator, 0x62]

def reuseInode : Except Fault Unit := do
  let mount ← fileDisk.boot 0
  let (_, w1) ← Vfs.step { mount, files := oneTask } (.vfsUnlink fileA)
  let (_, w2) ← w1.step (.pageFsync [40, 24, 8, 0, 32])
  let (found, s) ← w2.mount.vfsFind fileB
  let p ← deref found
  let i ← s.inode p
  let (_, w) ← w2.step (.vfsOpen 1 fileB (kernelStart + 0x100000))
  assertk (i.state ≠ InodeState.del ∧ (p, InodeState.old) ∈ w2.mount.inoCache ∧
    w.files.hash.fileTable 0 = some p)

/-- One file is removed and written back, and then another one is opened in the object of its inode. -/
theorem vfsRun_inMemory_reuse : ∃ w0 w1 w p, fileDisk.boot 0 = .ok w0.mount ∧ VfsRun KeepsOpen w0 w1 ∧
    (p, .old) ∈ w1.mount.inoCache ∧ VfsRun KeepsOpen w0 w ∧ w.files.hash.fileTable 0 = some p ∧
    InMemory w := by
  have hrun : reuseInode.isOk = true := by decide +kernel
  obtain ⟨_, hrun⟩ := exists_ok hrun
  obtain ⟨mount, hboot, hrun⟩ := bind_eq_ok hrun
  simp only [bind_ok_iff, Prod.exists] at hrun
  obtain ⟨_, w1, hunlink, _, w2, hsync, found, s, hfind, p, hp, i, hi, _, w, hopen, hrun⟩ := hrun
  obtain ⟨hstate, hmem, hfile⟩ := of_assertk hrun
  have hclosed : KeepsOpen { mount, files := oneTask } (.vfsUnlink fileA) := by
    intro fd p hfd
    cases (oneTask_noFiles.fileTable fd).symm.trans hfd
  have hcond : KeepsOpen w2 (.vfsOpen 1 fileB (kernelStart + 0x100000)) := by
    intro q s' hfind'
    rw [hfind, Mount.deref_eq_ok.1 hp] at hfind'
    cases hfind'
    exact ⟨i, Mount.inode_eq_ok.1 hi, hstate⟩
  have hrun2 := (VfsRun.step .start _ hclosed hunlink).step (.pageFsync _) trivial hsync
  have hrun' := hrun2.step _ hcond hopen
  exact ⟨{ mount, files := oneTask }, w2, w, p, hboot, hrun2, hmem, hrun', hfile,
    vfsRun_inMemory fileDisk_blank hboot oneTask_noFiles hrun'⟩

/-- The file is opened, unlinked and written back while it is open. -/
theorem unlinkOpen_not_inMemory : ∃ w0 w, fileDisk.boot 0 = .ok w0.mount ∧ NoFiles w0.files ∧
    VfsRun (fun _ _ => True) w0 w ∧ ¬ InMemory w := by
  obtain ⟨_, hrun⟩ := exists_ok (x := do
      let mount ← fileDisk.boot 0
      let (fd, w) ← Vfs.step { mount, files := oneTask } (.vfsOpen 1 fileA (kernelStart + 0x100000))
      let (_, w) ← w.step (.vfsUnlink fileA)
      let (_, w) ← w.step (.pageFsync [40, 24, 8, 0, 32])
      let p ← w.files.hash.getInode 0
      let p ← deref p
      assertk ((fd = 0) ∧ (w.mount.inodes p).isSome = false))
    (by decide +kernel)
  simp only [bind_ok_iff, Prod.exists] at hrun
  obtain ⟨mount, hboot, fd, w1, hopen, _, w2, hunlink, _, w3, hsync, found, hfile, p, hp, hrun⟩ := hrun
  obtain ⟨_, hnone⟩ := of_assertk hrun
  have hrun' : VfsRun (fun _ _ => True) { mount, files := oneTask } w3 :=
    .step (.step (.step .start _ trivial hopen) _ trivial hunlink) _ trivial hsync
  refine ⟨{ mount, files := oneTask }, w3, hboot, oneTask_noFiles, hrun', fun hin => ?_⟩
  rw [Mount.deref_eq_ok.1 hp] at hfile
  exact Bool.false_ne_true (hnone.symm.trans (hin 0 p hfile))

end QuarkOS
