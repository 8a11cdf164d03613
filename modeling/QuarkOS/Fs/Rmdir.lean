import QuarkOS.Fs.Alias
import QuarkOS.Fs.FreeBlocks

/-!
# Removing directories

`ext2_rmdir` takes a directory for empty when its list of entries in memory is empty, its link count is two
and `dir_empty` finds no entry in its blocks other than `.` and `..`. The list depends on what was looked
up: a lookup of `.` puts an entry there, and a name that was removed stays in it. So an empty directory is
removed only if nothing of it is in memory.

`Removable` is what the removal goes through: the entry of the directory and its parent in memory, their
locks, the blocks of the directory and its bits in the bitmaps. With it nothing in the removal halts.
-/

namespace QuarkOS

open Bytes

namespace Mount

variable {s s' : Mount} {p d bid : Nat} {i : InodeInfo} {dir : Directory} {inode : Inode}

/-- The blocks of the directory hold no entry but `.` and `..`. -/
def Vacant (s : Mount) (inode : Inode) : Prop :=
  ∀ bno < maxBno, bidOf s.cache.view inode bno ≠ 0 →
    ∀ dir ∈ s.entries (bidOf s.cache.view inode bno), ¬ OtherEntry dir

/-- The blocks of the inode hold entries. -/
def OfEntries (s : Mount) (inode : Inode) : Prop :=
  ∀ bno < maxBno, bidOf s.cache.view inode bno ≠ 0 → bidOf s.cache.view inode bno ∈ s.dirBlocks

/-- `ext2_rmdir` returns 0 just for an empty directory. -/
def RmdirExact (s : Mount) (p : Nat) (inode : Inode) : Prop :=
  (∃ s', s.ext2Rmdir p = .ok (0, s')) ↔ s.Vacant inode

/-- An inode in memory that is not locked, has at most twelve blocks and stands in a list, and whose bits are
in the bitmaps: `inode_delete` does not halt. -/
structure Deletable (s : Mount) (p : Nat) (i : InodeInfo) (d : Nat) (dir : Directory) : Prop where
  inode : s.inodes p = some i
  back : i.dir = some d
  entry : s.dirs d = some dir
  unlocked : i.writelock = false
  listed : ∃ b brother, dir.brother = some b ∧ s.dirs b = some brother
  /-- The blocks stand one after the other. -/
  blocks : ∃ n ≤ 12, ∀ k < 15, i.blocks k ≠ 0 ↔ k < n
  blockPerGroup : 0 < s.sb.blockPerGroup
  clearable : ∀ k < 12, i.blocks k ≠ 0 → Clearable s.sb (i.blocks k)
  number : (∃ no, s.InodeMap (s.inodePlace dir.ino).1 no) ∧ bitNo dir.ino / 8 < pageSize

/-- A directory whose parent is another directory in memory and is not locked: `ext2_rmdir` does not halt. -/
structure Removable (s : Mount) (p : Nat) (i : InodeInfo) (d : Nat) (dir : Directory) : Prop
    extends Deletable s p i d dir where
  isDir : i.isDir = true
  /-- `dir_name_dump` copies no more. -/
  name : dir.name.length ≤ fileDnameLen
  ofEntries : ∀ k < 12, i.blocks k ≠ 0 → i.blocks k ∈ s.dirBlocks
  parent : ∃ pd parentDir q par, dir.parent = some pd ∧ s.dirs pd = some parentDir ∧
    parentDir.inode = some q ∧ q ≠ p ∧ s.inodes q = some par ∧ par.writelock = false ∧
    ∀ bid, s.Reaches par.toInode bid → bid ∈ s.dirBlocks

theorem readBno_lt {k : Nat} (hk : k < posEnd) : readBno k < maxBno := by
  unfold posEnd at hk
  unfold readBno maxBno
  split_ifs <;> omega

theorem Reaches.exists_bno (h : s.Reaches inode bid) :
    ∃ bno < maxBno, bidOf s.cache.view inode bno = bid ∧ bid ≠ 0 := by
  obtain ⟨k, hread, rfl⟩ := h
  have hne := hread k (Nat.le_refl k)
  have hk : k < posEnd := by
    by_contra hge
    exact hne (if_neg hge)
  refine ⟨readBno k, readBno_lt hk, ?_, hne⟩
  rw [readBid, if_pos hk]

theorem Vacant.seen (h : s.Vacant inode) : s.SeenVacant inode := by
  intro bid hbid
  obtain ⟨bno, hbno, rfl, hne⟩ := hbid.exists_bno
  exact h bno hbno hne

theorem OfEntries.reaches (h : s.OfEntries inode) (hbid : s.Reaches inode bid) : bid ∈ s.dirBlocks := by
  obtain ⟨bno, hbno, rfl, hne⟩ := hbid.exists_bno
  exact h bno hbno hne

theorem Deletable.zero (h : s.Deletable p i d dir) (k : Nat) (hk : k < 15) (hle : 12 ≤ k) : i.blocks k = 0 := by
  obtain ⟨n, hn, hblocks⟩ := h.blocks
  by_contra hne
  have hlt := (hblocks k hk).1 hne
  omega

theorem Removable.blocks_ofEntries (h : s.Removable p i d dir) : s.OfEntries i.toInode := by
  intro bno _ hne
  obtain ⟨hlt, heq⟩ := bidOf_direct h.zero hne
  rw [heq] at hne ⊢
  exact h.ofEntries bno hlt hne

/-- `for_each_block` comes to all blocks of the directory. -/
theorem Removable.vacant_iff (h : s.Removable p i d dir) : s.SeenVacant i.toInode ↔ s.Vacant i.toInode := by
  refine ⟨fun hseen bno _ hne => ?_, Vacant.seen⟩
  obtain ⟨hlt, heq⟩ := bidOf_direct h.zero hne
  obtain ⟨n, _, hblocks⟩ := h.blocks
  have hbno : bno < n := (hblocks bno (by omega)).1 (heq ▸ hne)
  refine hseen _ ⟨bno, fun j hj => ?_, readBid_direct hlt⟩
  have hj' : i.blocks j ≠ 0 := (hblocks j (by omega)).2 (by omega)
  rw [readBid_direct (by omega), bidOf, blockPath, if_pos (by omega : j < 12)]
  exact hj'

theorem otherIn_ok (h : bid ∈ s.dirBlocks) (_ : s.cache.Valid (ext2Block2Lba bid)) :
    ∃ r s1, otherIn bid s = .ok (r, s1) ∧ (r = none → Reads s s1) := by
  rw [otherIn, block, if_pos h, ok_bind]
  split
  · exact ⟨some (), s, rfl, fun h => by cases h⟩
  · exact ⟨none, s, rfl, fun _ => .refl s⟩

theorem removeIn_ok {name : Name} (h : bid ∈ s.dirBlocks) (hvalid : s.cache.Valid (ext2Block2Lba bid)) :
    ∃ r s1, removeIn name bid s = .ok (r, s1) ∧ (r = none → Reads s s1) := by
  rw [removeIn, block, if_pos h, ok_bind]
  split
  · exact ⟨none, s, rfl, fun _ => .refl s⟩
  · obtain ⟨cache, hmark, _⟩ := PageCache.markPageDirty_ok hvalid
    rw [setBlock, hmark, ok_bind, ok_bind]
    exact ⟨some (), _, rfl, fun h => absurd h (Option.some_ne_none ())⟩

theorem dirEmpty_returns (hp : s.inodes p = some i) (hdir : i.isDir = true)
    (hblocks : s.OfEntries i.toInode) :
    ∃ b s', s.dirEmpty p = .ok (b, s') ∧ (b = true ↔ i.linkCnt = 2 ∧ s.SeenVacant i.toInode) := by
  have hok : ∃ b s', s.dirEmpty p = .ok (b, s') := by
    rw [dirEmpty, inode_eq_ok.2 hp, ok_bind, hdir, assertk_true, ok_bind]
    split
    · exact ⟨false, s, rfl⟩
    · obtain ⟨r, s', hloop⟩ := forBlocks_returns (fun _ _ => otherIn_ok) fun _ => hblocks.reaches
      rw [hloop]
      exact ⟨_, s', rfl⟩
  obtain ⟨b, s', h⟩ := hok
  obtain ⟨i', hi', _, hiff⟩ := dirEmpty_spec h
  cases hp.symm.trans hi'
  exact ⟨b, s', h, hiff⟩

theorem removeFromParent_returns {q : Nat} {par : InodeInfo} (hdir : s.dirs d = some dir)
    (hname : dir.name.length ≤ fileDnameLen) (hq : s.inodes q = some par)
    (hblocks : ∀ bid, s.Reaches par.toInode bid → bid ∈ s.dirBlocks) :
    ∃ s', s.removeFromParent q d = .ok s' := by
  rw [removeFromParent, directory_eq_ok.2 hdir, ok_bind, dirNameDump, if_pos hname, ok_bind,
    inode_eq_ok.2 hq, ok_bind]
  obtain ⟨r, s', hloop⟩ := forBlocks_returns (fun _ _ => removeIn_ok) hblocks
  exact ⟨s', by rw [hloop, ok_bind]⟩

theorem foldlM_clearBlock {blocks : Nat → Nat} {l : List Nat} (hpos : 0 < s.sb.blockPerGroup)
    (hclear : ∀ k ∈ l, blocks k ≠ 0 → Clearable s.sb (blocks k)) :
    ∃ s', l.foldlM (fun s k => if blocks k = 0 then .ok s else clearBlock (blocks k) s) s = .ok s' := by
  induction l generalizing s with
  | nil => exact ⟨s, rfl⟩
  | cons k l ih =>
    rw [List.foldlM_cons]
    have hrest := fun k hk => hclear k (List.mem_cons_of_mem _ hk)
    split
    · exact ih hpos hrest
    · rename_i hne
      obtain ⟨s1, hs1⟩ := clearBlock_ok hpos (hclear k List.mem_cons_self hne)
      rw [hs1, ok_bind]
      obtain ⟨_, _, rfl⟩ := clearBlock_onlyFree hs1
      exact ih hpos hrest

theorem Deletable.freeBlocks (h : s.Deletable p i d dir) : ∃ s', freeBlocks i.blocks s = .ok s' := by
  obtain ⟨s1, hs1⟩ := foldlM_clearBlock (l := List.range nDirectBlock) h.blockPerGroup
    fun k hk hne => h.clearable k (List.mem_range.1 hk) hne
  refine ⟨s1, ?_⟩
  rw [Mount.freeBlocks, hs1, ok_bind]
  have hzero : ∀ k ∈ List.range 3, i.blocks (nDirectBlock + k) = 0 := fun k hk =>
    h.zero _ (Nat.add_lt_add_left (List.mem_range.1 hk) 12) (Nat.le_add_right 12 k)
  generalize List.range 3 = l at hzero
  induction l with
  | nil => rfl
  | cons k l ih =>
    rw [List.foldlM_cons, if_pos (hzero k List.mem_cons_self), ok_bind]
    exact ih fun k hk => hzero k (List.mem_cons_of_mem _ hk)

theorem delChild_returns {b : Nat} {brother : Directory} (hdir : s.dirs d = some dir)
    (hb : dir.brother = some b) (hbrother : s.dirs b = some brother) : ∃ s', s.delChild d = .ok s' := by
  obtain ⟨e, he⟩ : ∃ e, (s.setDir d { dir with brother := none }).dirs b = some e := by
    dsimp only [setDir]
    rw [Function.update_apply]
    split
    · exact ⟨_, rfl⟩
    · exact ⟨_, hbrother⟩
  rw [delChild, directory_eq_ok.2 hdir, ok_bind, deref_eq_ok.2 hb, ok_bind]
  dsimp only
  rw [directory_eq_ok.2 he, ok_bind]
  exact ⟨_, rfl⟩

theorem markInodeDirty_returns {state : InodeState} (hi : s.inodes p = some i) :
    ∃ s', s.markInodeDirty p state = .ok s' := by
  rw [markInodeDirty, inode_eq_ok.2 hi, ok_bind]
  dsimp only
  split <;> exact ⟨_, rfl⟩

/-- The inode is deleted, and no other inode is changed. -/
theorem Deletable.inodeDelete (h : s.Deletable p i d dir) :
    ∃ s', s.inodeDelete p = .ok s' ∧ ∀ q, q ≠ p → s'.inodes q = s.inodes q := by
  obtain ⟨s1, hfree⟩ := h.freeBlocks
  obtain ⟨⟨no, hmap⟩, hin⟩ := h.number
  obtain ⟨b, brother, hb, hbrother⟩ := h.listed
  rw [Mount.inodeDelete, inode_eq_ok.2 h.inode, ok_bind, h.unlocked]
  dsimp only
  rw [if_neg Bool.false_ne_true, hfree, ok_bind]
  obtain ⟨cache, dirBlocks, rfl⟩ := freeBlocks_onlyFree hfree
  rw [deref_eq_ok.2 h.back, ok_bind, directory_eq_ok.2 (by exact h.entry), ok_bind]
  generalize hs2 : setInode _ p _ = s2
  obtain ⟨s3, hclear, cache3, _, rfl⟩ : ∃ s', s2.clearInodeBitmap dir.ino = .ok s' ∧ Writes s2 s' no _ :=
    clearInodeBitmap_ok (by subst hs2; exact hmap) hin
  obtain ⟨s4, hdel⟩ : ∃ s', ({ s2 with cache := cache3 } : Mount).delChild d = .ok s' := by
    subst hs2
    exact delChild_returns h.entry hb hbrother
  rw [hclear, ok_bind, hdel, ok_bind]
  obtain ⟨dirs, rfl⟩ := delChild_eq_ok hdel
  obtain ⟨s5, hcount⟩ := countInode_ok { s2 with cache := cache3, dirs } dir.ino (· + 1)
    fun n => if i.isDir then n + 2 ^ 16 - 1 else n
  rw [hcount, ok_bind]
  obtain ⟨cache5, rfl⟩ := countInode_onlyCache hcount
  have hp : s2.inodes p = some { i with linkCnt := 0, blockCnt := 0, writelock := true } := by
    rw [← hs2]
    exact inodes_setInode_self
  obtain ⟨s6, hmark⟩ := markInodeDirty_returns (s := { s2 with cache := cache5, dirs }) hp
  refine ⟨s6, hmark, fun q hq => ?_⟩
  obtain ⟨_, _, _, rfl⟩ := markInodeDirty_eq_ok hmark
  refine (Function.update_of_ne hq ..).trans ?_
  rw [← hs2]
  exact Function.update_of_ne hq ..

theorem Removable.removeDir (h : s.Removable p i d dir) (hs' : Reads s s') :
    ∃ s'', s'.removeDir p d dir.parent = .ok s'' := by
  obtain ⟨pd, parentDir, q, par, hpd, hparent, hq, hne, hpar, hunlocked, hreaches⟩ := h.parent
  have hreaches' : ∀ bid, s'.Reaches par.toInode bid → bid ∈ s.dirBlocks :=
    fun bid hbid => hreaches bid (hs'.reaches.1 hbid)
  obtain ⟨cache, _, rfl⟩ := hs'
  rw [Mount.removeDir, deref_eq_ok.2 hpd, ok_bind, ext2InodeMount_of_some (by exact hparent) hq, ok_bind,
    directory_eq_ok.2 (by exact hparent), ok_bind, deref_eq_ok.2 hq, ok_bind]
  obtain ⟨s1, hremove⟩ := removeFromParent_returns (s := { s with cache }) h.entry h.name hpar hreaches'
  rw [hremove, ok_bind]
  obtain ⟨cache1, entries, rfl⟩ := removeFromParent_onlyBlocks hremove
  have hdel : Deletable { s with cache := cache1, entries } p i d dir :=
    ⟨h.inode, h.back, h.entry, h.unlocked, h.listed, h.blocks, h.blockPerGroup, h.clearable, h.number⟩
  obtain ⟨s2, hdelete, hsame⟩ := hdel.inodeDelete
  have hpar2 : s2.inodes q = some par := (hsame q hne).trans hpar
  rw [hdelete, ok_bind, inode_eq_ok.2 hpar2, ok_bind, hunlocked, if_neg Bool.false_ne_true, setLinkCnt,
    inode_eq_ok.2 hpar2, ok_bind, ok_bind]
  exact markInodeDirty_returns inodes_setInode_self

theorem ext2Rmdir_zero (hp : s.inodes p = some i) (hd : i.dir = some d) (hdir : s.dirs d = some dir)
    (h : s.ext2Rmdir p = .ok (0, s')) : dir.child = [] ∧ ∃ s1, s.dirEmpty p = .ok (true, s1) := by
  rw [ext2Rmdir, inode_eq_ok.2 hp, ok_bind, hd] at h
  dsimp only at h
  rw [directory_eq_ok.2 hdir, ok_bind] at h
  obtain ⟨_, _, h⟩ := bind_eq_ok h
  split at h
  · split at h
    · cases h
    · rename_i hchild
      obtain ⟨⟨empty, s1⟩, hempty, h⟩ := bind_eq_ok h
      cases empty with
      | false => cases h
      | true => exact ⟨Classical.not_not.1 hchild, s1, hempty⟩
  · cases h

theorem Removable.ext2Rmdir_zero_iff (h : s.Removable p i d dir) : (∃ s', s.ext2Rmdir p = .ok (0, s')) ↔
    dir.child = [] ∧ i.linkCnt = 2 ∧ s.Vacant i.toInode := by
  obtain ⟨empty, s1, hempty, hiff⟩ := dirEmpty_returns h.inode h.isDir h.blocks_ofEntries
  rw [h.vacant_iff] at hiff
  constructor
  · rintro ⟨s', hzero⟩
    obtain ⟨hchild, s2, hempty'⟩ := ext2Rmdir_zero h.inode h.back h.entry hzero
    cases hempty.symm.trans hempty'
    exact ⟨hchild, hiff.1 rfl⟩
  · rintro ⟨hchild, hvacant⟩
    obtain rfl : empty = true := hiff.2 hvacant
    obtain ⟨s2, hremove⟩ := h.removeDir (dirEmpty_reads hempty)
    have hparent : dir.parent.isSome = true := by
      obtain ⟨pd, _, _, _, hpd, _⟩ := h.parent
      rw [hpd]
      rfl
    refine ⟨s2, ?_⟩
    rw [ext2Rmdir, inode_eq_ok.2 h.inode, ok_bind, h.back]
    dsimp only
    rw [directory_eq_ok.2 h.entry, ok_bind, hparent, assertk_true, ok_bind, h.isDir, if_pos rfl,
      if_neg (not_not.2 hchild), hempty, ok_bind]
    dsimp only
    rw [hremove, ok_bind]

/-- A removable directory is removed just when its list in memory is empty, its link count is two and its
blocks are vacant; so with an empty list and two links `ext2_rmdir` succeeds exactly on empty directories. -/
theorem ext2Rmdir_exact (h : s.Removable p i d dir) :
    ((∃ s', s.ext2Rmdir p = .ok (0, s')) ↔ dir.child = [] ∧ i.linkCnt = 2 ∧ s.Vacant i.toInode) ∧
      (dir.child = [] → i.linkCnt = 2 → s.RmdirExact p i.toInode) := by
  refine ⟨h.ext2Rmdir_zero_iff, fun hchild hcnt => ?_⟩
  rw [RmdirExact, h.ext2Rmdir_zero_iff]
  exact ⟨fun hvacant => hvacant.2.2, fun hvacant => ⟨hchild, hcnt, hvacant⟩⟩

theorem bidOf_oneBlock {v : Nat → Area} (hzero : ∀ k < 15, k ≠ 0 → inode.blocks k = 0) {bno : Nat}
    (hne : bidOf v inode bno ≠ 0) : bidOf v inode bno = inode.blocks 0 := by
  obtain ⟨hlt, heq⟩ := bidOf_direct (fun k hk hle => hzero k hk (by omega)) hne
  obtain rfl : bno = 0 := by
    by_contra hbno
    exact hne (heq.trans (hzero bno (by omega) hbno))
  exact heq

def dirD : Name := [separator, 0x64]

def dirTable (ino : Nat) : Ext2Inode where
  mode := if ino = rootInum ∨ ino = 3 then ext2AllRwx ||| ext2IfDir else 0
  size := if ino = rootInum ∨ ino = 3 then blockSize else 0
  linkCnt := if ino = rootInum then 3 else if ino = 3 then 2 else 0
  cntSectors := if ino = rootInum ∨ ino = 3 then 8 else 0
  blocks := fun i => if i = 0 then (if ino = rootInum then 5 else if ino = 3 then 6 else 0) else 0

def dirDisk : Mount :=
  { smallDisk with
    cache :=
      { disk := fun lba i =>
          if lba = 16 ∧ i = 0 then 0x7f else if lba = 24 ∧ i = 0 then 0x07 else smallBlocks lba i
        bufs := fun _ => none
        memory := fun _ _ => 0 }
    raw := dirTable
    rawDisk := dirTable
    dirBlocks := {5, 6}
    entries := fun bid =>
      if bid = 5 then
        [⟨rootInum, 12, ext2FtDir, dot⟩, ⟨rootInum, 12, ext2FtDir, dotDot⟩, ⟨3, 4072, ext2FtDir, [0x64]⟩]
      else [⟨3, 12, ext2FtDir, dot⟩, ⟨rootInum, 4084, ext2FtDir, dotDot⟩] }

/-- The directory in memory, with what its removal needs. -/
def checkDir (s : Mount) : Except Fault (InodeInfo × Directory) := do
  let i ← s.inode (kernelStart + 0x2000)
  let dir ← s.directory (kernelStart + 0x20000)
  let pd ← deref dir.parent
  let parentDir ← s.directory pd
  let q ← deref parentDir.inode
  let par ← s.inode q
  assertk (i.isDir ∧ i.dir = some (kernelStart + 0x20000) ∧ i.writelock = false ∧ dir.brother = some pd ∧
    dir.name.length ≤ fileDnameLen ∧ dir.ino = 3 ∧ q ≠ kernelStart + 0x2000 ∧ par.writelock = false)
  assertk ((List.range 15).all fun k => i.blocks k = (if k = 0 then 6 else 0) ∧
    par.blocks k = if k = 0 then 5 else 0)
  assertk (s.dirBlocks = {5, 6} ∧ s.sb.blockPerGroup = 32 ∧ s.sb.desc = [⟨2⟩] ∧
    s.geometry.inodePerGroup = 16 ∧ s.geometry.inodeBitmapAddr = [3])
  assertk ((s.entries 6).all fun dir => ¬ OtherEntry dir)
  .ok (i, dir)

theorem checkDir_removable (h : s.checkDir = .ok (i, dir)) :
    s.Removable (kernelStart + 0x2000) i (kernelStart + 0x20000) dir ∧ s.Vacant i.toInode := by
  obtain ⟨i', hi, h⟩ := bind_eq_ok h
  simp only [bind_ok_iff] at h
  obtain ⟨dir', hdir, pd, hpd, parentDir, hparentDir, q, hq, par, hpar, _, hobjects, _, hblocks, _, hdisk, _,
    hvacant, h⟩ := h
  cases h
  obtain ⟨hisDir, hback, hlock, hbrother, hname, hino, hne, hlock'⟩ :=
    of_assertk hobjects
  obtain ⟨hdirBlocks, hper, hdesc, hinodes, hmap⟩ := of_assertk hdisk
  have hblocks' : ∀ k < 15, i.blocks k = (if k = 0 then 6 else 0) ∧ par.blocks k = if k = 0 then 5 else 0 :=
    fun k hk => of_decide_eq_true (List.all_eq_true.1 (assertk_eq_ok hblocks) k (List.mem_range.2 hk))
  have hsix : ∀ k < 15, i.blocks k ≠ 0 → k = 0 := by
    intro k hk hne
    by_contra hzero
    exact hne ((hblocks' k hk).1.trans (if_neg hzero))
  have hplace : s.inodePlace 3 = (0, 2) := by
    dsimp only [inodePlace]
    rw [hinodes]
    decide
  refine ⟨⟨⟨inode_eq_ok.1 hi, hback, directory_eq_ok.1 hdir, hlock, ⟨pd, parentDir, hbrother,
    directory_eq_ok.1 hparentDir⟩, ⟨1, by decide, fun k hk => ?_⟩, by rw [hper]; decide, fun k hk hne => ?_,
    ⟨⟨_, 3, ?_, rfl⟩, by rw [hino]; decide⟩⟩, hisDir, hname, fun k hk hne => ?_, ⟨pd, parentDir, q, par,
    deref_eq_ok.1 hpd, directory_eq_ok.1 hparentDir, deref_eq_ok.1 hq, hne, inode_eq_ok.1 hpar, hlock',
    fun bid hbid => ?_⟩⟩, fun bno _ hne => ?_⟩
  · rw [(hblocks' k hk).1]
    split <;> omega
  · rw [hsix k (by omega) hne, (hblocks' 0 (by decide)).1, Clearable, hper, hdesc]
    exact ⟨⟨⟨2⟩, rfl⟩, by decide⟩
  · rw [hino, hplace, hmap]
    rfl
  · rw [hsix k (by omega) hne, (hblocks' 0 (by decide)).1, hdirBlocks]
    decide
  · obtain ⟨bno, _, rfl, hne⟩ := hbid.exists_bno
    have hzero : ∀ k < 15, k ≠ 0 → par.blocks k = 0 := fun k hk hk' => (hblocks' k hk).2.trans (if_neg hk')
    rw [bidOf_oneBlock hzero hne, (hblocks' 0 (by decide)).2, hdirBlocks]
    decide
  · have hzero : ∀ k < 15, k ≠ 0 → i.blocks k = 0 := fun k hk hk' => (hblocks' k hk).1.trans (if_neg hk')
    rw [bidOf_oneBlock hzero hne, (hblocks' 0 (by decide)).1]
    exact fun dir hdir => of_decide_eq_true (List.all_eq_true.1 (assertk_eq_ok hvacant) dir hdir)

def dirRmdir : Except Fault Unit := do
  let s0 ← dirDisk.boot 0
  let (_, s) ← s0.step (.find dirD)
  let (i, dir) ← s.checkDir
  assertk (dir.child = [] ∧ i.linkCnt = 2)

/-- The directory is removed after a lookup of its name. -/
theorem ext2Rmdir_exact_dirDisk : ∃ s0 s p i, dirDisk.boot 0 = .ok s0 ∧ NameRun (fun _ _ => True) s0 s ∧
    s.inodes p = some i ∧ i.isDir = true ∧ (∃ s', s.ext2Rmdir p = .ok (0, s')) ∧ s.RmdirExact p i.toInode := by
  have hrun : dirRmdir.isOk = true := by decide +kernel
  obtain ⟨_, hrun⟩ := exists_ok hrun
  obtain ⟨s0, hboot, hrun⟩ := bind_eq_ok hrun
  obtain ⟨⟨ret, s⟩, hstep, hrun⟩ := bind_eq_ok hrun
  obtain ⟨⟨i, dir⟩, hcheck, hready⟩ := bind_eq_ok hrun
  obtain ⟨hchild, hcnt⟩ := of_assertk hready
  obtain ⟨hr, hvacant⟩ := checkDir_removable hcheck
  obtain ⟨hiff, hexact⟩ := ext2Rmdir_exact hr
  exact ⟨s0, s, _, i, hboot, .step .start (.find dirD) trivial hstep, hr.inode, hr.isDir,
    hiff.2 ⟨hchild, hcnt, hvacant⟩, hexact hchild hcnt⟩

def dirLookup : Except Fault Unit := do
  let s0 ← dirDisk.boot 0
  let (_, s) ← s0.step (.lookup (dirD ++ separator :: dot))
  let (_, dir) ← s.checkDir
  assertk (dir.child ≠ [])

/-- The same directory is not removed after a lookup of `.` in it. -/
theorem lookupDot_not_rmdirExact : ∃ s0 s p i, dirDisk.boot 0 = .ok s0 ∧
    NameRun (fun _ _ => True) s0 s ∧ s.inodes p = some i ∧ i.isDir = true ∧ s.Vacant i.toInode ∧
    ¬ s.RmdirExact p i.toInode := by
  have hrun : dirLookup.isOk = true := by decide +kernel
  obtain ⟨_, hrun⟩ := exists_ok hrun
  obtain ⟨s0, hboot, hrun⟩ := bind_eq_ok hrun
  obtain ⟨⟨ret, s⟩, hstep, hrun⟩ := bind_eq_ok hrun
  obtain ⟨⟨i, dir⟩, hcheck, hchild⟩ := bind_eq_ok hrun
  obtain ⟨hr, hvacant⟩ := checkDir_removable hcheck
  refine ⟨s0, s, _, i, hboot, .step .start (.lookup (dirD ++ separator :: dot)) trivial hstep, hr.inode,
    hr.isDir, hvacant, fun hexact => ?_⟩
  obtain ⟨s', hzero⟩ := hexact.2 hvacant
  exact of_assertk hchild (ext2Rmdir_zero hr.inode hr.back hr.entry hzero).1

end Mount

end QuarkOS
