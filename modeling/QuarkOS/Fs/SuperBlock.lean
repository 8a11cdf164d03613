import QuarkOS.Fs.Mount
import QuarkOS.Fs.Blocks

/-!
# The super block and the group descriptors

`superBlock_init` reads the super block, counts the groups by `blockCnt / blockPerGroup` and copies the
addresses in the group descriptors into memory. It walks over the descriptors from the first one on
without leaving the page, while `get_raw_gd` looks for the block of a descriptor. The quotient is rounded
down, so the last group is counted only if it is as large as the others.

The memory for the descriptors is taken to be there; `kmalloc` is in `Kmalloc.lean`.
-/

namespace QuarkOS

open Bytes PageCache

/-- The fields of `ext2_superBlock` that are read. -/
structure Ext2Sb where
  inodeCnt : Nat
  blockCnt : Nat
  logBlockSize : Nat
  blockPerGroup : Nat
  inodePerGroup : Nat
  magic : Nat
  fsVersionMajor : Nat
  inodeSize : Nat
deriving DecidableEq, Repr

def superBlockNo : Nat := 2

/-- The super block in the page of block 0. -/
def rawSb (page : Area) : Ext2Sb :=
  let blk := sectorSize * superBlockNo
  { inodeCnt := load page blk 4
    blockCnt := load page (blk + 4) 4
    logBlockSize := load page (blk + 24) 4
    blockPerGroup := load page (blk + 32) 4
    inodePerGroup := load page (blk + 40) 4
    magic := load page (blk + 56) 2
    fsVersionMajor := load page (blk + 76) 4
    inodeSize := load page (blk + 88) 2 }

def ext2Signature : Nat := 0xef53

/-- The addresses in a group descriptor. -/
structure GroupDesc where
  blockBitmapAddr : Nat
  inodeBitmapAddr : Nat
  inodeTableAddr : Nat
deriving DecidableEq, Repr

def rawDesc (page : Area) (off : Nat) : GroupDesc where
  blockBitmapAddr := load page off 4
  inodeBitmapAddr := load page (off + 4) 4
  inodeTableAddr := load page (off + 8) 4

def sizeofExt2Gd : Nat := 32

structure SbInfo where
  magic : Nat
  blockSize : Nat
  inodeSize : Nat
  inodePerGroup : Nat
  blockPerGroup : Nat
  version : Nat
  groupCnt : Nat
  desc : List GroupDesc
deriving DecidableEq, Repr

/-- The loop of `superBlock_init` from descriptor `i` on; what is behind the page is not the disk's. -/
def readDescs (page : Area) : Nat → Nat → Except Fault (List GroupDesc)
  | 0, _ => .ok []
  | cnt + 1, i =>
    if i * sizeofExt2Gd + sizeofExt2Gd ≤ pageSize then do
      let rest ← readDescs page cnt (i + 1)
      .ok (rawDesc page (i * sizeofExt2Gd) :: rest)
    else .error .undefined

/-- What is made of the super block and the descriptors. -/
def sbInfo (blk : Ext2Sb) (blockSize : Nat) (desc : List GroupDesc) : SbInfo where
  magic := blk.magic
  blockSize
  inodeSize := blk.inodeSize
  inodePerGroup := blk.inodePerGroup
  blockPerGroup := blk.blockPerGroup
  version := blk.fsVersionMajor
  groupCnt := blk.blockCnt / blk.blockPerGroup
  desc

def superBlockInit (s : PageCache) : Except Fault (SbInfo × PageCache) := do
  let s ← s.pageReadNo 0
  let blk := rawSb (s.data 0)
  assertk (blk.magic = ext2Signature)
  if blk.blockPerGroup = 0 then .error .undefined
  else
    let groupCount := blk.blockCnt / blk.blockPerGroup
    let blockSize := 2 <<< (blk.logBlockSize + 9) % 2 ^ 32
    -- the first descriptor is at the start of block 1
    let page := blockSize / sectorSize % 2 ^ 32
    let s ← s.pageReadNo page
    let desc ← readDescs (s.data page) groupCount 0
    .ok (sbInfo blk blockSize desc, s)

def SbInfo.inode2Group (sb : SbInfo) (ino : Nat) : Nat := (ino + 2 ^ 32 - 1) % 2 ^ 32 / sb.inodePerGroup

/-- A super block of a file system with blocks of 4 KiB. The last group may be smaller than the others,
but has as many inodes. -/
structure Ext2Sb.Sane (blk : Ext2Sb) : Prop where
  magic : blk.magic = ext2Signature
  logBlockSize : blk.logBlockSize = 2
  blockPerGroup : 0 < blk.blockPerGroup
  inodePerGroup : 0 < blk.inodePerGroup
  blockCnt : 0 < blk.blockCnt
  inodeCnt : blk.inodeCnt = (blk.blockCnt + blk.blockPerGroup - 1) / blk.blockPerGroup * blk.inodePerGroup

/-- The groups in memory are those of the disk. -/
structure SbInfo.Describes (sb : SbInfo) (blk : Ext2Sb) (s : PageCache) : Prop where
  inode : ∀ ino, 1 ≤ ino → ino ≤ blk.inodeCnt → sb.inode2Group ino < sb.groupCnt
  block : ∀ bid < blk.blockCnt, bid / sb.blockPerGroup < sb.groupCnt
  desc : ∀ i < sb.groupCnt, ∃ page off s', getRawGd s i = .ok (page, off, s') ∧
    sb.desc[i]? = some (rawDesc (s'.data page) off)

theorem readDescs_ok {page : Area} {cnt i : Nat} (h : i + cnt ≤ descriptorPerBlock) :
    readDescs page cnt i = .ok ((List.range' i cnt).map fun k => rawDesc page (k * sizeofExt2Gd)) := by
  have hper : descriptorPerBlock = 128 := rfl
  induction cnt generalizing i with
  | zero => rfl
  | succ cnt ih =>
    have hfits : i * sizeofExt2Gd + sizeofExt2Gd ≤ pageSize := by
      unfold sizeofExt2Gd pageSize
      omega
    rw [readDescs, if_pos hfits, ih (by omega), ok_bind, List.range'_succ, List.map_cons]

theorem readDescs_undefined {page : Area} {cnt i : Nat} (hi : i ≤ descriptorPerBlock)
    (h : descriptorPerBlock < i + cnt) : readDescs page cnt i = .error .undefined := by
  have hper : descriptorPerBlock = 128 := rfl
  induction cnt generalizing i with
  | zero => omega
  | succ cnt ih =>
    rw [readDescs]
    split
    · rename_i hfits
      have hlt : i + 1 ≤ 128 := by
        unfold sizeofExt2Gd pageSize at hfits
        omega
      rw [ih hlt (by omega), error_bind]
    · rfl

theorem descriptor_place {i : Nat} (hi : i < descriptorPerBlock) :
    gdNo i = 8 ∧ descriptorOffset i = i * sizeofExt2Gd := by
  constructor
  · rw [gdNo, descriptorBid, Nat.div_eq_of_lt hi]
    rfl
  · rw [descriptorOffset, Nat.mod_eq_of_lt hi]
    rfl

variable {s : PageCache} {blk : Ext2Sb}

theorem superBlockInit_eq (hsane : (rawSb (s.view 0)).Sane) : ∃ s', Becomes s s' s.view ∧
    superBlockInit s = (readDescs (s.view 8)
      ((rawSb (s.view 0)).blockCnt / (rawSb (s.view 0)).blockPerGroup) 0 >>= fun desc =>
        .ok (sbInfo (rawSb (s.view 0)) 4096 desc, s')) := by
  obtain ⟨s1, hread1, h1, hvalid1⟩ := @pageReadNo_ok s 0 rfl
  obtain ⟨s2, hread2, h2, hvalid2⟩ := @pageReadNo_ok s1 8 rfl
  rw [h1.view] at h2
  refine ⟨s2, h1.trans h2, ?_⟩
  have hmagic : decide ((rawSb (s.view 0)).magic = ext2Signature) = true := decide_eq_true hsane.magic
  rw [superBlockInit, hread1, ok_bind, hvalid1.data_eq, h1.view]
  dsimp only
  rw [hmagic, assertk_true, ok_bind, if_neg (by have := hsane.blockPerGroup; omega), hsane.logBlockSize]
  change (s1.pageReadNo 8 >>= _) = _
  rw [hread2, ok_bind]
  change (readDescs (s2.data 8) _ 0 >>= _) = _
  rw [hvalid2.data_eq, h2.view]
  rfl

theorem Ext2Sb.Sane.inode_covered (h : blk.Sane) (hdvd : blk.blockPerGroup ∣ blk.blockCnt) {ino : Nat}
    (hpos : 1 ≤ ino) (hle : ino ≤ blk.inodeCnt) (hlt : ino < 2 ^ 32) :
    (ino + 2 ^ 32 - 1) % 2 ^ 32 / blk.inodePerGroup < blk.blockCnt / blk.blockPerGroup := by
  obtain ⟨k, hk⟩ := hdvd
  have hgroups : (blk.blockCnt + blk.blockPerGroup - 1) / blk.blockPerGroup = k := by
    rw [hk, Nat.add_sub_assoc h.blockPerGroup, Nat.mul_add_div h.blockPerGroup,
      Nat.div_eq_of_lt (Nat.sub_lt h.blockPerGroup Nat.one_pos), Nat.add_zero]
  have hcnt : blk.inodeCnt = k * blk.inodePerGroup := by
    rw [h.inodeCnt, hgroups]
  have hmod : (ino + 2 ^ 32 - 1) % 2 ^ 32 = ino - 1 := by omega
  rw [hmod, hk, Nat.mul_div_cancel_left k h.blockPerGroup, Nat.div_lt_iff_lt_mul h.inodePerGroup]
  omega

theorem Ext2Sb.Sane.block_covered (h : blk.Sane) :
    (∀ bid < blk.blockCnt, bid / blk.blockPerGroup < blk.blockCnt / blk.blockPerGroup) ↔
      blk.blockPerGroup ∣ blk.blockCnt := by
  constructor
  · intro hall
    obtain ⟨n, hn⟩ := Nat.exists_eq_add_one_of_ne_zero (Nat.ne_of_gt h.blockCnt)
    have hlast := hall n (by omega)
    rw [hn, Nat.succ_div] at hlast
    by_contra hdvd
    rw [hn] at hdvd
    rw [if_neg hdvd, Nat.add_zero] at hlast
    exact Nat.lt_irrefl _ hlast
  · rintro ⟨k, hk⟩ bid hbid
    rw [hk] at hbid ⊢
    rw [Nat.mul_div_cancel_left k h.blockPerGroup]
    exact Nat.div_lt_of_lt_mul hbid

theorem superBlockInit_describes_iff (hsane : (rawSb (s.view 0)).Sane) :
    (∃ sb s', superBlockInit s = .ok (sb, s') ∧ sb.Describes (rawSb (s.view 0)) s') ↔
      (rawSb (s.view 0)).blockPerGroup ∣ (rawSb (s.view 0)).blockCnt ∧
        (rawSb (s.view 0)).blockCnt / (rawSb (s.view 0)).blockPerGroup ≤ descriptorPerBlock := by
  obtain ⟨s1, h1, hinit⟩ := superBlockInit_eq hsane
  have hino : ∀ ino ≤ (rawSb (s.view 0)).inodeCnt, ino < 2 ^ 32 := fun ino hle =>
    Nat.lt_of_le_of_lt hle (load_lt (s.view 0) _ 4)
  generalize rawSb (s.view 0) = blk at hsane hinit hino ⊢
  constructor
  · rintro ⟨sb, s', hok, hdesc⟩
    by_cases hmany : descriptorPerBlock < blk.blockCnt / blk.blockPerGroup
    · rw [hinit, readDescs_undefined (Nat.zero_le _) (by rwa [Nat.zero_add])] at hok
      cases hok
    · rw [hinit, readDescs_ok (by omega)] at hok
      cases hok
      exact ⟨hsane.block_covered.1 hdesc.block, Nat.not_lt.1 hmany⟩
  · rintro ⟨hdvd, hfew⟩
    rw [readDescs_ok (by rwa [Nat.zero_add])] at hinit
    refine ⟨_, s1, hinit, fun ino hpos hle => ?_, hsane.block_covered.2 hdvd, fun i hi => ?_⟩
    · exact hsane.inode_covered hdvd hpos hle (hino ino hle)
    · obtain ⟨hno, hoff⟩ := descriptor_place (Nat.lt_of_lt_of_le hi hfew)
      obtain ⟨s2, hraw, h2, hvalid2⟩ := getRawGd_ok s1 i
      refine ⟨gdNo i, descriptorOffset i, s2, hraw, ?_⟩
      have hlt : i < blk.blockCnt / blk.blockPerGroup := hi
      rw [hvalid2.data_eq, h2.view, h1.view, hno, hoff]
      simp only [sbInfo, List.getElem?_map, List.getElem?_range' hlt, Option.map_some, Nat.zero_add,
        Nat.one_mul]

def groupDisk (blockCnt blockPerGroup groups : Nat) : PageCache where
  disk no :=
    if no = 0 then
      let blk := sectorSize * superBlockNo
      let page := store (fun _ => 0) blk 4 (8 * groups)
      let page := store page (blk + 4) 4 blockCnt
      let page := store page (blk + 24) 4 2
      let page := store page (blk + 32) 4 blockPerGroup
      let page := store page (blk + 40) 4 8
      store page (blk + 56) 2 ext2Signature
    else fun _ => 0
  bufs _ := none
  memory _ _ := 0

theorem groupDisk_sane (blockCnt blockPerGroup groups : Nat)
    (h : decide (rawSb ((groupDisk blockCnt blockPerGroup groups).view 0) =
      ⟨8 * groups, blockCnt, 2, blockPerGroup, 8, ext2Signature, 0, 0⟩ ∧ 0 < blockPerGroup ∧ 0 < blockCnt ∧
      groups = (blockCnt + blockPerGroup - 1) / blockPerGroup) = true) :
    (rawSb ((groupDisk blockCnt blockPerGroup groups).view 0)).Sane := by
  obtain ⟨hraw, hper, hcnt, hgroups⟩ := of_decide_eq_true h
  rw [hraw]
  refine ⟨rfl, rfl, hper, Nat.succ_pos 7, hcnt, ?_⟩
  rw [← hgroups, Nat.mul_comm]

theorem superBlockInit_describes_iff_twoGroups : ∃ sb s', superBlockInit (groupDisk 32 16 2) = .ok (sb, s') ∧
    sb.Describes (rawSb ((groupDisk 32 16 2).view 0)) s' :=
  (superBlockInit_describes_iff (groupDisk_sane 32 16 2 (by decide))).2 (by decide)

/-- With 40 blocks in groups of 16 the third group is not counted, and with 129 groups the walk over the
descriptors leaves their first block. -/
theorem groupDisk_not_describes : (¬ ∃ sb s', superBlockInit (groupDisk 40 16 3) = .ok (sb, s') ∧
      sb.Describes (rawSb ((groupDisk 40 16 3).view 0)) s') ∧
    ¬ ∃ sb s', superBlockInit (groupDisk 2064 16 129) = .ok (sb, s') ∧
      sb.Describes (rawSb ((groupDisk 2064 16 129).view 0)) s' := by
  constructor
  · rintro ⟨sb, s', hok, hdesc⟩
    obtain ⟨s1, _, hinit⟩ := superBlockInit_eq (groupDisk_sane 40 16 3 (by decide))
    rw [hinit, readDescs_ok (by decide)] at hok
    cases hok
    exact absurd (hdesc.block 39 (by decide)) (by decide)
  · rintro ⟨sb, s', hok, _⟩
    obtain ⟨s1, _, hinit⟩ := superBlockInit_eq (groupDisk_sane 2064 16 129 (by decide))
    rw [hinit, readDescs_undefined (by decide) (by decide)] at hok
    cases hok

end QuarkOS
