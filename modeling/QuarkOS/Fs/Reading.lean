import QuarkOS.Fs.Ext2

/-!
# The position of an open file

`vfs_lseek` and `vfs_ftell`. The source adds the offset to a number without a sign before it looks at
the sign of the sum. For `SEEK_END` the sum has 64 bits and keeps its sign; for `SEEK_CUR` it has 32,
and a position before the start of the file becomes one near 4 GiB.
-/

namespace QuarkOS

open Bytes

namespace Fs

def vfsFtell (fs : Fs) (fd : Nat) : Except Fault Int := do
  match ← fs.getInode fd with
  | none => .ok (-2)
  | some node => .ok node.offset

/-- The number that a seek counts from. -/
def seekBase (node : Inode) : SeekWhence → Int
  | .set => 0
  | .cur => node.offset
  | .end => node.size

structure SeeksExactly (fs : Fs) (fd : Nat) (node : Inode) (offset : Int) (whence : SeekWhence) :
    Prop where
  refused : seekBase node whence + offset < 0 → ∃ ret fs', fs.vfsLseek fd offset whence = .ok (ret, fs') ∧
    ret < 0 ∧ fs'.vfsFtell fd = fs.vfsFtell fd
  moved : 0 ≤ seekBase node whence + offset → seekBase node whence + offset < 2 ^ 31 →
    ∃ fs', fs.vfsLseek fd offset whence = .ok (seekBase node whence + offset, fs') ∧
      fs'.vfsFtell fd = .ok (seekBase node whence + offset)

variable {fs : Fs} {fd : Nat} {node : Inode} {offset : Int} {whence : SeekWhence}

section

variable (hfd : fd < fileTableSize)
include hfd

theorem getInode_of_lt (hfile : fs.files fd = some node) :
    fs.getInode fd = .ok (some node) := by
  rw [getInode, if_pos hfd, hfile]

theorem vfsFtell_eq (hfile : fs.files fd = some node) :
    fs.vfsFtell fd = .ok (node.offset : Int) := by
  rw [vfsFtell, getInode_of_lt hfd hfile]
  rfl

theorem vfsFtell_setFile : (fs.setFile fd node).vfsFtell fd = .ok (node.offset : Int) :=
  vfsFtell_eq hfd (Function.update_self ..)

theorem vfsLseek_refused (hfile : fs.files fd = some node)
    (hseek : seekTo node offset whence = none) : fs.vfsLseek fd offset whence = .ok (-1, fs) := by
  rw [vfsLseek, getInode_of_lt hfd hfile, ok_bind]
  simp only [hseek]

theorem vfsLseek_moved {pos : Nat} (hfile : fs.files fd = some node)
    (hseek : seekTo node offset whence = some pos) :
    fs.vfsLseek fd offset whence =
      .ok (Int.bmod pos (2 ^ 32), fs.setFile fd { node with offset := pos }) := by
  rw [vfsLseek, getInode_of_lt hfd hfile, ok_bind]
  simp only [hseek]

end

theorem seekTo_of_nonneg {pos : Nat} (hsum : seekBase node whence + offset = pos) (hpos : pos < 2 ^ 31) :
    seekTo node offset whence = some pos := by
  cases whence with
  | set =>
    have hoffset : offset = pos := by
      rw [← hsum, seekBase, Int.zero_add]
    rw [seekTo, if_neg (by omega), hoffset]
    congr 1
    omega
  | cur =>
    have hcur : (node.offset : Int) + offset = pos := hsum
    rw [seekTo, hcur]
    congr 1
    omega
  | «end» =>
    have hend : (node.size : Int) + offset = pos := hsum
    rw [seekTo, hend]
    have hmod : ((pos : Int) % 2 ^ 64).toNat = pos := by omega
    simp only [hmod]
    rw [if_neg (by omega)]
    congr 1
    omega

theorem seekTo_set_of_neg (hneg : offset < 0) : seekTo node offset .set = none := by
  rw [seekTo, if_pos hneg]

theorem seekTo_end_of_neg (hoffset : -2 ^ 31 ≤ offset) (hneg : (node.size : Int) + offset < 0) :
    seekTo node offset .end = none := by
  have hmod : 2 ^ 63 ≤ (((node.size : Int) + offset) % 2 ^ 64).toNat := by omega
  rw [seekTo]
  exact if_pos hmod

/-- A seek before the start from the current position goes to the end of the 32-bit positions. -/
theorem seekTo_cur_of_neg (hoffset : -2 ^ 31 ≤ offset) (hneg : (node.offset : Int) + offset < 0) :
    ∃ pos, seekTo node offset .cur = some pos ∧ (pos : Int) = node.offset + offset + 2 ^ 32 := by
  refine ⟨(((node.offset : Int) + offset) % 2 ^ 32).toNat, rfl, ?_⟩
  omega

theorem seeksExactly_iff (hfd : fd < fileTableSize) (hfile : fs.files fd = some node)
    (hoffset : -2 ^ 31 ≤ offset) :
    fs.SeeksExactly fd node offset whence ↔ (whence = .cur → 0 ≤ (node.offset : Int) + offset) := by
  constructor
  · rintro hexact rfl
    by_contra hneg
    obtain ⟨pos, hseek, hwrap⟩ := seekTo_cur_of_neg hoffset (Int.not_le.1 hneg)
    obtain ⟨ret, fs', hret, _, htell⟩ := hexact.refused (Int.not_le.1 hneg)
    rw [vfsLseek_moved hfd hfile hseek] at hret
    have hfs : fs.setFile fd { node with offset := pos } = fs' := congrArg Prod.snd (Except.ok.inj hret)
    rw [← hfs, vfsFtell_setFile hfd, vfsFtell_eq hfd hfile] at htell
    have hsame : (pos : Int) = node.offset := Except.ok.inj htell
    omega
  · intro hcond
    refine ⟨fun hneg => ?_, fun hnonneg hbound => ?_⟩
    · have hnone : seekTo node offset whence = none := by
        cases whence with
        | set => exact seekTo_set_of_neg (by rw [seekBase] at hneg; omega)
        | cur => exact absurd (hcond rfl) (Int.not_le.2 hneg)
        | «end» => exact seekTo_end_of_neg hoffset hneg
      exact ⟨-1, fs, vfsLseek_refused hfd hfile hnone, by decide, rfl⟩
    · obtain ⟨pos, hsum⟩ := Int.eq_ofNat_of_zero_le hnonneg
      have hlow : pos < 2 ^ 31 := by omega
      refine ⟨fs.setFile fd { node with offset := pos }, ?_, ?_⟩
      · rw [vfsLseek_moved hfd hfile (seekTo_of_nonneg hsum hlow), hsum, Int.bmod_eq_of_le]
        · omega
        · omega
      · rw [vfsFtell_setFile hfd, hsum]

def shortFile : Inode where
  state := .old
  type := ext2IfReg
  size := 100
  offset := 10
  blockCnt := 0
  blocks := fun _ => 0

def shortFileFs : Fs where
  sb := { blockPerGroup := 1, desc := [] }
  cache := { disk := fun _ _ => 0, bufs := fun _ => none, memory := fun _ _ => 0 }
  files := Function.update (fun _ => none) 3 (some shortFile)

theorem seeksExactly_iff_shortFile : shortFileFs.SeeksExactly 3 shortFile (-20) .end :=
  (seeksExactly_iff (by decide) rfl (by decide)).2 nofun

/-- Twenty bytes back from position 10: the call fails, but the position is now `2 ^ 32 - 10`. -/
theorem shortFile_not_seeksExactly : ¬ shortFileFs.SeeksExactly 3 shortFile (-20) .cur := by
  intro hexact
  obtain ⟨ret, fs', hret, _, htell⟩ := hexact.refused (by decide)
  have hfs : shortFileFs.setFile 3 { shortFile with offset := 2 ^ 32 - 10 } = fs' := by
    rw [vfsLseek_moved (by decide) rfl (show seekTo shortFile (-20) .cur = some (2 ^ 32 - 10) by decide)]
      at hret
    exact congrArg Prod.snd (Except.ok.inj hret)
  rw [← hfs, vfsFtell_setFile (by decide), vfsFtell_eq (by decide) rfl] at htell
  exact absurd (Except.ok.inj htell) (by decide)

end Fs

end QuarkOS
