import Mathlib.Data.Nat.Find
import QuarkOS.Fs.Bitmap

/-!
# When a block is found

`set_block_bitmap` looks for a free block in one group, which `find_group` chooses. For a file without
blocks that is the group with the fewest free blocks, and so a full one if there is one. For any other
file it is the next group that has a free block, counted from the group of the first block of the file;
a file that has blocks but a hole at its beginning stops the kernel. Of the bitmap of the group only the
first 512 bytes are looked at.
-/

namespace QuarkOS

open Bytes PageCache

variable {sb : Ext2SbInfo} {v : Nat → Area} {s s' : PageCache} {inode : Inode} {g g' i : Nat}

/-- From the group `i` on, the groups before `g` are full and `g` is not. -/
def NextFree (v : Nat → Area) (cnt i g : Nat) : Prop :=
  ∃ k < cnt, g = (i + k) % cnt ∧ groupFree v g ≠ 0 ∧ ∀ j < k, groupFree v ((i + j) % cnt) = 0

/-- The group in which `set_block_bitmap` looks for a free block. -/
def ChosenGroup (sb : Ext2SbInfo) (v : Nat → Area) (inode : Inode) (g : Nat) : Prop :=
  if inode.blockCnt = 0 then LeastFree (groupFree v) sb.groupCnt g
  else inode.blocks 0 ≠ 0 ∧ NextFree v sb.groupCnt (inode.blocks 0 / sb.blockPerGroup) g

theorem LeastFree.unique {free : Nat → Nat} {cnt : Nat} (h : LeastFree free cnt g)
    (h' : LeastFree free cnt g') : g = g' := by
  rcases Nat.lt_trichotomy g g' with hlt | heq | hgt
  · exact absurd (h'.first g hlt) (Nat.not_lt.2 (h.le g' h'.lt))
  · exact heq
  · exact absurd (h.first g' hgt) (Nat.not_lt.2 (h'.le g h.lt))

theorem NextFree.unique {cnt : Nat} (h : NextFree v cnt i g) (h' : NextFree v cnt i g') : g = g' := by
  obtain ⟨k, _, rfl, hfree, hfull⟩ := h
  obtain ⟨k', _, rfl, hfree', hfull'⟩ := h'
  rcases Nat.lt_trichotomy k k' with hlt | rfl | hgt
  · exact absurd (hfull' k hlt) hfree
  · rfl
  · exact absurd (hfull k' hgt) hfree'

theorem ChosenGroup.unique (h : ChosenGroup sb v inode g) (h' : ChosenGroup sb v inode g') : g = g' := by
  unfold ChosenGroup at h h'
  split at h
  · rw [if_pos ‹_›] at h'
    exact h.unique h'
  · rw [if_neg ‹_›] at h'
    exact h.2.unique h'.2

theorem ChosenGroup.lt (h : ChosenGroup sb v inode g) : g < sb.groupCnt := by
  unfold ChosenGroup at h
  split at h
  · exact h.lt
  · obtain ⟨_, k, hk, rfl, _⟩ := h
    exact Nat.mod_lt _ (Nat.zero_lt_of_lt hk)

theorem exists_nextFree {cnt : Nat} (hi : i < cnt) (hg : g < cnt) (hfree : groupFree v g ≠ 0) :
    ∃ g', NextFree v cnt i g' := by
  have hex : ∃ k, groupFree v ((i + k) % cnt) ≠ 0 := by
    refine ⟨g + (cnt - i), ?_⟩
    rw [show i + (g + (cnt - i)) = g + cnt by omega, Nat.add_mod_right, Nat.mod_eq_of_lt hg]
    exact hfree
  have hleast : Nat.find hex < cnt := by
    refine Nat.lt_of_not_le fun hle => ?_
    have hfull := Nat.find_min hex (m := Nat.find hex - cnt) (by omega)
    rw [not_not, ← Nat.add_mod_right, show i + (Nat.find hex - cnt) + cnt = i + Nat.find hex by omega]
      at hfull
    exact Nat.find_spec hex hfull
  refine ⟨_, Nat.find hex, hleast, rfl, Nat.find_spec hex, ?_⟩
  intro j hj
  exact not_not.1 (Nat.find_min hex hj)

theorem groupFree_lt (v : Nat → Area) (g : Nat) : groupFree v g < 2 ^ 16 := load_lt _ _ _

theorem findGroupNext_next {cnt k : Nat} (hi : i < cnt) (hcnt : cnt ≤ maxBlock) (hk : k < cnt)
    (hfree : groupFree v ((i + k) % cnt) ≠ 0) (hfull : ∀ j < k, groupFree v ((i + j) % cnt) = 0)
    (d : Nat) : ∀ {s : PageCache} {j fuel : Nat}, s.view = v → j + d = k → d < fuel →
    ∃ s', findGroupNext freeBlockCnt s cnt i fuel ((i + j) % cnt) = .ok ((i + k) % cnt, s') := by
  have hpos : cnt ≠ 0 := Nat.ne_of_gt (Nat.zero_lt_of_lt hi)
  have hmax : maxBlock = 2 ^ 29 := rfl
  induction d with
  | zero =>
    rintro s j fuel rfl hj hfuel
    obtain ⟨fuel, rfl⟩ := Nat.exists_eq_succ_of_ne_zero (Nat.ne_of_gt hfuel)
    obtain ⟨s1, hgd, _, hcount⟩ := getRawGd_count freeBlockCnt s ((i + j) % cnt)
    change _ = groupFree s.view _ at hcount
    rw [Nat.add_zero] at hj
    subst hj
    rw [findGroupNext, hgd, ok_bind]
    dsimp only
    rw [hcount, if_pos hfree]
    exact ⟨s1, rfl⟩
  | succ d ih =>
    rintro s j fuel rfl hj hfuel
    obtain ⟨fuel, rfl⟩ := Nat.exists_eq_succ_of_ne_zero (Nat.ne_of_gt (Nat.zero_lt_of_lt hfuel))
    obtain ⟨s1, hgd, hbecomes, hcount⟩ := getRawGd_count freeBlockCnt s ((i + j) % cnt)
    change _ = groupFree s.view _ at hcount
    have hlt : (i + j) % cnt < cnt := Nat.mod_lt _ (Nat.zero_lt_of_lt hi)
    have hnext : ((i + j) % cnt + 1) % 2 ^ 32 % cnt = (i + (j + 1)) % cnt := by
      have hsmall : ((i + j) % cnt + 1) % 2 ^ 32 = (i + j) % cnt + 1 := Nat.mod_eq_of_lt (by omega)
      rw [hsmall, Nat.mod_add_mod, Nat.add_assoc]
    -- The search has not come round to the first group yet.
    have hother : i ≠ (i + (j + 1)) % cnt := by
      rcases Nat.lt_or_ge (i + (j + 1)) cnt with hin | hout
      · rw [Nat.mod_eq_of_lt hin]
        omega
      · rw [Nat.mod_eq_sub_mod hout, Nat.mod_eq_of_lt (by omega)]
        omega
    rw [findGroupNext, hgd, ok_bind]
    dsimp only
    rw [hcount, hfull j (by omega), if_neg (not_not.2 rfl), if_neg hpos, hnext, if_pos hother]
    exact ih hbecomes.view (by omega) (by omega)

theorem findGroup_chosen (hl : sb.Layout) (hg : g < sb.groupCnt) (hspace : groupFree s.view g ≠ 0)
    (hblocks : inode.blocks 0 ≠ 0 → inode.blocks 0 / sb.blockPerGroup < sb.groupCnt)
    (hhole : inode.blockCnt = 0 ∨ inode.blocks 0 ≠ 0) :
    ∃ g s', findGroup sb inode s = .ok (g, s') ∧ ChosenGroup sb s.view inode g := by
  unfold findGroup ChosenGroup
  by_cases hempty : inode.blockCnt = 0
  · simp only [if_pos hempty]
    obtain ⟨g, s', hok, _, hleast⟩ := findGroupMin_ok freeBlockCnt_lt (Nat.zero_lt_of_lt hg) s
    exact ⟨g, s', hok, hleast⟩
  · have hfirst := hhole.resolve_left hempty
    have hi := hblocks hfirst
    obtain ⟨g', hnext⟩ := exists_nextFree hi hg hspace
    have hnext' := hnext
    obtain ⟨k, hk, rfl, hfree, hfull⟩ := hnext'
    have hcnt : sb.groupCnt ≤ maxBlock :=
      (Nat.le_mul_of_pos_right _ hl.blockPerGroup_pos).trans hl.blocks_le
    have hstart : (inode.blocks 0 / sb.blockPerGroup + 0) % sb.groupCnt =
        inode.blocks 0 / sb.blockPerGroup := Nat.mod_eq_of_lt hi
    obtain ⟨s', hrun⟩ := @findGroupNext_next _ _ _ _ hi hcnt hk hfree hfull k s 0 (sb.groupCnt + 1) rfl
      (Nat.zero_add k) (by omega)
    rw [hstart] at hrun
    simp only [if_neg hempty, if_neg hfirst, if_neg hl.blockPerGroup_pos.ne']
    exact ⟨_, s', hrun, hfirst, hnext⟩

theorem setBlockBitmap_total {s1 : PageCache} {info : InfoDescriptor} {n : Nat}
    (hgroup : findGroup sb inode s = .ok (g, s1)) (hinfo : sb.desc[g]? = some info) (hn : n < blockSize)
    (hclear : bit (s.view (bitmapNo info)) n = false) :
    ∃ bid s', setBlockBitmap sb inode s = .ok (bid, s') := by
  have hdesc : sb.descAt g = .ok info := by
    rw [Ext2SbInfo.descAt, hinfo]
  obtain ⟨s2, hread, h2, hvalid2⟩ := ext2BlockRead_ok s1 info.blockBitmapAddr
  have hdata : s2.data (ext2Block2Lba info.blockBitmapAddr) = s.view (bitmapNo info) := by
    rw [hvalid2.data_eq, h2.view, (findGroup_spec hgroup).1.view]
    rfl
  rw [setBlockBitmap, hgroup, ok_bind]
  dsimp only
  rw [hdesc, ok_bind, hread, ok_bind]
  dsimp only
  rw [hdata]
  cases hset : setNextZeroBit (s.view (bitmapNo info)) (blockSize / 8) with
  | none =>
    rw [setNextZeroBit_none hset hn] at hclear
    cases hclear
  | some r =>
    obtain ⟨bit, map⟩ := r
    have h3 := setData_becomes hvalid2 map
    obtain ⟨s4, hgd, h4, hvalid4⟩ := getRawGd_ok (s2.setData (ext2Block2Lba info.blockBitmapAddr) map) g
    dsimp only
    rw [hgd, ok_bind]
    dsimp only
    have h5 := setData_becomes hvalid4 (setFreeBlockCnt (s4.data (gdNo g)) (descriptorOffset g)
      (freeBlockCnt (s4.data (gdNo g)) (descriptorOffset g) + 2 ^ 16 - 1))
    obtain ⟨s6, hmark6, h6⟩ := markPageDirty_ok (h5.valid _ hvalid4)
    obtain ⟨s7, hmark7, _⟩ :=
      markPageDirty_ok (h6.valid _ (h5.valid _ (h4.valid _ (h3.valid _ hvalid2))))
    rw [hmark6, ok_bind, hmark7, ok_bind]
    exact ⟨_, _, rfl⟩

/-- A block is free before it was taken, and used afterwards, only if its bit is one of its group. -/
theorem lt_blockPerGroup_of_taken {info : InfoDescriptor} {n : Nat} (hl : sb.Layout)
    (hg : sb.desc[g]? = some info) (hn : n < blockSize)
    (hfree : ¬ Used sb v ((n + g * sb.blockPerGroup) % 2 ^ 32))
    (hused : Used sb (taken v info g n) ((n + g * sb.blockPerGroup) % 2 ^ 32)) :
    n < sb.blockPerGroup := by
  by_contra hge
  have hge' := Nat.not_lt.1 hge
  have hle : n + g * sb.blockPerGroup < 2 ^ 32 := by
    have hgroups := Nat.mul_le_mul_right sb.blockPerGroup (lt_groupCnt hg).le
    have hmax := hl.blocks_le
    unfold maxBlock at hmax
    unfold blockSize at hn
    omega
  rw [Nat.mod_eq_of_lt hle] at hfree hused
  obtain ⟨info', hinfo', hbit⟩ := hused
  have hother : (n + g * sb.blockPerGroup) / sb.blockPerGroup ≠ g := by
    rw [Nat.add_mul_div_right _ _ hl.blockPerGroup_pos]
    have := Nat.div_pos hge' hl.blockPerGroup_pos
    omega
  rw [taken_bitmapNo hl hg hinfo', if_neg hother] at hbit
  exact hfree ⟨info', hinfo', hbit⟩

/-- In a file system with free blocks, one is found exactly when the group that is chosen has one among
the blocks that are looked at. -/
theorem setBlockBitmap_found_iff (hl : sb.Layout)
    (hspace : ∃ g < sb.groupCnt, groupFree s.view g ≠ 0)
    (hblocks : inode.blocks 0 ≠ 0 → inode.blocks 0 / sb.blockPerGroup < sb.groupCnt) :
    (∃ bid s', setBlockBitmap sb inode s = .ok (bid, s') ∧ ¬ Used sb s.view bid ∧ Used sb s'.view bid) ↔
      ∃ (g : Nat) (info : InfoDescriptor) (n : Nat), ChosenGroup sb s.view inode g ∧
        sb.desc[g]? = some info ∧ n < sb.blockPerGroup ∧ n < blockSize ∧
        bit (s.view (bitmapNo info)) n = false := by
  obtain ⟨g0, hg0, hfree0⟩ := hspace
  constructor
  · rintro ⟨bid, s', hok, hfree, hused⟩
    obtain ⟨g, info, n, ⟨s1, hgroup⟩, hg, hn, hclear, _, rfl, hbecomes⟩ := setBlockBitmap_spec hok
    rw [hbecomes.view] at hused
    have hlt := lt_blockPerGroup_of_taken hl hg hn hfree hused
    have hhole : inode.blockCnt = 0 ∨ inode.blocks 0 ≠ 0 := by
      by_contra hno
      push Not at hno
      rw [findGroup, if_neg hno.1, hno.2] at hgroup
      cases hgroup
    obtain ⟨g', s2, hgroup', hchosen⟩ := findGroup_chosen hl hg0 hfree0 hblocks hhole
    cases hgroup.symm.trans hgroup'
    exact ⟨g, info, n, hchosen, hg, hlt, hn, hclear⟩
  · rintro ⟨g, info, n, hchosen, hg, hlt, hn, hclear⟩
    have hhole : inode.blockCnt = 0 ∨ inode.blocks 0 ≠ 0 := by
      unfold ChosenGroup at hchosen
      split at hchosen
      · exact Or.inl ‹_›
      · exact Or.inr hchosen.1
    obtain ⟨g', s1, hgroup, hchosen'⟩ := findGroup_chosen hl hg0 hfree0 hblocks hhole
    obtain rfl := hchosen.unique hchosen'
    obtain ⟨bid, s', hok⟩ := setBlockBitmap_total hgroup hg hn hclear
    obtain ⟨g', info', n', ⟨s2, hgroup'⟩, hg', hn', hclear', hbelow, rfl, hbecomes⟩ :=
      setBlockBitmap_spec hok
    cases hgroup.symm.trans hgroup'
    cases hg.symm.trans hg'
    -- The bit that is found is the first clear one.
    have hfirst : n' ≤ n := by
      by_contra hgt
      rw [hbelow n (Nat.not_le.1 hgt)] at hclear
      cases hclear
    have hlt' := lt_of_le_of_lt hfirst hlt
    have hblock := (hl.block_lt (lt_groupCnt hg) hlt').trans (by decide : maxBlock < 2 ^ 32)
    refine ⟨_, s', hok, ?_, ?_⟩
    · rw [Nat.mod_eq_of_lt hblock]
      exact not_used_of_clear hl hg hlt' hclear'
    · rw [hbecomes.view, Nat.mod_eq_of_lt hblock]
      exact (used_taken_iff hl hg hlt' _).2 (Or.inr rfl)

/-- An empty file gets a block of the group with four free blocks. -/
theorem setBlockBitmap_found_tiny : ∃ bid s', setBlockBitmap tinySb emptyFile tinyCache = .ok (bid, s') ∧
    ¬ Used tinySb tinyCache.view bid ∧ Used tinySb s'.view bid := by
  have hleast : ∀ g < 2, groupFree tinyCache.view 1 ≤ groupFree tinyCache.view g := by decide +kernel
  have hfirst : ∀ g < 1, groupFree tinyCache.view 1 < groupFree tinyCache.view g := by decide +kernel
  refine (setBlockBitmap_found_iff tinySb_layout ⟨1, by decide, by decide +kernel⟩ ?_).2
    ⟨1, ⟨3⟩, 12, ⟨by decide, hleast, hfirst⟩, rfl, by decide, by decide, by decide +kernel⟩
  exact fun hne => absurd rfl hne

def fullCache : PageCache where
  disk no :=
    if no = 8 then setFreeBlockCnt (fun _ => 0) 32 4
    else if no = 16 then fun _ => 0xff
    else if no = 24 then tinyBitmap 0xff 0x0f
    else fun _ => 0
  bufs _ := none
  memory _ _ := 0xaa

/-- For an empty file the full group is chosen. -/
theorem fullCache_not_found : tinySb.Layout ∧
    (∀ (g : Nat) info, tinySb.desc[g]? = some info →
      groupFree fullCache.view g = clearCount (fullCache.view (bitmapNo info)) tinySb.blockPerGroup) ∧
    groupFree fullCache.view 1 ≠ 0 ∧ emptyFile.blocks 0 = 0 ∧
    setBlockBitmap tinySb emptyFile fullCache = .error .error := by
  have hrun : faults (setBlockBitmap tinySb emptyFile fullCache) .error = true := by decide +kernel
  refine ⟨tinySb_layout, ?_, by decide +kernel, rfl, eq_error_of_faults hrun⟩
  intro g info hg
  rcases tinySb_desc hg with ⟨rfl, rfl⟩ | ⟨rfl, rfl⟩ <;> decide +kernel

end QuarkOS
