import QuarkOS.Fs.Contents

/-!
# Reads at the end of a file and in holes

`ext2_read` checks the end of the file for a block, not for a byte, and returns nothing for a hole, which
makes `vfs_read` stop. So a read returns the bytes up to the end of the file exactly when it meets no hole
and does not go on in the last block. `alloc_block` clears a block only when it hangs behind the direct
blocks; a direct block shows what its page in memory happens to hold.

A run carries the set of the bytes that were written so far. While new direct blocks come with zeros, a
byte outside this set reads as 0.
-/

namespace QuarkOS

open Bytes PageCache Function

variable {sb : Ext2SbInfo} {R : Set Nat} {files : Nat → Option Inode} {s s' : PageCache}
  {inode node : Inode} {fs fs' fs0 : Fs} {fd n : Nat} {buf : List Byte} {W W0 : Set (Nat × Nat)}

theorem writePage_zero {bno page : Nat} {inode1 : Inode} {s1 : PageCache} (hwf : FsWf sb R files s.view)
    (hfile : files fd = some inode) (hnew : nextFreeBno inode ≤ bno) (hle : nDirectBlock ≤ bno)
    (h : writePage sb inode bno s = .ok (page, inode1, s1)) (j : Nat) : s1.data page j = 0 := by
  rw [writePage, if_neg (Nat.not_lt.2 hnew)] at h
  obtain ⟨⟨bid, inode', s'⟩, halloc, hret⟩ := bind_eq_ok h
  obtain ⟨hlt, hleaf⟩ := allocBlock_ok_empty halloc
  obtain ⟨_, _, _, _, _, hzero⟩ := (allocBlock_defined hwf hfile hlt fun _ => hleaf).2 _ halloc
  obtain ⟨hvalid, hzero⟩ := hzero hle
  obtain ⟨s2, hget, hs2, _⟩ := ext2BlockGet_ok s' bid
  dsimp only at hret
  rw [hget, ok_bind] at hret
  cases hret
  rw [(hs2.valid _ hvalid).data_eq, hs2.view, hzero]

/-- The bytes that the next `k` bytes of a write to the file go to. -/
def written (fs : Fs) (fd k : Nat) : Set (Nat × Nat) :=
  {q | q.1 = fd ∧ ∃ node, fs.files fd = some node ∧ node.offset ≤ q.2 ∧ q.2 < node.offset + k}

/-- States reached from `fs0` by seeks, reads and rounds of `vfs_write` that meet a condition, with the
bytes of the files that were written, those of `W0` at the start. -/
inductive WrittenRun (C : Fs → Nat → List Byte → Prop) (fs0 : Fs) (W0 : Set (Nat × Nat)) :
    Fs → Set (Nat × Nat) → Prop
  | start : WrittenRun C fs0 W0 fs0 W0
  | lseek {fs fs' : Fs} {W : Set (Nat × Nat)} {fd : Nat} {offset r : Int} {whence : Fs.SeekWhence}
      (hrun : WrittenRun C fs0 W0 fs W) (hseek : fs.vfsLseek fd offset whence = .ok (r, fs')) :
      WrittenRun C fs0 W0 fs' W
  | read {fs fs' : Fs} {W : Set (Nat × Nat)} {fd n : Nat} {bytes : List Byte}
      (hrun : WrittenRun C fs0 W0 fs W) (hread : fs.vfsRead fd n = .ok (bytes, fs')) :
      WrittenRun C fs0 W0 fs' W
  | write {fs fs' : Fs} {W : Set (Nat × Nat)} {fd wtSize : Nat} {buf : List Byte}
      (hrun : WrittenRun C fs0 W0 fs W) (hcond : C fs fd buf)
      (hwrite : fs.vfsWriteRound fd buf = .ok (wtSize, fs')) :
      WrittenRun C fs0 W0 fs' (W ∪ written fs fd wtSize)

/-- The block that `set_block_bitmap` takes: the first one that is free in the group that is found. -/
def NextBlock (sb : Ext2SbInfo) (v : Nat → Area) (inode : Inode) (bid : Nat) : Prop :=
  ∃ (g : Nat) (info : InfoDescriptor) (n : Nat), FoundGroup sb v inode g ∧ sb.desc[g]? = some info ∧
    n < blockSize ∧ bit (v (bitmapNo info)) n = false ∧ (∀ m < n, bit (v (bitmapNo info)) m = true) ∧
    bid = (n + g * sb.blockPerGroup) % 2 ^ 32

/-- A write does not start in a hole below the size, and the page of a direct block that it adds holds
zeros where it does not write. -/
def ZeroFilled (fs : Fs) (fd : Nat) (buf : List Byte) : Prop :=
  ∀ node, fs.files fd = some node →
    (node.offset / blockSize < nextFreeBno node →
      bidOf fs.cache.view node (node.offset / blockSize) ≠ 0) ∧
    (nextFreeBno node ≤ node.offset / blockSize → node.offset / blockSize < nDirectBlock →
      ∀ bid, NextBlock fs.sb fs.cache.view node bid → ∀ p, p / blockSize = node.offset / blockSize →
        p < node.offset ∨ node.offset + chunk node.offset buf ≤ p →
          fs.cache.data (ext2Block2Lba bid) (p % blockSize) = 0)

section Frame

variable {no : Nat}

theorem ext2BlockRead_data {b page : Nat} (h : ext2BlockRead s b = .ok (page, s'))
    (hne : no ≠ ext2Block2Lba b) : page = ext2Block2Lba b ∧ s'.data no = s.data no := by
  obtain ⟨s1, hread, hret⟩ := bind_eq_ok h
  cases hret
  exact ⟨rfl, pageReadNo_data hne hread⟩

theorem getRawGd_data {g page off : Nat} (h : getRawGd s g = .ok (page, off, s')) (hne : no ≠ gdNo g) :
    page = gdNo g ∧ s'.data no = s.data no := by
  obtain ⟨⟨_, s1⟩, hread, hret⟩ := bind_eq_ok h
  cases hret
  exact ext2BlockRead_data hread hne

variable {count : Area → Nat → Nat} {cnt g : Nat} (hno : ∀ g < cnt, no ≠ gdNo g)
include hno

theorem findGroupMin_data {fuel i min : Nat} {groupNo : Option Nat} (hle : i + fuel ≤ cnt)
    (h : findGroupMin count s fuel i min groupNo = .ok (g, s')) : s'.data no = s.data no := by
  induction fuel generalizing s i min groupNo with
  | zero =>
    cases groupNo with
    | none => cases h
    | some g =>
      cases h
      rfl
  | succ fuel ih =>
    rw [findGroupMin] at h
    obtain ⟨⟨_, _, s1⟩, hgd, h⟩ := bind_eq_ok h
    rw [← (getRawGd_data hgd (hno i (by omega))).2]
    dsimp only at h
    split at h
    · exact ih (by omega) h
    · exact ih (by omega) h

theorem findGroupNext_data {fuel i groupNo : Nat} (hlt : groupNo < cnt)
    (h : findGroupNext count s cnt i fuel groupNo = .ok (g, s')) : s'.data no = s.data no := by
  induction fuel generalizing s groupNo with
  | zero => cases h
  | succ fuel ih =>
    rw [findGroupNext] at h
    obtain ⟨⟨_, _, s1⟩, hgd, h⟩ := bind_eq_ok h
    rw [← (getRawGd_data hgd (hno groupNo hlt)).2]
    dsimp only at h
    split at h
    · cases h
      rfl
    · split at h
      · cases h
      · split at h
        · exact ih (Nat.mod_lt _ (Nat.zero_lt_of_lt hlt)) h
        · cases h
          rfl

end Frame

/-- `set_block_bitmap` reads and writes the pages of the bitmaps and of the descriptors only. -/
theorem setBlockBitmap_data {bid no : Nat} (hmeta : ¬ MetaPage sb no)
    (hfirst : inode.blocks 0 ≠ 0 → inode.blocks 0 / sb.blockPerGroup < sb.groupCnt)
    (h : setBlockBitmap sb inode s = .ok (bid, s')) : s'.data no = s.data no := by
  have hno : ∀ g < sb.groupCnt, no ≠ gdNo g := fun g hg heq => hmeta (Or.inr ⟨g, hg, heq⟩)
  obtain ⟨⟨g, s1⟩, hgroup, h⟩ := bind_eq_ok h
  obtain ⟨info, hinfo, h⟩ := bind_eq_ok h
  obtain ⟨⟨_, s2⟩, hread, h⟩ := bind_eq_ok h
  have hg := descAt_eq_ok hinfo
  have hmap : no ≠ ext2Block2Lba info.blockBitmapAddr := fun heq => hmeta (Or.inl ⟨g, info, hg, heq⟩)
  have h1 : s1.data no = s.data no := by
    unfold findGroup at hgroup
    split at hgroup
    · exact findGroupMin_data hno (Nat.zero_add _).le hgroup
    · dsimp only at hgroup
      split at hgroup
      · cases hgroup
      · split at hgroup
        · cases hgroup
        · exact findGroupNext_data hno (hfirst ‹_›) hgroup
  obtain ⟨rfl, h2⟩ := ext2BlockRead_data hread hmap
  dsimp only at h
  split at h
  · cases h
  · simp only [bind_ok_iff, Prod.exists] at h
    obtain ⟨page, off, s4, hgd, s6, hdirty, s7, hdirty', hret⟩ := h
    obtain ⟨rfl, h4⟩ := getRawGd_data hgd (hno g (lt_groupCnt hg))
    cases hret
    rw [markPageDirty_data hmap hdirty', markPageDirty_data (hno g (lt_groupCnt hg)) hdirty,
      setData_data (hno g (lt_groupCnt hg)), h4, setData_data hmap, h2, h1]

/-- The page of a direct block that a write adds keeps what its memory held. -/
theorem writePage_direct {bno page : Nat} {inode1 : Inode} {s1 : PageCache}
    (hwf : FsWf sb R files s.view) (hfile : files fd = some inode) (hnew : nextFreeBno inode ≤ bno)
    (hlt : bno < nDirectBlock) (h : writePage sb inode bno s = .ok (page, inode1, s1)) :
    ∃ bid, NextBlock sb s.view inode bid ∧ page = ext2Block2Lba bid ∧ s1.data page = s.data page := by
  rw [writePage, if_neg (Nat.not_lt.2 hnew), allocBlock, if_pos hlt] at h
  obtain ⟨_, halloc, hret⟩ := bind_eq_ok h
  obtain ⟨_, _, halloc⟩ := bind_eq_ok halloc
  obtain ⟨⟨bid, s'⟩, hset, halloc⟩ := bind_eq_ok halloc
  cases halloc
  obtain ⟨⟨_, s2⟩, hget, hret⟩ := bind_eq_ok hret
  obtain ⟨_, hget, hret'⟩ := bind_eq_ok hget
  cases hret'
  cases hret
  obtain ⟨g, info, n, ⟨_, hgroup⟩, hg, hn, hclear, hbelow, hbid, _⟩ := setBlockBitmap_spec hset
  refine ⟨bid, ⟨g, info, n, (findGroup_spec hgroup).2, hg, hn, hclear, hbelow, hbid⟩, rfl, ?_⟩
  obtain ⟨_, hget', _, hdata, _⟩ := pageGet_ok (s := s') (ext2Block2Lba_and_seven bid)
  cases hget.symm.trans hget'
  rw [hdata]
  obtain ⟨_, _, _, hg', hn', _, hclear', rfl, _⟩ := setBlockBitmap_taken hwf.layout hwf.padded hset
  refine setBlockBitmap_data (fun hmeta => ?_) (fun hne => ?_) hset
  · exact not_used_of_clear hwf.layout hg' hn' hclear'
      (hwf.metaPage_used _ (hwf.layout.block_lt (lt_groupCnt hg') hn') hmeta)
  · obtain ⟨_, hinfo, _⟩ := hwf.blocks_used hfile (by decide) hne
    exact lt_groupCnt hinfo

/-- Every byte of a file that was not written is 0 or lies in a hole. -/
structure Tracked (R : Set Nat) (fs : Fs) (W : Set (Nat × Nat)) : Prop where
  wf : fs.Wf R
  lt : ∀ fd node, fs.files fd = some node → node.size < 2 ^ 32 ∧ node.offset < 2 ^ 32
  zero : ∀ fd node p b, fs.files fd = some node → p < 2 ^ 32 → (fd, p) ∉ W →
    byteOf fs.cache.view node p = some b → b = 0

section

variable (h : Tracked R fs W)
include h

theorem Tracked.seek {o : Nat} (hfile : fs.files fd = some node) (ho : o < 2 ^ 32)
    (hview : s'.view = fs.cache.view) :
    Tracked R ({ fs with cache := s' }.setFile fd { node with offset := o }) W := by
  have hcases : ∀ f file, update fs.files fd (some { node with offset := o }) f = some file →
      ∃ old, fs.files f = some old ∧ file.size = old.size ∧ file.blocks = old.blocks ∧
        file.offset < 2 ^ 32 := by
    intro f file hf
    by_cases hfd : f = fd
    · subst hfd
      rw [update_self] at hf
      cases hf
      exact ⟨node, hfile, rfl, rfl, ho⟩
    · rw [update_of_ne hfd] at hf
      exact ⟨file, hf, rfl, rfl, (h.lt f file hf).2⟩
  constructor
  · have hwf : ({ fs with cache := s' } : Fs).Wf R := by
      rw [Fs.Wf, hview]
      exact h.wf
    exact hwf.setFile hfile rfl
  · intro f file hf
    obtain ⟨old, hold, hsize, _, hlt⟩ := hcases f file hf
    exact ⟨hsize ▸ (h.lt f old hold).1, hlt⟩
  · intro f file p b hf hp hW hb
    obtain ⟨old, hold, _, hblocks, _⟩ := hcases f file hf
    have hbyte : byteOf s'.view file p = byteOf fs.cache.view old p := by
      rw [hview]
      unfold byteOf bidOf
      rw [hblocks]
    exact h.zero f old p b hold hp hW (hbyte.symm.trans hb)

theorem Tracked.lseek {offset r : Int} {whence : Fs.SeekWhence}
    (hseek : fs.vfsLseek fd offset whence = .ok (r, fs')) : Tracked R fs' W := by
  obtain ⟨found, hfound, hseek⟩ := bind_eq_ok hseek
  cases found with
  | none =>
    cases hseek
    exact h
  | some node =>
    dsimp only at hseek
    split at hseek
    · cases hseek
      exact h
    · rename_i pos hpos
      rw [← (Prod.mk.inj (Except.ok.inj hseek)).2]
      exact h.seek (getInode_ok hfound).2 (seekTo_lt hpos) rfl

theorem Tracked.read {bytes : List Byte}
    (hread : fs.vfsRead fd n = .ok (bytes, fs')) : Tracked R fs' W := by
  obtain ⟨found, hfound, hread⟩ := bind_eq_ok hread
  cases found with
  | none =>
    cases hread
    exact h
  | some node =>
    have hfile := (getInode_ok hfound).2
    obtain ⟨hsize, hoffset⟩ := h.lt fd node hfile
    obtain ⟨bytes1, node1, s1, hloop, hloopRead⟩ := vfsReadLoop_readable (s := fs.cache) (n := n)
      Nat.le.refl (Nat.zero_le n) hsize hoffset nofun
    obtain ⟨o, ho, rfl⟩ := hloopRead.seek
    dsimp only at hread
    rw [hloop, ok_bind] at hread
    cases hread
    exact h.seek hfile ho hloopRead.view

theorem Tracked.mono {W' : Set (Nat × Nat)} (hsub : W ⊆ W') : Tracked R fs W' where
  wf := h.wf
  lt := h.lt
  zero := fun f file p b hf hp hW => h.zero f file p b hf hp fun hmem => hW (hsub hmem)

/-- A round of a write: the bytes of other files and other blocks stay, those of a block that was there
too, and a new block holds zeros. -/
theorem Tracked.write {wtSize : Nat} (hcond : ZeroFilled fs fd buf)
    (hwrite : fs.vfsWriteRound fd buf = .ok (wtSize, fs')) :
    Tracked R fs' (W ∪ written fs fd wtSize) := by
  obtain ⟨found, hfound, hwrite⟩ := bind_eq_ok hwrite
  cases found with
  | none =>
    cases hwrite
    exact h.mono Set.subset_union_left
  | some node =>
    have hfile := (getInode_ok hfound).2
    obtain ⟨hpresent, hzero⟩ := hcond node hfile
    obtain ⟨⟨k, node', s'⟩, hround, hret⟩ := bind_eq_ok hwrite
    cases hret
    obtain ⟨rfl, _, page, node1, s1, hpage, hstored⟩ :=
      (writeRound_defined h.wf hfile (Fits.of_ok hpresent hround)).2 _ hround
    dsimp only at hstored
    have hself : ({ fs with cache := s' }.setFile fd node').files fd = some node' :=
      update_self ..
    have hother : ∀ f ≠ fd, ({ fs with cache := s' }.setFile fd node').files f = fs.files f :=
      fun f hf => update_of_ne hf ..
    constructor
    · exact hstored.wf
    · intro f file hf
      by_cases hfd : f = fd
      · subst hfd
        cases hself.symm.trans hf
        exact writeRound_lt hround
      · exact h.lt f file ((hother f hfd).symm.trans hf)
    · intro f file p b hf hp hW hb
      rw [Set.mem_union, not_or] at hW
      have hlt := div_blockSize_lt hp
      by_cases hfd : f = fd
      · subst hfd
        cases hself.symm.trans hf
        by_cases hblock : p / blockSize = node.offset / blockSize
        · have hout : p < node.offset ∨ node.offset + chunk node.offset buf ≤ p := by
            by_contra hin
            exact hW.2 ⟨rfl, node, hfile, by dsimp only; omega, by dsimp only; omega⟩
          by_cases hbelow : node.offset / blockSize < nextFreeBno node
          · apply h.zero f node p b hfile hp hW.1
            rw [← hb]
            exact (hstored.byteOf_present hfile (hpresent hbelow) hblock hout).symm
          · have hnew := Nat.not_lt.1 hbelow
            have hbyte := Option.some.inj ((hstored.byteOf_outside hblock hout).symm.trans hb)
            rw [← hbyte]
            by_cases hdirect : node.offset / blockSize < nDirectBlock
            · obtain ⟨bid, hnext, rfl, hdata⟩ := writePage_direct h.wf hfile hnew hdirect hpage
              rw [hdata]
              exact hzero hnew hdirect bid hnext p hblock hout
            · exact writePage_zero h.wf hfile hnew (Nat.not_lt.1 hdirect) hpage _
        · apply h.zero f node p b hfile hp hW.1
          rw [← hb]
          refine (hstored.byteOf_eq hfile (update_self ..) hlt fun heq => ?_).symm
          exact hblock (blockPath_inj
            (Prod.ext (Prod.mk.inj (Prod.mk.inj heq).1).2 (Prod.mk.inj heq).2))
      · have hold : fs.files f = some file := (hother f hfd).symm.trans hf
        apply h.zero f file p b hold hp hW.1
        rw [← hb]
        refine (hstored.byteOf_eq hold hf hlt fun heq => ?_).symm
        exact hfd (Prod.mk.inj (Prod.mk.inj heq).1).1

end

theorem WrittenRun.tracked (hstart : Tracked R fs0 W0) (hrun : WrittenRun ZeroFilled fs0 W0 fs W) :
    Tracked R fs W := by
  induction hrun with
  | start => exact hstart
  | lseek _ hseek ih => exact ih.lseek hseek
  | read _ hread ih => exact ih.read hread
  | write _ hcond hwrite ih => exact ih.write hcond hwrite

/-- A read of `n` bytes returns those up to the end of the file, and 0 where nothing was written. -/
def ReadsExactly (fs : Fs) (W : Set (Nat × Nat)) (fd : Nat) (node : Inode) (n : Nat) : Prop :=
  ∃ bytes fs', fs.vfsRead fd n = .ok (bytes, fs') ∧ bytes.length = min n (node.size - node.offset) ∧
    ∀ i b, bytes[i]? = some b → (fd, node.offset + i) ∉ W → b = 0

/-- A read of `n` bytes meets no hole, and where it reaches the end of the file no block goes on there. -/
structure StopsAtEnd (v : Nat → Area) (node : Inode) (n : Nat) : Prop where
  mapped : ∀ p, node.offset ≤ p → p < node.offset + n → p < node.size → bidOf v node (p / blockSize) ≠ 0
  last : max node.offset node.size < node.offset + n → ¬ Readable v node (max node.offset node.size)

theorem readable_iff {p : Nat} (hsize : node.size < 2 ^ 32) (hp : p < node.size) :
    Readable s.view node p ↔ bidOf s.view node (p / blockSize) ≠ 0 := by
  refine and_iff_right ?_
  rw [divCeil_eq hsize]
  unfold blockSize
  omega

/-- The number of bytes of a read is that of the bytes in front of the end exactly when the read stops
there. -/
theorem length_vfsReadLoop_iff {bytes : List Byte} {node' : Inode} (hsize : node.size < 2 ^ 32)
    (hoffset : node.offset < 2 ^ 32) (h : Fs.vfsReadLoop n n node s = .ok (bytes, node', s')) :
    bytes.length = min n (node.size - node.offset) ↔ StopsAtEnd s.view node n := by
  have hread : ∀ m ≤ n, (∀ i < m, Readable s.view node (node.offset + i)) →
      LoopRead s node n m bytes node' s' := by
    intro m hm hall
    obtain ⟨_, _, _, hloop, hread⟩ := vfsReadLoop_readable Nat.le.refl hm hsize hoffset hall
    cases h.symm.trans hloop
    exact hread
  constructor
  · intro hlen
    have hall : ∀ i < min n (node.size - node.offset), Readable s.view node (node.offset + i) := by
      -- Up to the first byte that cannot be read.
      intro i
      induction i using Nat.strong_induction_on with
      | _ i ih =>
        intro hi
        by_contra hnot
        have hstop := (hread i (by omega) fun j hj => ih j hj (by omega)).stop
          (Or.inr ⟨by omega, hnot⟩)
        omega
    constructor
    · intro p hle hlt hp
      have := hall (p - node.offset) (by omega)
      rw [Nat.add_sub_of_le hle] at this
      exact this.2
    · intro hlt hlast
      have hend : node.offset + min n (node.size - node.offset) = max node.offset node.size := by
        omega
      have hmore := (hread (min n (node.size - node.offset) + 1) (by omega) (by
        intro i hi
        rcases Nat.lt_succ_iff_lt_or_eq.1 hi with hi | rfl
        · exact hall i hi
        · rw [hend]
          exact hlast)).le
      omega
  · intro hstops
    refine (hread _ (Nat.min_le_left _ _) ?_).stop ?_
    · intro i hi
      refine (readable_iff hsize (by omega)).2 (hstops.mapped _ ?_ ?_ ?_)
      · omega
      · omega
      · omega
    · rcases Nat.lt_or_ge (node.size - node.offset) n with hlt | hge
      · right
        have hend : node.offset + min n (node.size - node.offset) = max node.offset node.size := by
          omega
        rw [hend]
        exact ⟨by omega, hstops.last (by omega)⟩
      · exact Or.inl (Nat.min_eq_left hge)

/-- After a run in which new direct blocks come with zeros, a read is what it should be exactly when it
meets no hole and does not go on behind the end of the file in its last block. -/
theorem readsExactly_iff (hstart : Tracked R fs0 W0) (hrun : WrittenRun ZeroFilled fs0 W0 fs W)
    (hnode : fs.getInode fd = .ok (some node)) (n : Nat) :
    ReadsExactly fs W fd node n ↔ StopsAtEnd fs.cache.view node n := by
  have htracked := hrun.tracked hstart
  have hfile := (getInode_ok hnode).2
  obtain ⟨hsize, hoffset⟩ := htracked.lt fd node hfile
  obtain ⟨bytes, node', s', hloop, _⟩ := vfsReadLoop_readable (s := fs.cache) (n := n) Nat.le.refl
    (Nat.zero_le n) hsize hoffset nofun
  have hiff := length_vfsReadLoop_iff hsize hoffset hloop
  have hread : fs.vfsRead fd n = .ok (bytes, { fs with cache := s' }.setFile fd node') := by
    rw [Fs.vfsRead, hnode, ok_bind]
    dsimp only
    rw [hloop, ok_bind]
  constructor
  · rintro ⟨bytes', fs', hread', hlen, _⟩
    cases hread.symm.trans hread'
    exact hiff.1 hlen
  · intro hstops
    have hlen := hiff.2 hstops
    refine ⟨bytes, _, hread, hlen, fun i b hb hW => ?_⟩
    have hi : i < min n (node.size - node.offset) := by
      rw [← hlen]
      exact (List.getElem?_eq_some_iff.1 hb).1
    obtain ⟨bytes1, node1, s1, hloop1, hread1⟩ := vfsReadLoop_readable (s := fs.cache) Nat.le.refl
      (Nat.min_le_left n (node.size - node.offset)) hsize hoffset (by
        intro i hi
        exact (readable_iff hsize (by omega)).2 (hstops.mapped _ (by omega) (by omega) (by omega)))
    cases hloop.symm.trans hloop1
    rw [hread1.byte i hi] at hb
    exact htracked.zero fd node _ b hfile (by omega) hW hb

theorem tinyFiles_eq (h : tinyFs.files fd = some node) : node = emptyFile := by
  have hfile : (if fd = 0 then some emptyFile else none) = some node := h
  split at hfile
  · exact (Option.some.inj hfile).symm
  · cases hfile

theorem tinyFs_tracked : Tracked {0} tinyFs ∅ where
  wf := tinyFs_wf
  lt := by
    intro fd node hfile
    rw [tinyFiles_eq hfile]
    decide
  zero := by
    intro fd node p b hfile hp _ hb
    have hzero := treeNode_leafPlace (v := tinyFs.cache.view) hfile (div_blockSize_lt hp)
    rw [byteOf, if_pos (hzero.symm.trans (treeNode_tinyFiles _))] at hb
    cases hb

/-- A whole block, read from its first byte on. -/
theorem readsExactly_iff_tinyFs : ∃ fs W node, WrittenRun ZeroFilled tinyFs ∅ fs W ∧
    fs.getInode 0 = .ok (some node) ∧ node.offset = 0 ∧ node.size = 4096 ∧
      ReadsExactly fs W 0 node 5000 := by
  obtain ⟨_, hok⟩ := exists_ok (x := do
      let a ← tinyFs.vfsWriteRound 0 (List.replicate 4096 0x41)
      let b ← a.2.vfsLseek 0 0 .set
      let node ← b.2.getInode 0
      assertk (node.any fun node : Inode => decide (node.offset = 0 ∧ node.size = 4096 ∧
        bidOf b.2.cache.view node 0 ≠ 0)))
    (by decide +kernel)
  simp only [bind_ok_iff] at hok
  obtain ⟨a, ha, b, hb, found, hfound, hok⟩ := hok
  cases found with
  | none => cases assertk_eq_ok hok
  | some node =>
    obtain ⟨hoffset, hsize, hne⟩ := of_assertk hok
    have hfilled : ZeroFilled tinyFs 0 (List.replicate 4096 0x41) := by
      intro node hfile
      rw [tinyFiles_eq hfile]
      refine ⟨fun h => absurd h (by decide), fun _ _ bid _ p hblock hout => ?_⟩
      rw [chunk, List.length_replicate] at hout
      unfold blockSize at hblock hout
      dsimp only [emptyFile] at hblock hout
      omega
    have hreached : WrittenRun ZeroFilled tinyFs ∅ b.2 _ :=
      (WrittenRun.start.write hfilled ha).lseek hb
    refine ⟨b.2, _, node, hreached, hfound, hoffset, hsize, ?_⟩
    refine (readsExactly_iff tinyFs_tracked hreached hfound 5000).2 ⟨?_, ?_⟩
    · intro p _ _ hp
      rw [hsize] at hp
      rw [show p / blockSize = 0 from Nat.div_eq_of_lt hp]
      exact hne
    · intro _ hlast
      have := hlast.1
      rw [hoffset, hsize] at this
      exact absurd this (by decide)

/-- One byte at 0, then a read of two bytes from 0: it returns two, and the second is not 0. -/
theorem oneByte_not_readsExactly : ∃ fs W node fs', WrittenRun (fun _ _ _ => True) tinyFs ∅ fs W ∧
    fs.getInode 0 = .ok (some node) ∧ node.offset = 0 ∧ node.size = 1 ∧
      fs.vfsRead 0 2 = .ok ([0x41, 0xaa], fs') ∧ ¬ ReadsExactly fs W 0 node 2 := by
  obtain ⟨_, hok⟩ := exists_ok (x := do
      let a ← tinyFs.vfsWriteRound 0 [0x41]
      let b ← a.2.vfsLseek 0 0 .set
      let node ← b.2.getInode 0
      let c ← b.2.vfsRead 0 2
      assertk (node.any fun node : Inode => decide (node.offset = 0 ∧ node.size = 1 ∧
        c.1 = [0x41, 0xaa])))
    (by decide +kernel)
  obtain ⟨a, ha, hok⟩ := bind_eq_ok hok
  obtain ⟨b, hb, hok⟩ := bind_eq_ok hok
  obtain ⟨found, hfound, hok⟩ := bind_eq_ok hok
  obtain ⟨⟨bytes, fs'⟩, hc, hok⟩ := bind_eq_ok hok
  cases found with
  | none => cases assertk_eq_ok hok
  | some node =>
    obtain ⟨hoffset, hsize, rfl⟩ := of_assertk hok
    have hreached : WrittenRun (fun _ _ _ => True) tinyFs ∅ b.2 _ :=
      (WrittenRun.start.write trivial ha).lseek hb
    refine ⟨b.2, _, node, fs', hreached, hfound, hoffset, hsize, hc, ?_⟩
    rintro ⟨bytes, fs'', hread, hlen, _⟩
    cases hc.symm.trans hread
    rw [hoffset, hsize] at hlen
    exact absurd hlen (by decide)

end QuarkOS
