import QuarkOS.Fs.Alloc

/-!
# Where a write goes

`ext2_write` decides by the size of the file whether a block is there. A seek past the end makes the size
say more than the block tree does: a block below the size may be a hole, which is then written to as
block 0. Where the two agree about the block of the offset (`Fits`), a write changes that one data block,
bitmaps, descriptors and pointer blocks of its own file.
-/

namespace QuarkOS

open Bytes PageCache Function

variable {sb : Ext2SbInfo} {R : Set Nat} {files : Nat → Option Inode} {s s' : PageCache}
  {inode inode' : Inode} {fd bno : Nat}

/-- The size of the file and its block tree say the same about a block. Below the direct blocks a block
past the end that is there makes the kernel stop. -/
structure Fits (v : Nat → Area) (inode : Inode) (bno : Nat) : Prop where
  present : bno < nextFreeBno inode → bidOf v inode bno ≠ 0
  absent : nDirectBlock ≤ bno → nextFreeBno inode ≤ bno → bidOf v inode bno = 0

/-- The page that a write to the block `bno` goes to, after the tree was grown for it. -/
structure Aimed (sb : Ext2SbInfo) (R : Set Nat) (fd bno : Nat) (files : Nat → Option Inode)
    (inode : Inode) (s : PageCache) (page : Nat) (inode' : Inode) (s' : PageCache) : Prop where
  same : SameFile inode inode'
  grown : Grown sb R (leafPlace fd bno) files s (update files fd (some inode')) s'
  lt_maxBno : bno < maxBno
  ne_zero : bidOf s'.view inode' bno ≠ 0
  page_eq : page = ext2Block2Lba (bidOf s'.view inode' bno)
  cached : ∃ buf, s'.bufs page = some buf
  old : bidOf s.view inode bno = 0 ∨ s'.Valid page ∧ s'.view = s.view

theorem ext2BlockGet_ok (s : PageCache) (bid : Nat) :
    ∃ s', ext2BlockGet s bid = .ok (ext2Block2Lba bid, s') ∧ Becomes s s' s.view ∧
      ∃ buf, s'.bufs (ext2Block2Lba bid) = some buf := by
  obtain ⟨s', hget, hbecomes, _, hbuf⟩ := pageGet_ok (s := s) (ext2Block2Lba_and_seven bid)
  rw [ext2BlockGet, hget]
  exact ⟨s', rfl, hbecomes, hbuf⟩

theorem Grown.read {target : (Nat × Nat) × List Nat} {files' : Nat → Option Inode} {s'' : PageCache}
    (h : Grown sb R target files s files' s') (hbecomes : Becomes s' s'' s'.view) :
    Grown sb R target files s files' s'' where
  wf := hbecomes.view ▸ h.wf
  valid := fun no hno => hbecomes.valid no (h.valid no hno)
  keep := hbecomes.view ▸ h.keep
  new := hbecomes.view ▸ h.new
  changed := hbecomes.view ▸ h.changed

theorem writePage_defined (hwf : FsWf sb R files s.view) (hfile : files fd = some inode)
    (hfits : Fits s.view inode bno) : Defined (writePage sb inode bno s) fun r =>
      Aimed sb R fd bno files inode s r.1 r.2.1 r.2.2 := by
  unfold writePage
  split
  · rename_i hbelow
    rcases Nat.lt_or_ge bno maxBno with hlt | hge
    · obtain ⟨s1, hbid, hs1⟩ := getBid_ok hlt inode s
      obtain ⟨s2, hread, hs2, hvalid⟩ := ext2BlockRead_ok s1 (bidOf s.view inode bno)
      rw [hs1.view] at hs2
      have hbecomes := hs1.trans hs2
      rw [hbid, ok_bind]
      dsimp only
      rw [hread, ok_bind]
      have hfiles : update files fd (some inode) = files :=
        update_eq_self_iff.2 hfile.symm
      obtain ⟨buf, hbuf, hself⟩ := hvalid
      apply Defined.ok
      refine ⟨.refl inode, ?_, hlt, ?_, ?_, ⟨buf, hbuf⟩, Or.inr ⟨⟨buf, hbuf, hself⟩, hbecomes.view⟩⟩
      · rw [hfiles]
        exact (Grown.refl hwf).read hbecomes
      · rw [hbecomes.view]
        exact hfits.present hbelow
      · rw [hbecomes.view]
    · rw [getBid_error hge]
      exact .error (by decide)
  · rename_i habove
    rcases Nat.lt_or_ge bno maxBno with hlt | hge
    · refine .bind (allocBlock_defined hwf hfile hlt fun hle =>
        hfits.absent hle (Nat.not_lt.1 habove)) ?_
      rintro ⟨bid, inode', s1⟩ ⟨hsame, hgrown, hbid, hne, hempty, _⟩
      dsimp only at hsame hgrown hbid hne ⊢
      obtain ⟨s2, hget, hs2, hbuf⟩ := ext2BlockGet_ok s1 bid
      rw [hget, ok_bind]
      apply Defined.ok
      have hbid2 : bidOf s2.view inode' bno = bid := by rw [hs2.view, hbid]
      refine ⟨hsame, hgrown.read hs2, hlt, ?_, ?_, hbuf, Or.inl hempty⟩
      · rw [hbid2]
        exact hne
      · rw [hbid2]
    · rw [allocBlock_error hge]
      exact .error (by decide)

theorem Aimed.setPage {page : Nat} (h : Aimed sb R fd bno files inode s page inode' s') (a : Area) :
    FsWf sb R (update files fd (some inode')) (update s'.view page a) ∧
      ∀ p, TreePlace p → treeNode (update files fd (some inode'))
        (update s'.view page a) p =
          treeNode (update files fd (some inode')) s'.view p := by
  have hleaf := leafPlace_place (f := fd) h.lt_maxBno
  have hnode := treeNode_leafPlace (v := s'.view) (update_self fd (some inode') files)
    h.lt_maxBno
  have hne := h.ne_zero
  rw [h.page_eq]
  rw [← hnode] at hne ⊢
  apply h.grown.wf.setPage (h.grown.wf.lt_maxBlock hleaf hne) (h.grown.wf.metaPage _ hleaf hne)
  intro p hp hlen hpne heq
  have hpq := h.grown.wf.once p _ hp hleaf hpne heq
  rw [hpq, leafPlace_length h.lt_maxBno] at hlen
  exact Nat.lt_irrefl _ hlen

/-- How many bytes of a buffer go into the block of the offset. -/
def chunk (offset : Nat) (buf : List Byte) : Nat := min (blockSize - offset % blockSize) buf.length

/-- `ext2_write` of `buf` at `offset`, with the page it chose. -/
structure Stored (sb : Ext2SbInfo) (R : Set Nat) (fd offset : Nat) (buf : List Byte)
    (files : Nat → Option Inode) (inode : Inode) (s : PageCache) (inode' : Inode) (s' : PageCache)
    (page : Nat) (inode1 : Inode) (s1 : PageCache) : Prop where
  aimed : Aimed sb R fd (offset / blockSize) files inode s page inode1 s1
  becomes : Becomes s1 s' (update s1.view page
    (copy (s1.data page) (offset % blockSize) (buf.take (chunk offset buf))))
  blocks : inode'.blocks = inode1.blocks
  type : inode'.type = inode.type
  size : inode'.size = (offset + chunk offset buf) % 2 ^ 32

theorem ext2Write_defined {offset : Nat} {buf : List Byte} (hwf : FsWf sb R files s.view)
    (hfile : files fd = some inode) (hfits : Fits s.view inode (offset / blockSize)) :
    Defined (ext2Write sb inode offset buf s) fun r => r.1 = chunk offset buf ∧
      r.2.1.offset = inode.offset ∧ ∃ page inode1 s1,
        writePage sb inode (offset / blockSize) s = .ok (page, inode1, s1) ∧
          Stored sb R fd offset buf files inode s r.2.1 r.2.2 page inode1 s1 := by
  unfold ext2Write
  split
  · exact .error nofun
  · refine .bind (writePage_defined hwf hfile hfits).self ?_
    rintro ⟨page, inode1, s1⟩ ⟨hpage, haimed⟩
    dsimp only at haimed ⊢
    obtain ⟨buf', hbuf'⟩ := haimed.cached
    obtain ⟨s2, hdirty, hs2⟩ := setData_markPageDirty_ok hbuf'
      (copy (s1.data page) (offset % blockSize) (buf.take (chunk offset buf)))
    unfold chunk at hdirty hs2
    rw [hdirty, ok_bind]
    obtain ⟨state', hmark⟩ := markInodeDirty_eq
      { inode1 with size := (offset + chunk offset buf) % 2 ^ 32 } .data
    unfold chunk at hmark
    rw [hmark]
    exact .ok ⟨rfl, haimed.same.offset, page, inode1, s1, hpage, haimed, hs2, rfl, haimed.same.type, rfl⟩

theorem writeRound_defined {buf : List Byte} (hwf : FsWf sb R files s.view)
    (hfile : files fd = some inode) (hfits : Fits s.view inode (inode.offset / blockSize)) :
    Defined (Fs.writeRound sb inode buf s) fun r => r.1 = chunk inode.offset buf ∧
      r.2.1.offset = (inode.offset + chunk inode.offset buf) % 2 ^ 32 ∧ ∃ page inode1 s1,
        writePage sb inode (inode.offset / blockSize) s = .ok (page, inode1, s1) ∧
          Stored sb R fd inode.offset buf files inode s r.2.1 r.2.2 page inode1 s1 := by
  refine .bind (ext2Write_defined hwf hfile hfits) ?_
  rintro ⟨n, node', s'⟩ ⟨rfl, hoffset, page, inode1, s1, hpage, hstored⟩
  dsimp only at hoffset hstored ⊢
  rw [hoffset]
  exact .ok ⟨rfl, rfl, page, inode1, s1, hpage, hstored.1, hstored.2, hstored.3, hstored.4, hstored.5⟩

section Stored

variable {offset page : Nat} {buf : List Byte} {inode1 : Inode} {s1 : PageCache}

section

variable (h : Stored sb R fd offset buf files inode s inode' s' page inode1 s1)
include h

theorem Stored.fileRoot_eq : fileRoot (update files fd (some inode')) =
      fileRoot (update files fd (some inode1)) := by
  have hself : update files fd (some inode1) fd = some inode1 := update_self ..
  rw [← fileRoot_update hself h.blocks, update_idem]

theorem Stored.wf : FsWf sb R (update files fd (some inode')) s'.view := by
  rw [h.becomes.view]
  exact (h.aimed.setPage _).1.congr_files h.fileRoot_eq

theorem Stored.node {p : (Nat × Nat) × List Nat} (hp : TreePlace p) :
    treeNode (update files fd (some inode')) s'.view p =
      treeNode (update files fd (some inode1)) s1.view p := by
  rw [treeNode, h.fileRoot_eq, h.becomes.view]
  exact (h.aimed.setPage _).2 p hp

theorem Stored.leaf :
    treeNode (update files fd (some inode')) s'.view (leafPlace fd (offset / blockSize)) ≠ 0 ∧
      page = ext2Block2Lba (treeNode (update files fd (some inode')) s'.view
        (leafPlace fd (offset / blockSize))) := by
  have hlt := h.aimed.lt_maxBno
  rw [h.node (leafPlace_place hlt), treeNode_leafPlace (update_self ..) hlt]
  exact ⟨h.aimed.ne_zero, h.aimed.page_eq⟩

theorem Stored.changed {no : Nat} (hno : s'.view no ≠ s.view no) (hpage : no ≠ page) : MetaPage sb no ∨
      ∃ p, TreePlace p ∧ p.1.1 = fd ∧ (p.2.length < treeHeight p.1 ∨
        p = leafPlace fd (offset / blockSize)) ∧
        treeNode (update files fd (some inode')) s'.view p ≠ 0 ∧
        no = ext2Block2Lba (treeNode (update files fd (some inode')) s'.view p) := by
  have hview : s'.view no = s1.view no := by
    rw [h.becomes.view, update_of_ne hpage]
  rcases h.aimed.grown.changed no (hview ▸ hno) with hmeta | ⟨p, hp, hfd, hor, hne, heq⟩
  · exact Or.inl hmeta
  · rw [← h.node hp] at hne heq
    exact Or.inr ⟨p, hp, hfd, hor, hne, heq⟩

end

end Stored

namespace Fs

/-- One round of the loop of `vfs_write` on an open file: one call of `ext2_write`. -/
def vfsWriteRound (fs : Fs) (fd : Nat) (buf : List Byte) : Except Fault (Nat × Fs) := do
  match ← fs.getInode fd with
  | none => .ok (0, fs)
  | some node =>
    let (wtSize, node, cache) ← writeRound fs.sb node buf fs.cache
    .ok (wtSize, { fs with cache }.setFile fd node)

def Wf (R : Set Nat) (fs : Fs) : Prop := FsWf fs.sb R fs.files fs.cache.view

/-- The block that hangs at a place. -/
def nodeAt (fs : Fs) (p : (Nat × Nat) × List Nat) : Nat := treeNode fs.files fs.cache.view p

/-- What a block of the disk holds for a reader. -/
def block (fs : Fs) (b : Nat) : Area := fs.cache.view (ext2Block2Lba b)

end Fs

/-- From `fs` to `fs'` the contents of one data block have changed: the one that the file `fd` has at the
block number `bno`. Besides it, only bitmaps, descriptors and pointer blocks of the file are written. -/
structure Confined (R : Set Nat) (fd bno : Nat) (fs fs' : Fs) : Prop where
  mapped : fs'.nodeAt (leafPlace fd bno) ≠ 0
  changed : ∀ no, fs'.cache.view no ≠ fs.cache.view no →
    no = ext2Block2Lba (fs'.nodeAt (leafPlace fd bno)) ∨ MetaPage fs.sb no ∨
      ∃ p, TreePlace p ∧ p.1.1 = fd ∧ p.2.length < treeHeight p.1 ∧ fs'.nodeAt p ≠ 0 ∧
        no = ext2Block2Lba (fs'.nodeAt p)
  superblock : fs'.block 0 = fs.block 0
  reserved : ∀ b ∈ R, fs'.block b = fs.block b
  others : ∀ p, TreePlace p → p.1.1 ≠ fd → fs.nodeAt p ≠ 0 →
    fs'.block (fs.nodeAt p) = fs.block (fs.nodeAt p)
  data : ∀ p, TreePlace p → p.2.length = treeHeight p.1 → p ≠ leafPlace fd bno →
    fs.nodeAt p ≠ 0 → fs'.block (fs.nodeAt p) = fs.block (fs.nodeAt p)

variable {fs fs' fs0 : Fs} {node : Inode} {buf : List Byte}

/-- The frame follows from what was written and from the places of blocks being apart. -/
theorem Confined.of_changed (hwf : fs'.Wf R) (hsb : fs'.sb = fs.sb) (hlt : bno < maxBno)
    (hkeep : ∀ p, TreePlace p → fs.nodeAt p ≠ 0 → fs'.nodeAt p = fs.nodeAt p)
    (hmapped : fs'.nodeAt (leafPlace fd bno) ≠ 0)
    (hchanged : ∀ no, fs'.cache.view no ≠ fs.cache.view no →
      no = ext2Block2Lba (fs'.nodeAt (leafPlace fd bno)) ∨ MetaPage fs.sb no ∨
        ∃ p, TreePlace p ∧ p.1.1 = fd ∧ p.2.length < treeHeight p.1 ∧ fs'.nodeAt p ≠ 0 ∧
          no = ext2Block2Lba (fs'.nodeAt p)) : Confined R fd bno fs fs' := by
  have hleaf := leafPlace_place (f := fd) hlt
  -- A block that changes is a bitmap, a descriptor, or hangs in the tree of the file.
  have hwritten : ∀ b < maxBlock, fs'.block b ≠ fs.block b → MetaPage fs.sb (ext2Block2Lba b) ∨
      ∃ p, TreePlace p ∧ (p = leafPlace fd bno ∨ p.1.1 = fd ∧ p.2.length < treeHeight p.1) ∧
        fs'.nodeAt p ≠ 0 ∧ b = fs'.nodeAt p := by
    intro b hb hne
    rcases hchanged _ hne with heq | hmeta | ⟨p, hp, hfd, hlen, hpne, heq⟩
    · exact Or.inr ⟨_, hleaf, Or.inl rfl, hmapped, ext2Block2Lba_inj hb (hwf.lt_maxBlock hleaf hmapped) heq⟩
    · exact Or.inl hmeta
    · exact Or.inr ⟨p, hp, Or.inr ⟨hfd, hlen⟩, hpne, ext2Block2Lba_inj hb (hwf.lt_maxBlock hp hpne) heq⟩
  have hreserved : ∀ b ∈ R, fs'.block b = fs.block b := by
    intro b hb
    by_contra hne
    rcases hwritten b ((hwf.reserved_used b hb).lt_maxBlock hwf.layout) hne with hmeta |
      ⟨p, hp, _, hpne, rfl⟩
    · exact hwf.reserved_metaPage b hb (hsb ▸ hmeta)
    · exact hwf.notMem p hp hpne hb
  -- A block that hung somewhere has changed only if its place is one of those.
  have hplace : ∀ p, TreePlace p → fs.nodeAt p ≠ 0 →
      fs'.block (fs.nodeAt p) ≠ fs.block (fs.nodeAt p) →
      p = leafPlace fd bno ∨ p.1.1 = fd ∧ p.2.length < treeHeight p.1 := by
    intro p hp hpne hne
    have hsame := hkeep p hp hpne
    rw [← hsame] at hpne hne
    rcases hwritten _ (hwf.lt_maxBlock hp hpne) hne with hmeta | ⟨q, hq, hor, _, heq⟩
    · exact absurd (hsb ▸ hmeta) (hwf.metaPage p hp hpne)
    · rw [hwf.once p q hp hq hpne heq]
      exact hor
  refine ⟨hmapped, hchanged, hreserved 0 hwf.zero_mem, hreserved, ?_, ?_⟩
  · intro p hp hfd hpne
    by_contra hne
    rcases hplace p hp hpne hne with rfl | ⟨hsame, _⟩
    · exact hfd rfl
    · exact hfd hsame
  · intro p hp hlen hleafne hpne
    by_contra hne
    rcases hplace p hp hpne hne with heq | ⟨_, hlt⟩
    · exact hleafne heq
    · exact Nat.lt_irrefl _ (hlen ▸ hlt)

theorem Stored.confined {offset page : Nat} {inode1 : Inode} {s1 : PageCache}
    (h : Stored sb R fd offset buf files inode s inode' s' page inode1 s1) :
    Confined R fd (offset / blockSize) ⟨sb, s, files⟩
      ⟨sb, s', update files fd (some inode')⟩ := by
  refine .of_changed h.wf rfl h.aimed.lt_maxBno ?_ h.leaf.1 ?_
  · intro p hp hne
    exact (h.node hp).trans (h.aimed.grown.keep p hp hne)
  · intro no hno
    by_cases hpage : no = page
    · exact Or.inl (hpage.trans h.leaf.2)
    · rcases h.changed hno hpage with hmeta | ⟨p, hp, hfd, hlen | rfl, hne, heq⟩
      · exact Or.inr (Or.inl hmeta)
      · exact Or.inr (Or.inr ⟨p, hp, hfd, hlen, hne, heq⟩)
      · exact Or.inl heq

/-- The size and the tree of an open file agree about the block it is written to next. -/
def FitsNext (fs : Fs) (fd : Nat) : Prop :=
  ∀ node, fs.files fd = some node → Fits fs.cache.view node (node.offset / blockSize)

theorem getInode_ok (h : fs.getInode fd = .ok (some node)) :
    fd < Fs.fileTableSize ∧ fs.files fd = some node := by
  unfold Fs.getInode at h
  split at h
  · rename_i hlt
    exact ⟨hlt, Except.ok.inj h⟩
  · cases h

theorem vfsWriteRound_defined (hwf : fs.Wf R) (hnode : fs.getInode fd = .ok (some node))
    (hfits : FitsNext fs fd) : Defined (fs.vfsWriteRound fd buf) fun r =>
      r.2.Wf R ∧ r.2.sb = fs.sb ∧ Confined R fd (node.offset / blockSize) fs r.2 := by
  have hfile := (getInode_ok hnode).2
  rw [Fs.vfsWriteRound, hnode, ok_bind]
  refine .bind (writeRound_defined hwf hfile (hfits node hfile)) ?_
  rintro ⟨n, node', s'⟩ ⟨_, _, page, inode1, s1, _, hstored⟩
  exact .ok ⟨hstored.wf, rfl, hstored.confined⟩

/-- States reached from `fs0` by seeks and by calls of `ext2_write` that meet a condition. -/
inductive FileRun (C : Fs → Nat → Prop) (fs0 : Fs) : Fs → Prop
  | start : FileRun C fs0 fs0
  | lseek {fs fs' : Fs} {fd : Nat} {offset r : Int} {whence : Fs.SeekWhence}
      (hrun : FileRun C fs0 fs) (hseek : fs.vfsLseek fd offset whence = .ok (r, fs')) :
      FileRun C fs0 fs'
  | write {fs fs' : Fs} {fd wtSize : Nat} {buf : List Byte} (hrun : FileRun C fs0 fs)
      (hcond : C fs fd) (hwrite : fs.vfsWriteRound fd buf = .ok (wtSize, fs')) :
      FileRun C fs0 fs'

theorem Fs.Wf.setFile {node' : Inode} (h : fs.Wf R) (hfile : fs.files fd = some node)
    (hblocks : node'.blocks = node.blocks) : (fs.setFile fd node').Wf R :=
  h.congr_files (fileRoot_update hfile hblocks)

theorem Fs.Wf.lseek {offset r : Int} {whence : Fs.SeekWhence} (h : fs.Wf R)
    (hseek : fs.vfsLseek fd offset whence = .ok (r, fs')) : fs'.Wf R := by
  obtain ⟨found, hfound, hseek⟩ := bind_eq_ok hseek
  cases found with
  | none =>
    cases hseek
    exact h
  | some node =>
    dsimp only at hseek
    split at hseek
    · cases hseek
      exact h
    · rw [← (Prod.mk.inj (Except.ok.inj hseek)).2]
      exact h.setFile (getInode_ok hfound).2 rfl

theorem getInode_none (hfound : fs.getInode fd = .ok none) : fs.vfsWriteRound fd buf = .ok (0, fs) := by
  rw [Fs.vfsWriteRound, hfound]
  rfl

theorem FileRun.wf (hwf : fs0.Wf R) (hrun : FileRun FitsNext fs0 fs) : fs.Wf R := by
  induction hrun with
  | start => exact hwf
  | lseek _ hseek ih => exact ih.lseek hseek
  | write _ hcond hwrite ih =>
    rename_i fs1 fs2 fd wtSize buf _
    cases hfound : fs1.getInode fd with
    | error e =>
      rw [Fs.vfsWriteRound, hfound] at hwrite
      cases hwrite
    | ok found =>
      cases found with
      | none =>
        rw [getInode_none hfound] at hwrite
        cases hwrite
        exact ih
      | some node => exact ((vfsWriteRound_defined ih hfound hcond).2 _ hwrite).1

/-- In a run whose writes all go where the size and the tree agree, every write stays inside its file. -/
theorem fileRun_confined (hwf : fs0.Wf R) (hrun : FileRun FitsNext fs0 fs)
    (hnode : fs.getInode fd = .ok (some node)) (hfits : FitsNext fs fd) (buf : List Byte) :
    Defined (fs.vfsWriteRound fd buf) fun r => Confined R fd (node.offset / blockSize) fs r.2 :=
  (vfsWriteRound_defined (hrun.wf hwf) hnode hfits).mono fun _ h => h.2.2

theorem fs_eq_setFile (hfile : fs.files fd = some node) :
    { fs with cache := fs.cache }.setFile fd node = fs := by
  rw [Fs.setFile, update_eq_self_iff.2 hfile.symm]

theorem FileRun.vfsWriteLoop {C : Fs → Nat → Prop} {fuel cnt : Nat} {node' : Inode}
    (hcond : ∀ fs, C fs fd) (hrun : FileRun C fs0 fs) (hnode : fs.getInode fd = .ok (some node))
    (h : Fs.vfsWriteLoop fs.sb fuel buf node fs.cache = .ok (cnt, node', s')) :
    FileRun C fs0 ({ fs with cache := s' }.setFile fd node') := by
  have hfile := getInode_ok hnode
  induction fuel generalizing fs node buf cnt with
  | zero =>
    cases buf with
    | nil =>
      cases h
      rw [fs_eq_setFile hfile.2]
      exact hrun
    | cons b buf => cases h
  | succ fuel ih =>
    cases buf with
    | nil =>
      cases h
      rw [fs_eq_setFile hfile.2]
      exact hrun
    | cons b buf =>
      obtain ⟨⟨n, node1, s1⟩, hround, h⟩ := bind_eq_ok h
      have hstep : fs.vfsWriteRound fd (b :: buf) =
          .ok (n, { fs with cache := s1 }.setFile fd node1) := by
        rw [Fs.vfsWriteRound, hnode, ok_bind]
        dsimp only
        rw [hround, ok_bind]
      have hrun1 := hrun.write (hcond fs) hstep
      dsimp only at h
      split at h
      · cases h
        exact hrun1
      · obtain ⟨⟨cnt', node2, s2⟩, hrest, h⟩ := bind_eq_ok h
        cases h
        have hself : ({ fs with cache := s1 }.setFile fd node1).files fd = some node1 :=
          update_self ..
        have hnode1 : ({ fs with cache := s1 }.setFile fd node1).getInode fd =
            .ok (some node1) := by
          rw [Fs.getInode, if_pos hfile.1, hself]
        have := ih hrun1 hnode1 hrest ⟨hfile.1, hself⟩
        rw [Fs.setFile, Fs.setFile, update_idem] at this
        exact this

theorem FileRun.vfsWrite {C : Fs → Nat → Prop} {cnt : Nat} (hcond : ∀ fs, C fs fd)
    (hrun : FileRun C fs0 fs) (h : fs.vfsWrite fd buf = .ok (cnt, fs')) : FileRun C fs0 fs' := by
  obtain ⟨found, hfound, h⟩ := bind_eq_ok h
  cases found with
  | none =>
    cases h
    exact hrun
  | some node =>
    obtain ⟨⟨cnt', node', s'⟩, hloop, h⟩ := bind_eq_ok h
    cases h
    exact hrun.vfsWriteLoop hcond hfound hloop

def tinyFs : Fs := { sb := tinySb, cache := tinyCache, files := tinyFiles }

theorem tinySb_metaPage {no : Nat} (h : MetaPage tinySb no) : no = 8 ∨ no = 16 ∨ no = 24 := by
  rcases h with ⟨g, info, hg, rfl⟩ | ⟨g, hg, rfl⟩
  · rcases tinySb_desc hg with ⟨_, rfl⟩ | ⟨_, rfl⟩
    · exact Or.inr (Or.inl rfl)
    · exact Or.inr (Or.inr rfl)
  · left
    have hlt : g < 2 := hg
    unfold gdNo descriptorBid descriptorPerBlock blockSize
    rw [show g / (4096 / 32) = 0 by omega]
    rfl

theorem tinyFs_wf : tinyFs.Wf {0} where
  layout := tinySb_layout
  padded := tiny_padded
  once := fun p _ _ _ hne => absurd (treeNode_tinyFiles p) hne
  used := fun p _ hne => absurd (treeNode_tinyFiles p) hne
  metaPage := fun p _ hne => absurd (treeNode_tinyFiles p) hne
  notMem := fun p _ hne => absurd (treeNode_tinyFiles p) hne
  reserved_used := by
    rintro b rfl
    exact ⟨⟨2⟩, rfl, by decide⟩
  reserved_metaPage := by
    rintro b rfl hmeta
    have := tinySb_metaPage hmeta
    revert this
    decide
  zero_mem := rfl
  metaPage_used := by
    intro b hb hmeta
    have hpage : ext2Block2Lba b = ext2Block2Lba 1 ∨ ext2Block2Lba b = ext2Block2Lba 2 ∨
        ext2Block2Lba b = ext2Block2Lba 3 := tinySb_metaPage hmeta
    have hb' : b = 1 ∨ b = 2 ∨ b = 3 := by
      rcases hpage with heq | heq | heq
      · exact Or.inl (ext2Block2Lba_inj hb (by decide) heq)
      · exact Or.inr (Or.inl (ext2Block2Lba_inj hb (by decide) heq))
      · exact Or.inr (Or.inr (ext2Block2Lba_inj hb (by decide) heq))
    rcases hb' with rfl | rfl | rfl <;> exact ⟨⟨2⟩, rfl, by decide⟩

/-- A whole block is written to the empty file, and the next write starts at its last byte. -/
theorem exists_fullBlock : ∃ fs node, FileRun FitsNext tinyFs fs ∧ fs.getInode 0 = .ok (some node) ∧
    (node.size = 4096 ∧ node.offset = 4095 ∧ bidOf fs.cache.view node 0 ≠ 0) ∧
    (∃ r, fs.vfsWriteRound 0 [1, 2] = .ok r) ∧ ∃ fs', fs.vfsWrite 0 [1, 2] = .ok (2, fs') := by
  obtain ⟨_, hok⟩ := exists_ok (x := do
    let a ← tinyFs.vfsWriteRound 0 (List.replicate 4096 0x41)
    let b ← a.2.vfsLseek 0 4095 .set
    let node ← b.2.getInode 0
    let _ ← b.2.vfsWriteRound 0 [1, 2]
    let c ← b.2.vfsWrite 0 [1, 2]
    assertk (c.1 = 2 ∧ node.any fun node : Inode => decide (node.size = 4096 ∧ node.offset = 4095 ∧
      bidOf b.2.cache.view node 0 ≠ 0))) (by decide +kernel)
  obtain ⟨a, ha, hok⟩ := bind_eq_ok hok
  obtain ⟨b, hb, hok⟩ := bind_eq_ok hok
  obtain ⟨found, hfound, hok⟩ := bind_eq_ok hok
  obtain ⟨r, hround, hok⟩ := bind_eq_ok hok
  obtain ⟨⟨cnt, fs'⟩, hwrite, hok⟩ := bind_eq_ok hok
  obtain ⟨rfl, hnode⟩ := of_assertk hok
  obtain ⟨node, rfl, hnode⟩ := (Option.any_eq_true _ _).1 hnode
  have hfits : FitsNext tinyFs 0 := by
    rintro node hfile
    cases hfile
    exact ⟨fun h => absurd h (by decide), fun h => absurd h (by decide)⟩
  exact ⟨b.2, node, (FileRun.start.write hfits ha).lseek hb, hfound, of_decide_eq_true hnode, ⟨r, hround⟩,
    fs', hwrite⟩

theorem fileRun_confined_fullBlock : ∃ fs node wtSize fs', FileRun FitsNext tinyFs fs ∧
    fs.getInode 0 = .ok (some node) ∧ node.size = 4096 ∧ node.offset = 4095 ∧
    fs.vfsWriteRound 0 [1, 2] = .ok (wtSize, fs') ∧ Confined {0} 0 0 fs fs' := by
  obtain ⟨fs, node, hrun, hnode, ⟨hsize, hoffset, hne⟩, ⟨⟨wtSize, fs'⟩, hround⟩, _⟩ := exists_fullBlock
  have hfits : FitsNext fs 0 := by
    intro node' hfile
    cases (getInode_ok hnode).2.symm.trans hfile
    rw [hoffset]
    exact ⟨fun _ => hne, fun h => absurd h (by decide)⟩
  have hdefined := fileRun_confined tinyFs_wf hrun hnode hfits [1, 2]
  rw [hoffset] at hdefined
  exact ⟨fs, node, wtSize, fs', hrun, hnode, hsize, hoffset, hround, hdefined.2 _ hround⟩

/-- A byte at 0, a byte at 8192, a byte at 4096: block 1 of the file is a hole below its size, and the
last byte is written to the superblock. -/
theorem hole_not_confined : ∃ fs node, FileRun (fun _ _ => True) tinyFs fs ∧
    fs.getInode 0 = .ok (some node) ∧
      ¬ Defined (fs.vfsWriteRound 0 [1]) fun r => Confined {0} 0 (node.offset / blockSize) fs r.2 := by
  obtain ⟨_, hok⟩ := exists_ok (x := do
      let a ← tinyFs.vfsWrite 0 [1]
      let b ← a.2.vfsLseek 0 8192 .set
      let c ← b.2.vfsWrite 0 [1]
      let d ← c.2.vfsLseek 0 4096 .set
      let e ← d.2.vfsWriteRound 0 [1]
      let node ← d.2.getInode 0
      assertk (node.isSome = true ∧ e.2.block 0 0 ≠ d.2.block 0 0))
    (by decide +kernel)
  simp only [bind_ok_iff] at hok
  obtain ⟨a, ha, b, hb, c, hc, d, hd, e, he, found, hfound, hok⟩ := hok
  obtain ⟨hsome, hne⟩ := of_assertk hok
  obtain ⟨node, rfl⟩ := Option.isSome_iff_exists.1 hsome
  have hreached : FileRun (fun _ _ => True) tinyFs d.2 :=
    ((((FileRun.start.vfsWrite (fun _ => trivial) ha).lseek hb).vfsWrite (fun _ => trivial) hc).lseek
      hd)
  refine ⟨d.2, node, hreached, hfound, fun hdefined => ?_⟩
  have hsuper := (hdefined.2 _ he).superblock
  exact hne (congrFun hsuper 0)

end QuarkOS
