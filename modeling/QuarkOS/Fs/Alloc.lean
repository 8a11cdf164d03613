import QuarkOS.Fs.Bitmap

/-!
# Growing the tree of a file

In a well-formed file system no block hangs at two places of the trees, every block that means something
is marked used, and the bits that stand for no block are set. `alloc_block` then hangs blocks that were
free at empty places along one path: `Grown` says that everything else stays where it is, and that only
bitmaps, descriptors, pointer blocks of the file and the new blocks are written to.
-/

namespace QuarkOS

open Bytes PageCache Function

/-- The blocks of `R` belong to none of the open files: the superblock, the inode tables, the blocks of
other inodes. -/
structure FsWf (sb : Ext2SbInfo) (R : Set Nat) (files : Nat → Option Inode) (v : Nat → Area) :
    Prop where
  layout : sb.Layout
  padded : Padded sb v
  once : Forest.Apart treeHeight 1024 (treeNode files v)
  used : ∀ p, TreePlace p → treeNode files v p ≠ 0 → Used sb v (treeNode files v p)
  metaPage : ∀ p, TreePlace p → treeNode files v p ≠ 0 →
    ¬ MetaPage sb (ext2Block2Lba (treeNode files v p))
  notMem : ∀ p, TreePlace p → treeNode files v p ≠ 0 → treeNode files v p ∉ R
  reserved_used : ∀ b ∈ R, Used sb v b
  reserved_metaPage : ∀ b ∈ R, ¬ MetaPage sb (ext2Block2Lba b)
  zero_mem : 0 ∈ R
  metaPage_used : ∀ b < maxBlock, MetaPage sb (ext2Block2Lba b) → Used sb v b

variable {sb : Ext2SbInfo} {R : Set Nat} {files files' : Nat → Option Inode} {v v' : Nat → Area}
  {s s' : PageCache} {inode : Inode} {b c fd : Nat} {p q : (Nat × Nat) × List Nat}

theorem Used.lt_maxBlock (hl : sb.Layout) (h : Used sb v b) : b < maxBlock := by
  obtain ⟨info, hinfo, _⟩ := h
  have hlt := (Nat.div_lt_iff_lt_mul hl.blockPerGroup_pos).1 (lt_groupCnt hinfo)
  exact hlt.trans_le hl.blocks_le

theorem Used.congr (h : Used sb v b) (hv : ∀ no, MetaPage sb no → v' no = v no) : Used sb v' b := by
  obtain ⟨info, hinfo, hbit⟩ := h
  refine ⟨info, hinfo, ?_⟩
  rw [hv _ (Or.inl ⟨_, info, hinfo, rfl⟩)]
  exact hbit

theorem Padded.congr (h : Padded sb v) (hv : ∀ no, MetaPage sb no → v' no = v no) : Padded sb v' := by
  intro g info hg n hle hlt
  rw [hv _ (Or.inl ⟨g, info, hg, rfl⟩)]
  exact h g info hg n hle hlt

namespace FsWf

section

variable (h : FsWf sb R files v)
include h

theorem lt_maxBlock (hp : TreePlace p) (hne : treeNode files v p ≠ 0) :
    treeNode files v p < maxBlock :=
  (h.used p hp hne).lt_maxBlock h.layout

/-- Used blocks stay used, and a block that has come into the trees is marked and means nothing else. -/
theorem change (hpadded : Padded sb v') (hused : ∀ b, Used sb v b → Used sb v' b)
    (honce : Forest.Apart treeHeight 1024 (treeNode files' v'))
    (hnew : ∀ p, TreePlace p → treeNode files' v' p ≠ treeNode files v p → Used sb v' (treeNode files' v' p) ∧
      ¬ MetaPage sb (ext2Block2Lba (treeNode files' v' p)) ∧ treeNode files' v' p ∉ R) :
    FsWf sb R files' v' := by
  have hall : ∀ P : Nat → Prop, (∀ p, TreePlace p → treeNode files v p ≠ 0 → P (treeNode files v p)) →
      (∀ p, TreePlace p → treeNode files' v' p ≠ treeNode files v p → P (treeNode files' v' p)) →
      ∀ p, TreePlace p → treeNode files' v' p ≠ 0 → P (treeNode files' v' p) := by
    intro P hold hnew p hp hne
    by_cases heq : treeNode files' v' p = treeNode files v p
    · rw [heq] at hne ⊢
      exact hold p hp hne
    · exact hnew p hp heq
  exact {
    layout := h.layout
    padded := hpadded
    once := honce
    used := hall (Used sb v') (fun p hp hne => hused _ (h.used p hp hne)) fun p hp hne => (hnew p hp hne).1
    metaPage := hall (fun c => ¬ MetaPage sb (ext2Block2Lba c)) h.metaPage fun p hp hne => (hnew p hp hne).2.1
    notMem := hall (· ∉ R) h.notMem fun p hp hne => (hnew p hp hne).2.2
    reserved_used := fun b hb => hused b (h.reserved_used b hb)
    reserved_metaPage := h.reserved_metaPage
    zero_mem := h.zero_mem
    metaPage_used := fun b hb hm => hused b (h.metaPage_used b hb hm) }

theorem congr_view (hmeta : ∀ no, MetaPage sb no → v' no = v no)
    (hnode : ∀ p, TreePlace p → treeNode files v' p = treeNode files v p) :
    FsWf sb R files v' :=
  h.change (h.padded.congr hmeta) (fun _ hb => hb.congr hmeta) (h.once.congr hnode)
    fun p hp hne => absurd (hnode p hp) hne

theorem setPage (hc : c < maxBlock) (hmeta : ¬ MetaPage sb (ext2Block2Lba c))
    (hinside : ∀ p, TreePlace p → p.2.length < treeHeight p.1 → treeNode files v p ≠ 0 →
      treeNode files v p ≠ c) (a : Area) :
    FsWf sb R files (update v (ext2Block2Lba c) a) ∧
      ∀ p, TreePlace p →
        treeNode files (update v (ext2Block2Lba c) a) p = treeNode files v p := by
  have hnode : ∀ p, TreePlace p →
      treeNode files (update v (ext2Block2Lba c) a) p = treeNode files v p := by
    intro p hp
    apply treeNode_congr hp
    intro q hq hlen hne
    apply update_of_ne
    intro heq
    exact hinside q hq hlen hne (ext2Block2Lba_inj (h.lt_maxBlock hq hne) hc heq)
  refine ⟨h.congr_view ?_ hnode, hnode⟩
  intro no hno
  apply update_of_ne
  rintro rfl
  exact hmeta hno

theorem congr_files (hroot : fileRoot files' = fileRoot files) :
    FsWf sb R files' v := by
  have hnode : treeNode files' v = treeNode files v := by
    funext p
    rw [treeNode, treeNode, hroot]
  exact h.change h.padded (fun _ hb => hb) (hnode ▸ h.once) fun p _ hne => absurd (congrFun hnode p) hne

end

end FsWf

variable {inode' : Inode} {g n i bno bid : Nat} {info : InfoDescriptor} {slot : Slot} {js : List Nat}
  {id : Nat → Nat}

theorem fileRoot_update (hfile : files fd = some inode) (hblocks : inode'.blocks = inode.blocks) :
    fileRoot (update files fd (some inode')) = fileRoot files := by
  funext i
  unfold fileRoot
  by_cases hi : i.1 = fd
  · rw [hi, update_self, hfile]
    simp only [hblocks]
  · rw [update_of_ne hi]

/-- The block `b` now hangs at the place `p`; at the other places of the trees nothing has changed. -/
def HangsAt (files : Nat → Option Inode) (v : Nat → Area) (p : (Nat × Nat) × List Nat) (b : Nat)
    (files' : Nat → Option Inode) (v' : Nat → Area) : Prop :=
  ∀ q, TreePlace q → treeNode files' v' q = if q = p then b else treeNode files v q

/-- A block that is marked used and means nothing yet. -/
structure FreshBlock (sb : Ext2SbInfo) (R : Set Nat) (files : Nat → Option Inode) (v : Nat → Area)
    (b : Nat) : Prop where
  used : Used sb v b
  notNode : ∀ p, TreePlace p → treeNode files v p ≠ b
  notMem : b ∉ R
  metaPage : ¬ MetaPage sb (ext2Block2Lba b)

namespace FreshBlock

theorem ne_zero (h : FreshBlock sb R files v b) (hwf : FsWf sb R files v) : b ≠ 0 := by
  rintro rfl
  exact h.notMem hwf.zero_mem

theorem congr (h : FreshBlock sb R files v b) (hmeta : ∀ no, MetaPage sb no → v' no = v no)
    (hnode : ∀ p, TreePlace p → treeNode files v' p = treeNode files v p) :
    FreshBlock sb R files v' b where
  used := h.used.congr hmeta
  notNode := fun p hp => (hnode p hp).symm ▸ h.notNode p hp
  notMem := h.notMem
  metaPage := h.metaPage

theorem hang (h : FreshBlock sb R files v b) (hwf : FsWf sb R files v)
    (hmeta : ∀ no, MetaPage sb no → v' no = v no) (hnode : HangsAt files v p b files' v')
    (hp : TreePlace p) : FsWf sb R files' v' := by
  have hself : treeNode files' v' p = b := (hnode p hp).trans (if_pos rfl)
  have hother : ∀ q, TreePlace q → q ≠ p → treeNode files' v' q = treeNode files v q :=
    fun q hq hne => (hnode q hq).trans (if_neg hne)
  refine hwf.change (hwf.padded.congr hmeta) (fun c hc => hc.congr hmeta)
    (hwf.once.update h.notNode hself hother)
    fun q hq hne => ?_
  obtain rfl : q = p := by
    by_contra hqp
    exact hne (hother q hq hqp)
  rw [hself]
  exact ⟨h.used.congr hmeta, h.metaPage, h.notMem⟩

end FreshBlock

section

variable (h : FsWf sb R files v) (hg : sb.desc[g]? = some info)
include h hg

theorem FsWf.treeNode_taken (hp : TreePlace p) :
    treeNode files (taken v info g n) p = treeNode files v p :=
  treeNode_congr hp fun q hq _ hne => taken_of_not_metaPage hg (h.metaPage q hq hne)

theorem FsWf.taken (hn : n < sb.blockPerGroup) :
    FsWf sb R files (QuarkOS.taken v info g n) := by
  have hnode : ∀ p, TreePlace p →
      treeNode files (QuarkOS.taken v info g n) p = treeNode files v p :=
    fun p hp => h.treeNode_taken hg hp
  exact h.change (h.padded.taken h.layout hg) (fun b hb => (used_taken_iff h.layout hg hn b).2 (Or.inl hb))
    (h.once.congr hnode) fun p hp hne => absurd (hnode p hp) hne

theorem FsWf.fresh_taken (hn : n < sb.blockPerGroup)
    (hclear : bit (v (bitmapNo info)) n = false) :
    FreshBlock sb R files (QuarkOS.taken v info g n) (n + g * sb.blockPerGroup) := by
  have hfree := not_used_of_clear h.layout hg hn hclear
  have hused := (used_taken_iff (v := v) h.layout hg hn _).2 (Or.inr rfl)
  refine ⟨hused, ?_, fun hR => hfree (h.reserved_used _ hR), ?_⟩
  · intro p hp heq
    rw [h.treeNode_taken hg hp] at heq
    by_cases hzero : treeNode files v p = 0
    · rw [hzero] at heq
      exact hfree (heq ▸ h.reserved_used 0 h.zero_mem)
    · exact hfree (heq ▸ h.used p hp hzero)
  · intro hm
    exact hfree (h.metaPage_used _ (hused.lt_maxBlock h.layout) hm)

end

theorem findGroupNext_defined {groupCnt fuel groupNo : Nat} (hpos : 0 < groupCnt)
    (hlt : groupNo < groupCnt) :
    Defined (findGroupNext freeBlockCnt s groupCnt i fuel groupNo) fun r => r.1 < groupCnt := by
  induction fuel generalizing s groupNo with
  | zero => exact .error (by decide)
  | succ fuel ih =>
    obtain ⟨s1, hgd, _, _⟩ := getRawGd_ok s groupNo
    rw [findGroupNext, hgd, ok_bind]
    dsimp only
    split
    · exact .ok hlt
    · rw [if_neg hpos.ne']
      split
      · exact ih (Nat.mod_lt _ hpos)
      · exact .ok (Nat.mod_lt _ hpos)

theorem findGroup_defined (hl : sb.Layout) (hpos : 0 < sb.groupCnt)
    (hroot : inode.blocks 0 ≠ 0 → Used sb v (inode.blocks 0)) :
    Defined (findGroup sb inode s) fun r => r.1 < sb.groupCnt := by
  unfold findGroup
  split
  · obtain ⟨g, s', hok, _, hleast⟩ := findGroupMin_ok freeBlockCnt_lt hpos s
    rw [hok]
    exact .ok hleast.lt
  · dsimp only
    split
    · exact .error (by decide)
    · rename_i hne
      rw [if_neg hl.blockPerGroup_pos.ne']
      obtain ⟨info, hinfo, _⟩ := hroot hne
      exact findGroupNext_defined hpos (lt_groupCnt hinfo)

theorem markPageDirty_defined (s : PageCache) (no : Nat) : Defined (s.markPageDirty no) fun _ => True := by
  unfold markPageDirty
  split
  · exact .error (by decide)
  · split <;> exact .ok trivial

theorem setBlockBitmap_ne_undefined (hl : sb.Layout) (hpos : 0 < sb.groupCnt)
    (hroot : inode.blocks 0 ≠ 0 → Used sb v (inode.blocks 0)) :
    setBlockBitmap sb inode s ≠ .error .undefined := by
  refine (Defined.bind (Q := fun _ => True) (findGroup_defined hl hpos hroot) ?_).1
  rintro ⟨g, s1⟩ hg
  obtain ⟨info, hinfo⟩ : ∃ info, sb.desc[g]? = some info := ⟨_, List.getElem?_eq_getElem hg⟩
  have hdesc : sb.descAt g = .ok info := by
    rw [Ext2SbInfo.descAt, hinfo]
  obtain ⟨s2, hread, _⟩ := ext2BlockRead_ok s1 info.blockBitmapAddr
  dsimp only
  rw [hdesc, ok_bind, hread, ok_bind]
  dsimp only
  split
  · exact .error (by decide)
  · rename_i n map _
    obtain ⟨s3, hgd, _⟩ := getRawGd_ok (s2.setData (ext2Block2Lba info.blockBitmapAddr) map) g
    rw [hgd, ok_bind]
    exact .bind (markPageDirty_defined _ _) fun s4 _ =>
      .bind (markPageDirty_defined _ _) fun s5 _ => .ok trivial

/-- The block `b` was taken; of the other blocks, only bitmaps and descriptors have changed. -/
structure NewBlock (sb : Ext2SbInfo) (R : Set Nat) (files : Nat → Option Inode) (s : PageCache)
    (b : Nat) (s' : PageCache) : Prop where
  wf : FsWf sb R files s'.view
  fresh : FreshBlock sb R files s'.view b
  valid : ∀ no, s.Valid no → s'.Valid no
  node : ∀ q, TreePlace q → treeNode files s'.view q = treeNode files s.view q
  view : ∀ no, ¬ MetaPage sb no → no ≠ ext2Block2Lba b → s'.view no = s.view no

theorem NewBlock.changed {no : Nat} (h : NewBlock sb R files s b s') (hno : s'.view no ≠ s.view no) :
    MetaPage sb no ∨ no = ext2Block2Lba b := by
  by_contra hall
  push Not at hall
  exact hno (h.view no hall.1 hall.2)

/-- The page of the block is valid and holds zeros. -/
structure Zeroed (s : PageCache) (b : Nat) : Prop where
  valid : s.Valid (ext2Block2Lba b)
  view : s.view (ext2Block2Lba b) = fun _ => 0

theorem FsWf.setBlockBitmap (h : FsWf sb R files s.view)
    (hroot : inode.blocks 0 ≠ 0 → Used sb s.view (inode.blocks 0)) :
    Defined (QuarkOS.setBlockBitmap sb inode s) fun r => NewBlock sb R files s r.1 r.2 := by
  obtain ⟨info0, hinfo0, _⟩ := h.reserved_used 0 h.zero_mem
  have hpos : 0 < sb.groupCnt := Nat.zero_lt_of_lt (lt_groupCnt hinfo0)
  refine ⟨setBlockBitmap_ne_undefined h.layout hpos hroot, ?_⟩
  rintro ⟨b, s'⟩ hok
  obtain ⟨g, info, n, hg, hn, _, hclear, rfl, hbecomes⟩ :=
    setBlockBitmap_taken h.layout h.padded hok
  have hview := hbecomes.view
  refine ⟨?_, ?_, hbecomes.valid, ?_, ?_⟩ <;> dsimp only <;> rw [hview]
  · exact h.taken hg hn
  · exact h.fresh_taken hg hn hclear
  · exact fun q hq => h.treeNode_taken hg hq
  · exact fun no hno _ => taken_of_not_metaPage hg hno

theorem FsWf.newEmptyBlock (h : FsWf sb R files s.view)
    (hroot : inode.blocks 0 ≠ 0 → Used sb s.view (inode.blocks 0)) :
    Defined (QuarkOS.newEmptyBlock sb inode s) fun r =>
      NewBlock sb R files s r.1 r.2 ∧ Zeroed r.2 r.1 := by
  refine .bind (h.setBlockBitmap hroot) ?_
  rintro ⟨b, s1⟩ hnew
  have hfresh := hnew.fresh
  obtain ⟨s2, hread, hbecomes, hself⟩ := ext2BlockRead_ok s1 b
  dsimp only at hfresh ⊢
  rw [hread, ok_bind]
  have hzero := setData_becomes hself fun _ => 0
  rw [hbecomes.view] at hzero
  obtain ⟨hwf2, hnode⟩ := hnew.wf.setPage (hfresh.used.lt_maxBlock h.layout) hfresh.metaPage
    (fun p hp _ _ => hfresh.notNode p hp) fun _ => 0
  have hmeta : ∀ no, MetaPage sb no →
      update s1.view (ext2Block2Lba b) (fun _ => 0) no = s1.view no := by
    intro no hno
    apply update_of_ne
    rintro rfl
    exact hfresh.metaPage hno
  apply Defined.ok
  refine ⟨⟨?_, ?_, fun no hno => hzero.valid _ (hbecomes.valid _ (hnew.valid no hno)), ?_, ?_⟩,
    hzero.valid _ hself, ?_⟩ <;> dsimp only <;> rw [hzero.view]
  · exact hwf2
  · exact hfresh.congr hmeta hnode
  · exact fun q hq => (hnode q hq).trans (hnew.node q hq)
  · intro no hno hne
    rw [update_of_ne hne]
    exact hnew.view no hno hne
  · exact update_self ..

/-- The slot is where the pointer to the place `p` of the file `fd` is kept. -/
inductive SlotAt (files : Nat → Option Inode) (s : PageCache) (fd : Nat) :
    Slot → (Nat × Nat) × List Nat → Prop
  | blocks {i : Nat} (hi : i < 15) : SlotAt files s fd (.blocks i) ((fd, i), [])
  | ptr {i j : Nat} {js : List Nat} (hp : TreePlace ((fd, i), js ++ [j]))
      (hparent : treeNode files s.view ((fd, i), js) ≠ 0)
      (hvalid : s.Valid (ext2Block2Lba (treeNode files s.view ((fd, i), js)))) :
      SlotAt files s fd (.ptr (ext2Block2Lba (treeNode files s.view ((fd, i), js))) j)
        ((fd, i), js ++ [j])

theorem fileRoot_of_some (hfile : files fd = some inode) (hi : i < 15) :
    fileRoot files (fd, i) = inode.blocks i := by
  unfold fileRoot
  rw [hfile]
  exact if_pos hi

theorem treeNode_concat (i : Nat × Nat) (js : List Nat) (j : Nat) : treeNode files v (i, js ++ [j]) =
      if treeNode files v (i, js) = 0 then 0 else childOf v (treeNode files v (i, js)) j :=
  Forest.node_concat i js j

theorem SlotAt.place (h : SlotAt files s fd slot p) : TreePlace p := by
  cases h with
  | blocks hi => exact Forest.place_nil _
  | ptr hp _ _ => exact hp

theorem SlotAt.load (h : SlotAt files s fd slot p) (hfile : files fd = some inode) :
    slot.load inode s = treeNode files s.view p := by
  cases h with
  | blocks hi => exact (fileRoot_of_some hfile hi).symm
  | ptr hp hparent hvalid =>
    rw [treeNode_concat, if_neg hparent, Slot.load, hvalid.data_eq]
    rfl

theorem SlotAt.keep (h : SlotAt files s fd slot p)
    (hnode : ∀ q, TreePlace q → q ≠ p → treeNode files' s'.view q = treeNode files s.view q)
    (hvalid : ∀ no, s.Valid no → s'.Valid no) : SlotAt files' s' fd slot p := by
  cases h with
  | blocks hi => exact .blocks hi
  | ptr hp hparent hpage =>
    rename_i i j js
    have hsame := hnode _ (Forest.place_concat.1 hp).1 (by simp)
    rw [← hsame] at hparent ⊢
    exact .ptr hp hparent (hvalid _ (hsame ▸ hpage))

/-- What filling an empty slot does: the block `b` hangs at `p`. -/
structure Hung (sb : Ext2SbInfo) (R : Set Nat) (fd : Nat) (files : Nat → Option Inode)
    (s : PageCache) (p : (Nat × Nat) × List Nat) (b : Nat) (files' : Nat → Option Inode)
    (s' : PageCache) : Prop where
  wf : FsWf sb R files' s'.view
  ne_zero : b ≠ 0
  node : HangsAt files s.view p b files' s'.view
  valid : ∀ no, s.Valid no → s'.Valid no
  changed : ∀ no, s'.view no ≠ s.view no → MetaPage sb no ∨ no = ext2Block2Lba b ∨
    ∃ js j, p = (p.1, js ++ [j]) ∧ treeNode files s.view (p.1, js) ≠ 0 ∧
      no = ext2Block2Lba (treeNode files s.view (p.1, js))

theorem fileRoot_update_blocks (hfile : files fd = some inode) (hi : i < 15) {b : Nat}
    (hblocks : inode'.blocks = update inode.blocks i b) :
    fileRoot (update files fd (some inode')) =
      update (fileRoot files) (fd, i) b := by
  funext k
  obtain ⟨fd', j⟩ := k
  rw [update_apply]
  unfold fileRoot
  by_cases hfd : fd' = fd
  · subst hfd
    rw [update_self, hfile]
    by_cases hj : j = i
    · subst hj
      simp only [hblocks, update_self, if_pos hi, if_true]
    · have hne : (fd', j) ≠ (fd', i) := fun heq => hj (Prod.mk.inj heq).2
      simp only [hblocks, update_of_ne hj, if_neg hne]
  · have hne : (fd', j) ≠ (fd, i) := fun heq => hfd (Prod.mk.inj heq).1
    rw [update_of_ne hfd, if_neg hne]

theorem treeNode_plant (hfile : files fd = some inode) (hi : i < 15)
    (hempty : treeNode files v ((fd, i), []) = 0)
    (hzero : 0 < slotHeight i → v (ext2Block2Lba b) = fun _ => 0)
    (hblocks : inode'.blocks = update inode.blocks i b) :
    HangsAt files v ((fd, i), []) b (update files fd (some inode')) v := by
  intro q hq
  have hroot : fileRoot files (fd, i) = 0 := hempty
  apply Forest.plant hroot (fileRoot_update_blocks hfile hi hblocks) _ _ hq
  · intro hheight k _
    rw [childOf, hzero hheight]
    exact load_zero _ _
  · exact fun _ _ _ _ _ _ => rfl

theorem treeNode_graft {j : Nat} (honce : Forest.Apart treeHeight 1024 (treeNode files v))
    (hlt : ∀ q, TreePlace q → treeNode files v q ≠ 0 → treeNode files v q < maxBlock)
    (hb : b < maxBlock) (hnot : ∀ q, TreePlace q → treeNode files v q ≠ b)
    (hp : TreePlace ((fd, i), js ++ [j])) (hparent : treeNode files v ((fd, i), js) ≠ 0)
    (hempty : treeNode files v ((fd, i), js ++ [j]) = 0) (hzero : v (ext2Block2Lba b) = fun _ => 0)
    {no : Nat} (hno : no = ext2Block2Lba (treeNode files v ((fd, i), js))) :
    HangsAt files v ((fd, i), js ++ [j]) b files (update v no (setPtrAt (v no) j b)) := by
  intro q hq
  obtain ⟨hjs, hlen, hj⟩ := Forest.place_concat.1 hp
  have hparentLt := hlt _ hjs hparent
  have hpage : ext2Block2Lba b ≠ no := by
    rw [hno]
    exact fun heq => hnot _ hjs (ext2Block2Lba_inj hb hparentLt heq).symm
  apply Forest.graft honce hp hparent hempty _ _ _ hq
  · change ptrAt (update v no (setPtrAt (v no) j b) (ext2Block2Lba (treeNode files v ((fd, i), js)))) j = b
    rw [← hno, update_self, ptrAt, setPtrAt, load_store]
    exact Nat.mod_eq_of_lt (hb.trans (by decide))
  · intro _ k _
    rw [childOf, update_of_ne hpage, hzero]
    exact load_zero _ _
  · intro q' hq' _ hne k _ hor
    have hlt' : Forest.node (fileRoot files) (childOf v) q' < maxBlock := hlt q' hq' hne
    generalize Forest.node (fileRoot files) (childOf v) q' = c at hlt' hor ⊢
    rw [childOf, childOf]
    by_cases hsame : ext2Block2Lba c = no
    · have hkj : k ≠ j :=
        hor.resolve_left fun hdiff => hdiff (ext2Block2Lba_inj hlt' hparentLt (hsame.trans hno))
      rw [hsame, update_self, ptrAt, setPtrAt, load_store_of_disjoint (by omega)]
      rfl
    · rw [update_of_ne hsame]

theorem FreshBlock.plant (h : FreshBlock sb R files v b) (hwf : FsWf sb R files v)
    (hfile : files fd = some inode) (hi : i < 15)
    (hempty : treeNode files v ((fd, i), []) = 0)
    (hzero : 0 < slotHeight i → v (ext2Block2Lba b) = fun _ => 0)
    (hblocks : inode'.blocks = update inode.blocks i b) :
    FsWf sb R (update files fd (some inode')) v ∧
      HangsAt files v ((fd, i), []) b (update files fd (some inode')) v := by
  have hnode := treeNode_plant hfile hi hempty hzero hblocks
  exact ⟨h.hang hwf (fun _ _ => rfl) hnode (Forest.place_nil _), hnode⟩

theorem FreshBlock.graft (h : FreshBlock sb R files v b) (hwf : FsWf sb R files v) {j : Nat}
    (hp : TreePlace ((fd, i), js ++ [j]))
    (hparent : treeNode files v ((fd, i), js) ≠ 0)
    (hempty : treeNode files v ((fd, i), js ++ [j]) = 0)
    (hzero : v (ext2Block2Lba b) = fun _ => 0) :
    let no := ext2Block2Lba (treeNode files v ((fd, i), js))
    FsWf sb R files (update v no (setPtrAt (v no) j b)) ∧
      HangsAt files v ((fd, i), js ++ [j]) b files (update v no (setPtrAt (v no) j b)) := by
  intro no
  have hnode := treeNode_graft hwf.once (fun p hp hne => hwf.lt_maxBlock hp hne)
    (h.used.lt_maxBlock hwf.layout) h.notNode hp hparent hempty hzero rfl
  refine ⟨h.hang hwf ?_ hnode hp, hnode⟩
  intro no' hno'
  apply update_of_ne
  rintro rfl
  exact hwf.metaPage _ (Forest.place_concat.1 hp).1 hparent hno'

theorem FsWf.blocks_used (h : FsWf sb R files v) (hfile : files fd = some inode)
    (hi : i < 15) (hne : inode.blocks i ≠ 0) : Used sb v (inode.blocks i) := by
  have hnode : treeNode files v ((fd, i), []) = inode.blocks i := fileRoot_of_some hfile hi
  rw [← hnode] at hne ⊢
  exact h.used _ (Forest.place_nil _) hne

/-- Fields of the inode that growing the tree does not touch. -/
structure SameFile (inode inode' : Inode) : Prop where
  size : inode'.size = inode.size
  offset : inode'.offset = inode.offset
  type : inode'.type = inode.type
  state : inode'.state = inode.state

theorem SameFile.refl (inode : Inode) : SameFile inode inode := ⟨rfl, rfl, rfl, rfl⟩

theorem SameFile.trans {a b c : Inode} (h : SameFile a b) (h' : SameFile b c) : SameFile a c :=
  ⟨h'.size.trans h.size, h'.offset.trans h.offset, h'.type.trans h.type, h'.state.trans h.state⟩

theorem fillSlot_defined (hwf : FsWf sb R files s.view)
    (hfile : files fd = some inode) (hslot : SlotAt files s fd slot p)
    (hempty : treeNode files s.view p = 0) :
    Defined (fillSlot sb slot inode s) fun r => SameFile inode r.1 ∧
      ∃ b, Hung sb R fd files s p b (update files fd (some r.1)) r.2 ∧ Zeroed r.2 b := by
  refine .bind (hwf.newEmptyBlock fun hne => hwf.blocks_used hfile (by decide) hne) ?_
  rintro ⟨b, s1⟩ ⟨hnew, hzero⟩
  dsimp only at hnew hzero ⊢
  have hne := hnew.fresh.ne_zero hnew.wf
  cases hslot with
  | blocks hi =>
    rename_i i
    rw [← hnew.node _ (Forest.place_nil _)] at hempty
    have hblocks : (({ inode with blocks := update inode.blocks i b } : Inode).addBlock).blocks =
        update inode.blocks i b := rfl
    obtain ⟨hwf2, hnode⟩ := hnew.fresh.plant hnew.wf hfile hi hempty (fun _ => hzero.view) hblocks
    refine .ok ⟨⟨rfl, rfl, rfl, rfl⟩, b, ⟨hwf2, hne, ?_, hnew.valid, ?_⟩, hzero⟩
    · intro q hq
      rw [← hnew.node q hq]
      exact hnode q hq
    · exact fun no hno => (hnew.changed hno).imp_right Or.inl
  | ptr hp hparent hpage =>
    rename_i i j js
    have hjs := (Forest.place_concat.1 hp).1
    have hsame := hnew.node _ hjs
    have hpage1 := hnew.valid _ hpage
    rw [← hsame] at hparent hpage1 ⊢
    rw [← hnew.node _ hp] at hempty
    obtain ⟨hwf2, hnode⟩ := hnew.fresh.graft hnew.wf hp hparent hempty hzero.view
    have hstore := setData_becomes hpage1 (setPtrAt (s1.view
      (ext2Block2Lba (treeNode files s1.view ((fd, i), js)))) j b)
    rw [Slot.store, hpage1.data_eq]
    have hroot : fileRoot (update files fd (some inode.addBlock)) = fileRoot files :=
      fileRoot_update hfile rfl
    have hpage : ext2Block2Lba b ≠ ext2Block2Lba (treeNode files s1.view ((fd, i), js)) := fun heq =>
      hnew.fresh.notNode _ hjs (ext2Block2Lba_inj (hnew.fresh.used.lt_maxBlock hwf.layout)
        (hnew.wf.lt_maxBlock hjs hparent) heq).symm
    refine .ok ⟨⟨rfl, rfl, rfl, rfl⟩, b, ⟨?_, hne, ?_, ?_, ?_⟩, hstore.valid _ hzero.valid, ?_⟩
    · dsimp only
      rw [hstore.view]
      exact hwf2.congr_files hroot
    · intro q hq
      dsimp only
      rw [hstore.view, treeNode, hroot, ← hnew.node q hq]
      exact hnode q hq
    · exact fun no hno => hstore.valid _ (hnew.valid no hno)
    · intro no hno
      dsimp only at hno
      rw [hstore.view] at hno
      by_cases hparent' : no = ext2Block2Lba (treeNode files s1.view ((fd, i), js))
      · rw [hsame] at hparent hparent'
        exact Or.inr (Or.inr ⟨js, j, rfl, hparent, hparent'⟩)
      · rw [update_of_ne hparent'] at hno
        exact (hnew.changed hno).imp_right Or.inl
    · exact (congrFun hstore.view _).trans ((update_of_ne hpage ..).trans hzero.view)

theorem Hung.slotAt (h : Hung sb R fd files s p b files' s')
    (hslot : SlotAt files s fd slot p) : SlotAt files' s' fd slot p :=
  hslot.keep (fun q hq hne => (h.node q hq).trans (if_neg hne)) h.valid

/-- Blocks were hung at empty places on the way to `target`, and nothing else has changed. -/
structure Grown (sb : Ext2SbInfo) (R : Set Nat) (target : (Nat × Nat) × List Nat)
    (files : Nat → Option Inode) (s : PageCache) (files' : Nat → Option Inode) (s' : PageCache) :
    Prop where
  wf : FsWf sb R files' s'.view
  valid : ∀ no, s.Valid no → s'.Valid no
  keep : ∀ q, TreePlace q → treeNode files s.view q ≠ 0 →
    treeNode files' s'.view q = treeNode files s.view q
  new : ∀ q, TreePlace q → treeNode files s.view q = 0 → treeNode files' s'.view q ≠ 0 →
    q.1 = target.1 ∧ q.2 <+: target.2
  changed : ∀ no, s'.view no ≠ s.view no → MetaPage sb no ∨ ∃ q, TreePlace q ∧
    q.1.1 = target.1.1 ∧ (q.2.length < treeHeight q.1 ∨ q = target) ∧
    treeNode files' s'.view q ≠ 0 ∧ no = ext2Block2Lba (treeNode files' s'.view q)

variable {target : (Nat × Nat) × List Nat}

theorem Grown.refl (h : FsWf sb R files s.view) : Grown sb R target files s files s where
  wf := h
  valid := fun _ hno => hno
  keep := fun _ _ _ => rfl
  new := fun _ _ hzero hne => absurd hzero hne
  changed := fun _ hne => absurd rfl hne

theorem Grown.trans {files'' : Nat → Option Inode} {s'' : PageCache}
    (h : Grown sb R target files s files' s') (h' : Grown sb R target files' s' files'' s'') :
    Grown sb R target files s files'' s'' where
  wf := h'.wf
  valid := fun no hno => h'.valid no (h.valid no hno)
  keep := by
    intro q hq hne
    have hfirst := h.keep q hq hne
    rw [← hfirst] at hne ⊢
    exact h'.keep q hq hne
  new := by
    intro q hq hzero hne
    by_cases hmid : treeNode files' s'.view q = 0
    · exact h'.new q hq hmid hne
    · exact h.new q hq hzero hmid
  changed := by
    intro no hno
    by_cases hmid : s''.view no = s'.view no
    · rcases h.changed no (hmid ▸ hno) with hm | ⟨q, hq, hfd, hor, hne, heq⟩
      · exact Or.inl hm
      · have hsecond := h'.keep q hq hne
        rw [← hsecond] at hne heq
        exact Or.inr ⟨q, hq, hfd, hor, hne, heq⟩
    · exact h'.changed no hmid

theorem lt_height_or_eq (htarget : target.2.length = treeHeight target.1)
    (hpre : js <+: target.2) : js.length < treeHeight target.1 ∨ (target.1, js) = target := by
  rcases Nat.lt_or_ge js.length target.2.length with hlt | hge
  · exact Or.inl (htarget ▸ hlt)
  · right
    rw [hpre.eq_of_length (Nat.le_antisymm hpre.length_le hge)]

theorem Hung.grown (h : Hung sb R fd files s (target.1, js) b files' s')
    (hempty : treeNode files s.view (target.1, js) = 0)
    (htarget : target.2.length = treeHeight target.1) (hp : TreePlace (target.1, js))
    (hpre : js <+: target.2) : Grown sb R target files s files' s' where
  wf := h.wf
  valid := h.valid
  keep := by
    intro q hq hne
    rw [h.node q hq, if_neg]
    rintro rfl
    exact hne hempty
  new := by
    intro q hq hzero hne
    rw [h.node q hq] at hne
    split at hne
    · rename_i heq
      rw [heq]
      exact ⟨rfl, hpre⟩
    · exact absurd hzero hne
  changed := by
    have hself : treeNode files' s'.view (target.1, js) = b := (h.node _ hp).trans (if_pos rfl)
    intro no hno
    rcases h.changed no hno with hm | rfl | ⟨ks, k, hks, hne, rfl⟩
    · exact Or.inl hm
    · refine Or.inr ⟨_, hp, rfl, lt_height_or_eq htarget hpre, ?_⟩
      rw [hself]
      exact ⟨h.ne_zero, rfl⟩
    · -- The pointer block above the new block.
      have hjs : js = ks ++ [k] := (Prod.mk.inj hks).2
      have hplace := Forest.place_concat.1 (hjs ▸ hp)
      have hkeep : treeNode files' s'.view (target.1, ks) = treeNode files s.view (target.1, ks) := by
        rw [h.node _ hplace.1, if_neg]
        rw [hjs]
        simp
      refine Or.inr ⟨_, hplace.1, rfl, Or.inl hplace.2.1, ?_⟩
      rw [hkeep]
      exact ⟨hne, rfl⟩

def leafPlace (fd bno : Nat) : (Nat × Nat) × List Nat := ((fd, (blockPath bno).1), (blockPath bno).2)

theorem leafPlace_length {f : Nat} (hlt : bno < maxBno) :
    (leafPlace f bno).2.length = treeHeight (leafPlace f bno).1 :=
  (blockPath_place bno hlt).2.1

theorem leafPlace_place {f : Nat} (hlt : bno < maxBno) : TreePlace (leafPlace f bno) :=
  ⟨(leafPlace_length hlt).le, (blockPath_place bno hlt).2.2⟩

theorem treeNode_leafPlace (hfile : files fd = some inode) (hlt : bno < maxBno) :
    treeNode files v (leafPlace fd bno) = bidOf v inode bno := by
  rw [treeNode, Forest.node, leafPlace, fileRoot_of_some hfile (blockPath_place bno hlt).1]
  rfl

theorem leafPlace_indirect (fd : Nat) (hle : nDirectBlock ≤ bno) (hlt : bno < maxBno) :
    ∃ layer id, findBlockLayer bno = .ok (layer, id) ∧ nDirectBlock + layer < 15 ∧
      leafPlace fd bno = ((fd, nDirectBlock + layer), [] ++ idPath id (layer + 1)) := by
  obtain ⟨layer, id, hlayer, hpath⟩ := findBlockLayer_ok hle hlt
  have hslot := (blockPath_place bno hlt).1
  rw [hpath] at hslot
  refine ⟨layer, id, hlayer, hslot, ?_⟩
  rw [leafPlace, hpath, List.nil_append]

theorem length_idPath (id : Nat → Nat) (n : Nat) : (idPath id n).length = n := by
  induction n with
  | zero => rfl
  | succ n ih => rw [idPath, List.length_cons, ih]

theorem allocBlockLoop_succ (id : Nat → Nat) (n : Nat) (slot : Slot) :
    allocBlockLoop sb id (n + 1) slot inode s =
      (if slot.load inode s = 0 then fillSlot sb slot inode s else .ok (inode, s)) >>= fun r =>
        ext2BlockRead r.2 (slot.load r.1 r.2) >>= fun q =>
          allocBlockLoop sb id n (.ptr q.1 (id n)) r.1 q.2 := by
  rw [allocBlockLoop]
  split
  · rfl
  · rfl

theorem allocRound_defined (hwf : FsWf sb R files s.view) (hfile : files fd = some inode)
    (hslot : SlotAt files s fd slot ((fd, i), js))
    (htarget : target = ((fd, i), js ++ idPath id (n + 1)))
    (hlen : target.2.length = treeHeight target.1) (hplace : TreePlace target)
    (hleaf : treeNode files s.view target = 0) :
    Defined (if slot.load inode s = 0 then fillSlot sb slot inode s else .ok (inode, s)) fun r =>
      SameFile inode r.1 ∧ Grown sb R target files s (update files fd (some r.1)) r.2 ∧
      SlotAt (update files fd (some r.1)) r.2 fd slot ((fd, i), js) ∧
      treeNode (update files fd (some r.1)) r.2.view ((fd, i), js) ≠ 0 ∧
      treeNode (update files fd (some r.1)) r.2.view target = 0 := by
  have hpre : js <+: target.2 := by
    rw [htarget]
    exact List.prefix_append _ _
  have hp : TreePlace (target.1, js) := by
    rw [htarget]
    exact hslot.place
  have hne : target ≠ ((fd, i), js) := by
    rw [htarget]
    intro heq
    have := congrArg List.length (Prod.mk.inj heq).2
    rw [List.length_append, length_idPath] at this
    omega
  rw [hslot.load hfile]
  split
  · rename_i hempty
    refine (fillSlot_defined hwf hfile hslot hempty).mono ?_
    rintro ⟨inode', s'⟩ ⟨hsame, b, hung, _⟩
    have hgrown : Grown sb R target files s _ s' :=
      Hung.grown (by rw [htarget]; exact hung) (by rw [htarget]; exact hempty) hlen hp hpre
    refine ⟨hsame, hgrown, hung.slotAt hslot, ?_, ?_⟩
    · rw [hung.node _ hslot.place, if_pos rfl]
      exact hung.ne_zero
    · rw [hung.node _ hplace, if_neg hne]
      exact hleaf
  · rename_i hused
    have hfiles : update files fd (some inode) = files :=
      update_eq_self_iff.2 hfile.symm
    apply Defined.ok
    dsimp only
    rw [hfiles]
    exact ⟨.refl inode, .refl hwf, hslot, hused, hleaf⟩

theorem SlotAt.next {s2 : PageCache}
    (hslot : SlotAt files s fd slot ((fd, i), js)) (hfile : files fd = some inode)
    (htarget : target = ((fd, i), js ++ idPath id (n + 1)))
    (hlen : target.2.length = treeHeight target.1) (hplace : TreePlace target)
    (hused : treeNode files s.view ((fd, i), js) ≠ 0) (hbecomes : s.Becomes s2 s.view)
    (hvalid : s2.Valid (ext2Block2Lba (slot.load inode s))) :
    SlotAt files s2 fd (.ptr (ext2Block2Lba (slot.load inode s)) (id n)) ((fd, i), js ++ [id n]) ∧
      target = ((fd, i), (js ++ [id n]) ++ idPath id n) := by
  rw [hslot.load hfile, ← hbecomes.view] at hvalid
  rw [← hbecomes.view] at hused
  rw [hslot.load hfile, ← hbecomes.view]
  refine ⟨.ptr (Forest.place_concat.2 ⟨hslot.place, ?_, ?_⟩) hused hvalid, ?_⟩
  · rw [htarget, List.length_append, length_idPath] at hlen
    dsimp only at hlen ⊢
    omega
  · apply hplace.2
    rw [htarget]
    exact List.mem_append_right _ List.mem_cons_self
  · rw [htarget, idPath, List.append_assoc, List.singleton_append]

theorem allocBlockLoop_defined (hwf : FsWf sb R files s.view) (hfile : files fd = some inode)
    (hslot : SlotAt files s fd slot ((fd, i), js)) (htarget : target = ((fd, i), js ++ idPath id n))
    (hlen : target.2.length = treeHeight target.1) (hplace : TreePlace target)
    (hleaf : treeNode files s.view target = 0) :
    Defined (allocBlockLoop sb id n slot inode s) fun r => SameFile inode r.2.1 ∧
      Grown sb R target files s (update files fd (some r.2.1)) r.2.2 ∧
      treeNode (update files fd (some r.2.1)) r.2.2.view target = r.1 ∧ r.1 ≠ 0 ∧ Zeroed r.2.2 r.1 := by
  induction n generalizing files s inode slot js with
  | zero =>
    rw [idPath, List.append_nil] at htarget
    subst htarget
    rw [allocBlockLoop, hslot.load hfile, if_pos hleaf]
    refine .bind (fillSlot_defined hwf hfile hslot hleaf) ?_
    rintro ⟨inode', s'⟩ ⟨hsame, b, hung, hzero⟩
    dsimp only at hsame hung hzero ⊢
    have hself := (hung.node _ hplace).trans (if_pos rfl)
    have hload := (hung.slotAt hslot).load (update_self ..)
    rw [hself] at hload
    rw [hload]
    exact .ok ⟨hsame, Hung.grown hung hleaf hlen hplace (List.prefix_refl js), hself, hung.ne_zero, hzero⟩
  | succ n ih =>
    rw [allocBlockLoop_succ]
    refine .bind (allocRound_defined hwf hfile hslot htarget hlen hplace hleaf) ?_
    rintro ⟨inode1, s1⟩ ⟨hsame, hgrown, hslot1, hused, hleaf1⟩
    dsimp only at hsame hgrown hslot1 hused hleaf1 ⊢
    have hfile1 : update files fd (some inode1) fd = some inode1 :=
      update_self ..
    obtain ⟨s2, hread, hbecomes, hvalid⟩ := ext2BlockRead_ok s1 (slot.load inode1 s1)
    obtain ⟨hslot2, htarget'⟩ := hslot1.next hfile1 htarget hlen hplace hused hbecomes hvalid
    rw [hread, ok_bind]
    have hwf2 := hgrown.wf
    rw [← hbecomes.view] at hwf2 hleaf1
    refine (ih hwf2 hfile1 hslot2 htarget' hleaf1).mono ?_
    rintro ⟨bid, inode2, s3⟩ ⟨hsame2, hgrown2, hnode, hbid⟩
    dsimp only at hsame2 hgrown2 hnode hbid ⊢
    rw [update_idem] at hgrown2 hnode
    have hread2 : Grown sb R target (update files fd (some inode1)) s1
        (update files fd (some inode1)) s2 := by
      refine ⟨hwf2, hbecomes.valid, ?_, ?_, ?_⟩ <;> rw [hbecomes.view]
      · exact fun _ _ _ => rfl
      · exact fun _ _ hzero hne' => absurd hzero hne'
      · exact fun _ hne' => absurd rfl hne'
    exact ⟨hsame.trans hsame2, (hgrown.trans hread2).trans hgrown2, hnode, hbid⟩

theorem allocBlockLoop_undefined
    (hfile : files fd = some inode) (hslot : SlotAt files s fd slot ((fd, i), js))
    (hplace : TreePlace ((fd, i), js ++ idPath id n))
    (hleaf : treeNode files s.view ((fd, i), js ++ idPath id n) ≠ 0) :
    allocBlockLoop sb id n slot inode s = .error .undefined := by
  induction n generalizing s slot js with
  | zero =>
    rw [idPath, List.append_nil] at hleaf
    rw [allocBlockLoop, hslot.load hfile, if_neg hleaf]
  | succ n ih =>
    have happend : js ++ idPath id (n + 1) = (js ++ [id n]) ++ idPath id n := by
      rw [idPath, List.append_assoc, List.singleton_append]
    have hused : treeNode files s.view ((fd, i), js) ≠ 0 :=
      Forest.walk_ne_zero_of_append hleaf
    obtain ⟨s', hread, hbecomes, hvalid⟩ := ext2BlockRead_ok s (slot.load inode s)
    rw [allocBlockLoop_succ, hslot.load hfile, if_neg hused, ok_bind, hread, ok_bind, hslot.load hfile]
    rw [happend] at hplace hleaf
    rw [hslot.load hfile, ← hbecomes.view] at hvalid
    rw [← hbecomes.view] at hused hleaf
    rw [← hbecomes.view]
    exact ih (.ptr hplace.of_append hused hvalid) hplace hleaf

theorem allocBlock_defined (hwf : FsWf sb R files s.view)
    (hfile : files fd = some inode) (hlt : bno < maxBno)
    (hleaf : nDirectBlock ≤ bno → bidOf s.view inode bno = 0) :
    Defined (allocBlock sb inode bno s) fun r => SameFile inode r.2.1 ∧
      Grown sb R (leafPlace fd bno) files s (update files fd (some r.2.1)) r.2.2 ∧
      bidOf r.2.2.view r.2.1 bno = r.1 ∧ r.1 ≠ 0 ∧ bidOf s.view inode bno = 0 ∧
      (nDirectBlock ≤ bno → Zeroed r.2.2 r.1) := by
  rw [← treeNode_leafPlace hfile hlt] at hleaf
  have hlen := leafPlace_length (f := fd) hlt
  have hplace := leafPlace_place (f := fd) hlt
  suffices Defined (allocBlock sb inode bno s) fun r => SameFile inode r.2.1 ∧
      Grown sb R (leafPlace fd bno) files s (update files fd (some r.2.1)) r.2.2 ∧
      treeNode (update files fd (some r.2.1)) r.2.2.view (leafPlace fd bno) = r.1 ∧
      r.1 ≠ 0 ∧ treeNode files s.view (leafPlace fd bno) = 0 ∧ (nDirectBlock ≤ bno → Zeroed r.2.2 r.1) by
    refine this.mono ?_
    rintro ⟨bid, inode', s'⟩ ⟨hsame, hgrown, hnode, hne, hempty, hzero⟩
    rw [treeNode_leafPlace (update_self ..) hlt] at hnode
    rw [treeNode_leafPlace hfile hlt] at hempty
    exact ⟨hsame, hgrown, hnode, hne, hempty, hzero⟩
  unfold allocBlock
  split
  · rename_i hdirect
    have hleafPlace : leafPlace fd bno = ((fd, bno), []) := by
      rw [leafPlace, show blockPath bno = (bno, []) from if_pos hdirect]
    rw [hleafPlace] at hlen hplace ⊢
    have hbno : bno < 15 := hdirect.trans (by decide)
    have hroot : treeNode files s.view ((fd, bno), []) = inode.blocks bno :=
      fileRoot_of_some hfile hbno
    refine .bind (P := fun _ => treeNode files s.view ((fd, bno), []) = 0)
      (.assertk fun hzero => hroot.trans (of_decide_eq_true hzero)) fun _ hempty => ?_
    refine .bind (hwf.setBlockBitmap (hwf.blocks_used hfile (by decide))) ?_
    rintro ⟨b, s'⟩ hnew
    have hfresh := hnew.fresh
    have hheight : ¬ 0 < slotHeight bno := by
      rw [show slotHeight bno = 0 from hlen.symm]
      exact Nat.lt_irrefl 0
    generalize hinode : ({ inode.addBlock with
      blocks := update inode.addBlock.blocks bno b } : Inode) = inode'
    have hsame : SameFile inode inode' := by
      rw [← hinode]
      exact ⟨rfl, rfl, rfl, rfl⟩
    have hblocks : inode'.blocks = update inode.blocks bno b := by
      rw [← hinode]
      rfl
    obtain ⟨hwf', hnode⟩ := hfresh.plant hnew.wf hfile hbno ((hnew.node _ hplace).trans hempty)
      (fun h => absurd h hheight) hblocks
    have hung : Hung sb R fd files s ((fd, bno), []) b
        (update files fd (some inode')) s' := by
      refine ⟨hwf', hfresh.ne_zero hnew.wf, ?_, hnew.valid, ?_⟩
      · intro q hq
        rw [hnode q hq, hnew.node q hq]
      · exact fun no hno => (hnew.changed hno).imp_right Or.inl
    dsimp only
    rw [hinode]
    exact .ok ⟨hsame, hung.grown hempty hlen hplace (List.prefix_refl _),
      (hung.node _ hplace).trans (if_pos rfl), hung.ne_zero, hempty,
      fun hle => absurd hdirect (Nat.not_lt.2 hle)⟩
  · rename_i hindirect
    have hle : nDirectBlock ≤ bno := Nat.not_lt.1 hindirect
    obtain ⟨layer, id, hlayer, hslot, htarget⟩ := leafPlace_indirect fd hle hlt
    rw [hlayer, ok_bind]
    refine (allocBlockLoop_defined hwf hfile (.blocks hslot) htarget hlen hplace (hleaf hle)).mono ?_
    rintro ⟨bid, inode', s'⟩ ⟨hsame, hgrown, hnode, hne, hzero⟩
    exact ⟨hsame, hgrown, hnode, hne, hleaf hle, fun _ => hzero⟩

theorem allocBlock_error (hle : maxBno ≤ bno) : allocBlock sb inode bno s = .error .assertk := by
  rw [allocBlock, if_neg (not_direct hle), findBlockLayer_error hle]
  rfl

theorem allocBlock_ok_empty (h : allocBlock sb inode bno s = .ok (bid, inode', s')) :
    bno < maxBno ∧ bidOf s.view inode bno = 0 := by
  have hlt : bno < maxBno := by
    by_contra hge
    rw [allocBlock_error (Nat.not_lt.1 hge)] at h
    cases h
  refine ⟨hlt, ?_⟩
  unfold allocBlock at h
  split at h
  · rename_i hdirect
    obtain ⟨_, hassert, _⟩ := bind_eq_ok h
    rw [bidOf, show blockPath bno = (bno, []) from if_pos hdirect]
    exact of_assertk hassert
  · rename_i hindirect
    obtain ⟨layer, id, hlayer, hslot, htarget⟩ := leafPlace_indirect 0 (Nat.not_lt.1 hindirect) hlt
    rw [hlayer, ok_bind] at h
    by_contra hne
    obtain ⟨files, hfile⟩ : ∃ files : Nat → Option Inode, files 0 = some inode :=
      ⟨fun _ => some inode, rfl⟩
    have hplace := leafPlace_place (f := 0) hlt
    rw [← treeNode_leafPlace hfile hlt] at hne
    rw [htarget] at hne hplace
    dsimp only at h
    rw [allocBlockLoop_undefined hfile (.blocks hslot) hplace hne] at h
    cases h

end QuarkOS
