import QuarkOS.Fs.Growth
import QuarkOS.Fs.MountSpec

/-!
# Freeing the tree of a file

`free_blocks` clears the bits of the blocks of a file. `free_ptr` leaves a block of pointers at its first
empty one, so it comes to all blocks only if no pointer has an empty one before it; and
`clear_block_bitmap` clears the bit of a block only if it is in the first group. What is cleared is a list
of blocks that depends on the pointers alone: these are in pages that clearing does not change.
-/

namespace QuarkOS

open Bytes PageCache

variable {sb : Ext2SbInfo} {v v' v'' : Nat → Area} {bs bs' : List Nat} {s s' s'' : Mount} {inode : Inode}
  {bid layer page : Nat}

/-- The bits with the numbers of the blocks were cleared, in the bitmaps of their groups, and the blocks
counted. -/
structure Clears (sb : Ext2SbInfo) (bs : List Nat) (v v' : Nat → Area) : Prop where
  bit : ∀ (g : Nat) info, sb.desc[g]? = some info → ∀ n, bit (v' (bitmapNo info)) n =
    (bit (v (bitmapNo info)) n && !decide (n ∈ bs ∧ n / sb.blockPerGroup = g))
  count : ∀ g < sb.groupCnt, groupFree v' g =
    (groupFree v g + bs.countP fun b => b / sb.blockPerGroup = g) % 2 ^ 16
  other : ∀ no, ¬ MetaPage sb no → v' no = v no

theorem Clears.refl (sb : Ext2SbInfo) (v : Nat → Area) : Clears sb [] v v where
  bit g info _ n := by simp
  count g _ := by rw [List.countP_nil, Nat.add_zero, Nat.mod_eq_of_lt (groupFree_lt v g)]
  other _ _ := rfl

theorem Clears.append (h : Clears sb bs v v') (h' : Clears sb bs' v' v'') :
    Clears sb (bs ++ bs') v v'' where
  bit g info hg n := by
    rw [h'.bit g info hg, h.bit g info hg, Bool.and_assoc, ← Bool.not_or, ← Bool.decide_or]
    simp only [List.mem_append, or_and_right]
  count g hg := by
    rw [h'.count g hg, h.count g hg, List.countP_append]
    omega
  other no hno := (h'.other no hno).trans (h.other no hno)

/-- The bit of the block is in the page of its group's bitmap. -/
def Clearable (sb : Ext2SbInfo) (bid : Nat) : Prop :=
  (∃ info, sb.desc[bid / sb.blockPerGroup]? = some info) ∧ bid / 8 < pageSize

theorem clearBlockBitmap_clears {s s' : PageCache} (hl : sb.Layout)
    (h : clearBlockBitmap sb bid s = .ok s') : Clears sb [bid] s.view s'.view := by
  obtain ⟨info, hinfo, _, hbecomes⟩ := clearBlockBitmap_spec h
  have hgroup := lt_groupCnt hinfo
  rw [hbecomes.view]
  constructor
  · intro g info' hg n
    rw [update_bitmapNo hl hinfo hg (clearBit · bid), withFreeBlockCnt_bitmapNo hl hgroup hg]
    simp only [List.mem_singleton]
    split
    · rename_i hsame
      subst hsame
      rw [bit_clearBit]
      by_cases hn : n = bid
      · simp [hn]
      · simp [hn]
    · rename_i hne
      have hnot : ¬ (n = bid ∧ n / sb.blockPerGroup = g) := by
        rintro ⟨rfl, hdiv⟩
        exact hne hdiv.symm
      rw [decide_eq_false hnot, Bool.not_false, Bool.and_true]
  · intro g hg
    rw [groupFree_update_bitmapNo hl hinfo hg, groupFree_withFreeBlockCnt hl hgroup hg, List.countP_singleton]
    split
    · rename_i hsame
      rw [decide_eq_true hsame.symm, if_pos rfl, hsame]
    · rename_i hne
      rw [decide_eq_false fun heq => hne heq.symm, if_neg Bool.false_ne_true, Nat.add_zero,
        Nat.mod_eq_of_lt (groupFree_lt _ g)]
  · intro no hno
    rw [Function.update_of_ne fun heq => hno (.inl ⟨_, info, hinfo, heq⟩), withFreeBlockCnt,
      Function.update_of_ne fun heq => hno (.inr ⟨_, hgroup, heq⟩)]

theorem clearBlockBitmap_ok {s : PageCache} (hpos : 0 < sb.blockPerGroup) (h : Clearable sb bid) :
    ∃ s', clearBlockBitmap sb bid s = .ok s' := by
  obtain ⟨⟨info, hinfo⟩, hpage⟩ := h
  obtain ⟨s1, hgd, h1, hvalid1⟩ := getRawGd_ok s (bid / sb.blockPerGroup)
  have h2 := setData_becomes hvalid1 (setFreeBlockCnt (s1.data (gdNo (bid / sb.blockPerGroup)))
    (descriptorOffset (bid / sb.blockPerGroup))
    (freeBlockCnt (s1.data (gdNo (bid / sb.blockPerGroup))) (descriptorOffset (bid / sb.blockPerGroup)) + 1))
  have hvalid2 := h2.valid _ hvalid1
  have hdesc : sb.descAt (bid / sb.blockPerGroup) = .ok info := by
    rw [Ext2SbInfo.descAt, hinfo]
  rw [clearBlockBitmap, if_neg (Nat.ne_of_gt hpos)]
  dsimp only
  rw [hgd, ok_bind]
  dsimp only
  rw [hdesc, ok_bind]
  generalize s1.setData _ _ = s2 at hvalid2 ⊢
  obtain ⟨s3, hread, h3, hvalid3⟩ := ext2BlockRead_ok s2 info.blockBitmapAddr
  rw [hread, ok_bind]
  dsimp only
  rw [if_pos hpage]
  have h4 := setData_becomes hvalid3 (clearBit (s3.data (ext2Block2Lba info.blockBitmapAddr)) bid)
  obtain ⟨s5, hmark5, h5⟩ := markPageDirty_ok (h4.valid _ (h3.valid _ hvalid2))
  obtain ⟨s6, hmark6, _⟩ := markPageDirty_ok (h5.valid _ (h4.valid _ hvalid3))
  exact ⟨s6, by rw [hmark5, ok_bind]; exact hmark6⟩

namespace Mount

/-- The bits of the blocks were cleared; no page has left the cache. -/
structure Freed (bs : List Nat) (s s' : Mount) : Prop where
  sb : s'.sb = s.sb
  clears : Clears s.sb bs s.cache.view s'.cache.view
  valid : ∀ no, s.cache.Valid no → s'.cache.Valid no

theorem Freed.append (h : Freed bs s s') (h' : Freed bs' s' s'') : Freed (bs ++ bs') s s'' where
  sb := h'.sb.trans h.sb
  clears := h.clears.append (h.sb ▸ h'.clears)
  valid no hno := h'.valid no (h.valid no hno)

theorem Freed.of_becomes {cache : PageCache} (h : s.cache.Becomes cache s.cache.view) :
    Freed [] s { s with cache } where
  sb := rfl
  clears := by
    rw [h.view]
    exact .refl s.sb s.cache.view
  valid := h.valid

/-- From `s` the function clears these bits, and it returns if all of them are there. -/
structure Frees (f : Mount → Except Fault Mount) (bs : List Nat) (s : Mount) : Prop where
  freed : ∀ s', f s = .ok s' → Freed bs s s'
  returns : (∀ b ∈ bs, Clearable s.sb b) → ∃ s', f s = .ok s'

theorem Frees.ok (s : Mount) : Frees .ok [] s where
  freed s' h := by
    cases h
    exact .of_becomes (.refl s.cache)
  returns _ := ⟨s, rfl⟩

theorem Frees.bind {f g : Mount → Except Fault Mount} (hf : Frees f bs s)
    (hg : ∀ s', Freed bs s s' → Frees g bs' s') : Frees (fun s => f s >>= g) (bs ++ bs') s where
  freed s'' h := by
    obtain ⟨s', hs', h⟩ := bind_eq_ok h
    exact (hf.freed s' hs').append ((hg s' (hf.freed s' hs')).freed s'' h)
  returns hall := by
    obtain ⟨s', hs'⟩ := hf.returns fun b hb => hall b (List.mem_append_left bs' hb)
    have hfreed := hf.freed s' hs'
    obtain ⟨s'', hs''⟩ := (hg s' hfreed).returns fun b hb => by
      rw [hfreed.sb]
      exact hall b (List.mem_append_right bs hb)
    exact ⟨s'', by rw [hs', ok_bind, hs'']⟩

theorem Frees.of_eq {f g : Mount → Except Fault Mount} (h : Frees g bs s) (heq : f s = g s) :
    Frees f bs s where
  freed s' hs' := h.freed s' (heq ▸ hs')
  returns hall := heq ▸ h.returns hall

theorem Frees.of_read {f g : Mount → Except Fault Mount} {cache : PageCache}
    (hread : s.cache.Becomes cache s.cache.view) (h : Frees g bs { s with cache })
    (heq : f s = g { s with cache }) : Frees f bs s where
  freed s' hs' := (Freed.of_becomes hread).append (h.freed s' (heq ▸ hs'))
  returns hall := heq ▸ h.returns hall

theorem clearBlock_ok (hpos : 0 < s.sb.blockPerGroup) (h : Clearable s.sb bid) :
    ∃ s', clearBlock bid s = .ok s' := by
  obtain ⟨cache, hclear⟩ := clearBlockBitmap_ok (s := s.cache) hpos h
  exact ⟨_, by rw [clearBlock, hclear, ok_bind]⟩

theorem clearBlock_frees (hl : s.sb.Layout) : Frees (clearBlock bid) [bid] s where
  freed s' h := by
    obtain ⟨cache, hclear, h⟩ := bind_eq_ok h
    cases h
    obtain ⟨_, _, _, hbecomes⟩ := clearBlockBitmap_spec hclear
    exact ⟨rfl, clearBlockBitmap_clears hl hclear, hbecomes.valid⟩
  returns hall := clearBlock_ok hl.blockPerGroup_pos (hall bid (List.mem_singleton_self bid))

/-- The pages of the tree are as in `v`. -/
def Agrees (v : Nat → Area) (s : Mount) : Prop := ∀ no, ¬ MetaPage s.sb no → s.cache.view no = v no

theorem Freed.agrees (h : Freed bs s s') (hv : Agrees v s) : Agrees v s' := by
  intro no hno
  rw [h.sb] at hno
  exact (h.clears.other no hno).trans (hv no hno)

/-- No block with pointers is a bitmap or a block of descriptors. -/
def PtrsApart (sb : Ext2SbInfo) (v : Nat → Area) : Nat → Nat → Prop
  | 0, _ => True
  | layer + 1, bid => ¬ MetaPage sb (ext2Block2Lba bid) ∧
    ∀ j < nPtr, childOf v bid j ≠ 0 → PtrsApart sb v layer (childOf v bid j)

theorem freePtrs_frees {free : Nat → Mount → Except Fault Mount} {order : Nat → List Nat} {fuel i : Nat}
    (hv : Agrees v s) (hpage : ¬ MetaPage s.sb (ext2Block2Lba bid))
    (hvalid : s.cache.Valid (ext2Block2Lba bid)) (hfuel : i + fuel ≤ nPtr)
    (hfree : ∀ j < nPtr, childOf v bid j ≠ 0 → ∀ s', s'.sb = s.sb → Agrees v s' →
      Frees (free (childOf v bid j)) (order (childOf v bid j)) s') :
    Frees (freePtrs free (ext2Block2Lba bid) fuel i)
      (((List.range' i fuel).takeWhile fun j => childOf v bid j ≠ 0).flatMap
        fun j => order (childOf v bid j)) s := by
  induction fuel generalizing i s with
  | zero => exact .ok s
  | succ fuel ih =>
    have hptr : ptrAt (s.cache.data (ext2Block2Lba bid)) i = childOf v bid i := by
      rw [hvalid.data_eq, hv _ hpage]
      rfl
    rw [List.range'_succ, List.takeWhile_cons]
    by_cases hzero : childOf v bid i = 0
    · rw [if_neg (by simpa using hzero)]
      refine (Frees.ok s).of_eq ?_
      rw [freePtrs, if_pos (hptr.trans hzero)]
    · rw [if_pos (by simpa using hzero), List.flatMap_cons]
      refine (Frees.bind (hfree i (by omega) hzero s rfl hv) fun s' hs' => ?_).of_eq
        (show _ = free (childOf v bid i) s >>= freePtrs free (ext2Block2Lba bid) fuel (i + 1) from ?_)
      · exact ih (hs'.agrees hv) (by rwa [hs'.sb]) (hs'.valid _ hvalid) (by omega)
          (fun j hj hne s'' hsb => hfree j hj hne s'' (hsb.trans hs'.sb))
      · rw [freePtrs, hptr, if_neg hzero]

theorem freePtr_frees (hl : s.sb.Layout) (hv : Agrees v s) (hptrs : PtrsApart s.sb v layer bid) :
    Frees (freePtr layer bid) (Forest.postorder (childOf v) nPtr layer bid) s := by
  induction layer generalizing bid s with
  | zero => exact clearBlock_frees hl
  | succ layer ih =>
    obtain ⟨cache, hread, hcache, hvalid⟩ := ext2BlockRead_ok s.cache bid
    have hs1 := Freed.of_becomes hcache
    have hloop : Frees (freePtrs (freePtr layer) (ext2Block2Lba bid) nPtr 0)
        ((Forest.leading (childOf v) nPtr bid).flatMap fun j =>
          Forest.postorder (childOf v) nPtr layer (childOf v bid j)) { s with cache } := by
      rw [Forest.leading, List.range_eq_range']
      refine freePtrs_frees (hs1.agrees hv) hptrs.1 hvalid (by omega) fun j hj hne s' hsb hv' => ?_
      exact ih (by rwa [hsb]) hv' (by rw [hsb]; exact hptrs.2 j hj hne)
    refine Frees.of_read hcache (hloop.bind fun s' hs' => clearBlock_frees ?_) ?_
    · rw [hs'.sb]
      exact hl
    · rw [freePtr, hread, ok_bind]

theorem foldlM_frees {f : Mount → Nat → Except Fault Mount} {order : Nat → List Nat} {is : List Nat}
    (hv : Agrees v s)
    (hf : ∀ i ∈ is, ∀ s', s'.sb = s.sb → Agrees v s' → Frees (fun s => f s i) (order i) s') :
    Frees (fun s => is.foldlM f s) (is.flatMap order) s := by
  induction is generalizing s with
  | nil => exact .ok s
  | cons i is ih =>
    rw [List.flatMap_cons]
    refine (Frees.bind (g := fun s => is.foldlM f s) (hf i List.mem_cons_self s rfl hv) fun s' hs' => ?_).of_eq
      ?_
    · exact ih (hs'.agrees hv) fun j hj s'' hsb => hf j (List.mem_cons_of_mem i hj) s'' (hsb.trans hs'.sb)
    · rfl

/-- The pointers of an inode, as trees. -/
def inodeTrees : List (Nat × Nat) := (List.range 15).map (0, ·)

def freedBlocks (v : Nat → Area) (inode : Inode) : List Nat :=
  Forest.nodes treeHeight nPtr (fileRoot (oneFile inode)) (childOf v) inodeTrees

theorem fileRoot_oneFile {i : Nat} (hi : i < 15) : fileRoot (oneFile inode) (0, i) = inode.blocks i :=
  if_pos hi

theorem freedBlocks_eq (v : Nat → Area) (inode : Inode) : freedBlocks v inode =
    ((List.range nDirectBlock).flatMap fun i => if inode.blocks i = 0 then [] else [inode.blocks i]) ++
      (List.range 3).flatMap fun i => if inode.blocks (nDirectBlock + i) = 0 then []
        else Forest.postorder (childOf v) nPtr (i + 1) (inode.blocks (nDirectBlock + i)) := by
  have hrange : List.range 15 = List.range nDirectBlock ++ (List.range 3).map (nDirectBlock + ·) := rfl
  rw [freedBlocks, Forest.nodes, inodeTrees, List.flatMap_map, hrange, List.flatMap_append, List.flatMap_map]
  refine congrArg₂ (· ++ ·) (List.flatMap_congr fun i hi => ?_) (List.flatMap_congr fun i hi => ?_)
  · have hlt : i < 12 := List.mem_range.1 hi
    have hheight : treeHeight (0, i) = 0 := Nat.sub_eq_zero_of_le (by omega)
    rw [fileRoot_oneFile (by omega), hheight, Forest.postorder]
  · have hlt : i < 3 := List.mem_range.1 hi
    have hheight : treeHeight (0, nDirectBlock + i) = i + 1 := by
      unfold treeHeight slotHeight nDirectBlock
      omega
    rw [fileRoot_oneFile (by unfold nDirectBlock; omega), hheight]

theorem freeBlocks_frees (hl : s.sb.Layout) (hptrs : ∀ i < 3, inode.blocks (nDirectBlock + i) ≠ 0 →
      PtrsApart s.sb s.cache.view (i + 1) (inode.blocks (nDirectBlock + i))) :
    Frees (freeBlocks inode.blocks) (freedBlocks s.cache.view inode) s := by
  have hv : Agrees s.cache.view s := fun _ _ => rfl
  rw [freedBlocks_eq]
  refine (Frees.bind (foldlM_frees hv fun i _ s' hsb _ => ?_) fun s' hs' =>
    foldlM_frees (hs'.agrees hv) fun i hi s'' hsb hv' => ?_)
  · by_cases hzero : inode.blocks i = 0
    · rw [if_pos hzero]
      exact (Frees.ok s').of_eq (if_pos hzero)
    · rw [if_neg hzero]
      exact (clearBlock_frees (by rwa [hsb])).of_eq (if_neg hzero)
  · by_cases hzero : inode.blocks (nDirectBlock + i) = 0
    · rw [if_pos hzero]
      exact (Frees.ok s'').of_eq (if_pos hzero)
    · rw [if_neg hzero]
      have hsb'' : s''.sb = s.sb := hsb.trans hs'.sb
      refine (freePtr_frees (by rwa [hsb'']) hv' ?_).of_eq (if_neg hzero)
      rw [hsb'']
      exact hptrs i (List.mem_range.1 hi) hzero

/-- The blocks of a file hang at one place each, are marked used and are no bitmaps or descriptors. -/
structure FileTree (sb : Ext2SbInfo) (v : Nat → Area) (inode : Inode) : Prop where
  once : Forest.Apart treeHeight nPtr (inodeNode v inode)
  used : ∀ b, InTree v inode b → Used sb v b
  metaPage : ∀ b, InTree v inode b → ¬ MetaPage sb (ext2Block2Lba b)

/-- The bits of the blocks of the file were cleared and no others, and every block was counted once. -/
structure FreesTree (inode : Inode) (s s' : Mount) : Prop where
  bits : ∀ (g : Nat) info, s.sb.desc[g]? = some info → ∀ n, bit (s'.cache.view (bitmapNo info)) n = true ↔
    bit (s.cache.view (bitmapNo info)) n = true ∧
      ¬ (n < s.sb.blockPerGroup ∧ InTree s.cache.view inode (n + g * s.sb.blockPerGroup))
  count : ∃ bs : List Nat, bs.Nodup ∧ (∀ b, b ∈ bs ↔ InTree s.cache.view inode b) ∧
    ∀ g < s.sb.groupCnt, groupFree s'.cache.view g =
      (groupFree s.cache.view g + bs.countP fun b => b / s.sb.blockPerGroup = g) % 2 ^ 16

/-- All blocks are in the first group, and no block has a pointer after an empty one. -/
structure Freeable (sb : Ext2SbInfo) (v : Nat → Area) (inode : Inode) : Prop where
  firstGroup : ∀ b, InTree v inode b → b < sb.blockPerGroup
  solid : Forest.Solid treeHeight nPtr (fileRoot (oneFile inode)) (childOf v)

theorem mem_inodeTrees {i : Nat × Nat} (h : fileRoot (oneFile inode) i ≠ 0) : i ∈ inodeTrees := by
  obtain ⟨fd, i⟩ := i
  rw [fileRoot, oneFile] at h
  by_cases hfd : fd = 0
  · subst hfd
    rw [if_pos rfl] at h
    refine List.mem_map.2 ⟨i, List.mem_range.2 ?_, rfl⟩
    by_contra hi
    exact h (if_neg hi)
  · rw [if_neg hfd] at h
    exact absurd rfl h

theorem FileTree.leads (h : FileTree sb v inode) {i : Nat × Nat} {js : List Nat} (hp : TreePlace (i, js))
    (hne : inodeNode v inode (i, js) ≠ 0) (hmem : inodeNode v inode (i, js) ∈ freedBlocks v inode) :
    Forest.Leads (childOf v) nPtr (fileRoot (oneFile inode) i) js := by
  obtain ⟨i', _, js', _, hlen, hleads, hnode⟩ := Forest.mem_nodes.1 hmem
  have hsame : (i, js) = (i', js') := h.once _ _ hp ⟨hlen, hleads.lt⟩ hne hnode.symm
  obtain ⟨rfl, rfl⟩ := Prod.mk.inj hsame
  exact hleads

theorem inTree_of_mem_freedBlocks {b : Nat} (h : b ∈ freedBlocks v inode) : InTree v inode b := by
  obtain ⟨i, _, js, hroot, hlen, hleads, rfl⟩ := Forest.mem_nodes.1 h
  exact ⟨hleads.walk_ne_zero hroot, (i, js), ⟨hlen, hleads.lt⟩, rfl⟩

theorem Freeable.mem_freedBlocks (h : Freeable sb v inode) {b : Nat} (hb : InTree v inode b) :
    b ∈ freedBlocks v inode := by
  obtain ⟨hne, ⟨i, js⟩, hp, rfl⟩ := hb
  have hleads := Forest.leads_of_solid h.solid hp hne
  have hroot : fileRoot (oneFile inode) i ≠ 0 := by
    intro hzero
    refine hne ?_
    rw [inodeNode, treeNode, Forest.node, hzero]
    exact Forest.walk_zero js
  exact Forest.mem_nodes.2 ⟨i, mem_inodeTrees hroot, js, hroot, hp.1, hleads, rfl⟩

theorem FileTree.ptrsApart (h : FileTree sb v inode) {i : Nat × Nat} {js : List Nat}
    (hp : TreePlace (i, js)) (hlen : js.length + layer = treeHeight i)
    (hne : inodeNode v inode (i, js) ≠ 0) : PtrsApart sb v layer (inodeNode v inode (i, js)) := by
  induction layer generalizing js with
  | zero => trivial
  | succ layer ih =>
    refine ⟨h.metaPage _ ⟨hne, _, hp, rfl⟩, fun j hj hchild => ?_⟩
    have hnode : inodeNode v inode (i, js ++ [j]) = childOf v (inodeNode v inode (i, js)) j := by
      rw [inodeNode, treeNode, Forest.node_concat]
      exact if_neg hne
    have hplace : TreePlace (i, js ++ [j]) := Forest.place_concat.2 ⟨hp, by omega, hj⟩
    rw [← hnode] at hchild ⊢
    exact ih hplace (by rw [List.length_append, List.length_singleton]; omega) hchild

theorem FileTree.frees (h : FileTree s.sb s.cache.view inode) (hl : s.sb.Layout) :
    Frees (freeBlocks inode.blocks) (freedBlocks s.cache.view inode) s := by
  refine freeBlocks_frees hl fun i hi hne => ?_
  have hroot : inodeNode s.cache.view inode ((0, nDirectBlock + i), []) = inode.blocks (nDirectBlock + i) :=
    fileRoot_oneFile (by unfold nDirectBlock; omega)
  rw [← hroot] at hne ⊢
  refine h.ptrsApart (Forest.place_nil _) ?_ hne
  unfold treeHeight slotHeight nDirectBlock
  rw [List.length_nil]
  omega

theorem FreesTree.freed (h : FreesTree inode s s') (hl : s.sb.Layout) (htree : FileTree s.sb s.cache.view inode)
    (hfreed : Freed bs s s') {b : Nat} (hb : InTree s.cache.view inode b) :
    b < s.sb.blockPerGroup ∧ b ∈ bs := by
  obtain ⟨info, hinfo, hset⟩ := htree.used b hb
  have hmod : b % s.sb.blockPerGroup < s.sb.blockPerGroup := Nat.mod_lt _ hl.blockPerGroup_pos
  have hclear : ¬ bit (s'.cache.view (bitmapNo info)) (b % s.sb.blockPerGroup) = true := by
    rw [h.bits _ info hinfo, Nat.mod_add_div']
    exact fun hbit => hbit.2 ⟨hmod, hb⟩
  rw [hfreed.clears.bit _ info hinfo, hset, Bool.true_and, Bool.not_eq_true', Bool.not_eq_false,
    decide_eq_true_eq, Nat.div_eq_of_lt hmod] at hclear
  have hlt : b < s.sb.blockPerGroup := by
    have := Nat.div_add_mod b s.sb.blockPerGroup
    rw [← hclear.2] at this
    omega
  rw [Nat.mod_eq_of_lt hlt] at hclear
  exact ⟨hlt, hclear.1⟩

theorem Freeable.freesTree (h : Freeable s.sb s.cache.view inode)
    (htree : FileTree s.sb s.cache.view inode) (hfreed : Freed (freedBlocks s.cache.view inode) s s') :
    FreesTree inode s s' where
  bits g info hg n := by
    rw [hfreed.clears.bit g info hg, Bool.and_eq_true, Bool.not_eq_true', decide_eq_false_iff_not]
    refine and_congr_right fun _ => not_congr ⟨?_, ?_⟩
    · rintro ⟨hmem, hdiv⟩
      have hn := inTree_of_mem_freedBlocks hmem
      have hlt := h.firstGroup n hn
      rw [Nat.div_eq_of_lt hlt] at hdiv
      rw [← hdiv, Nat.zero_mul, Nat.add_zero]
      exact ⟨hlt, hn⟩
    · rintro ⟨hlt, hb⟩
      have hfirst := h.firstGroup _ hb
      have hzero : g = 0 := by
        by_contra hg
        have := Nat.le_mul_of_pos_left s.sb.blockPerGroup (Nat.pos_of_ne_zero hg)
        omega
      subst hzero
      rw [Nat.zero_mul, Nat.add_zero] at hb
      exact ⟨h.mem_freedBlocks hb, Nat.div_eq_of_lt hlt⟩
  count := by
    refine ⟨freedBlocks s.cache.view inode, ?_, fun b => ?_, hfreed.clears.count⟩
    · exact Forest.nodup_nodes htree.once (List.nodup_range.map fun _ _ h => (Prod.mk.inj h).2)
    · exact ⟨inTree_of_mem_freedBlocks, h.mem_freedBlocks⟩

theorem freeBlocks_freesTree_iff (hl : s.sb.Layout) (htree : FileTree s.sb s.cache.view inode) :
    (∃ s', freeBlocks inode.blocks s = .ok s' ∧ FreesTree inode s s') ↔
      Freeable s.sb s.cache.view inode := by
  have hfrees := htree.frees hl
  constructor
  · rintro ⟨s', hok, hfree⟩
    have hfreed := hfrees.freed s' hok
    refine ⟨fun b hb => (hfree.freed hl htree hfreed hb).1, Forest.solid_of_leads fun i js hp hne => ?_⟩
    have hb : InTree s.cache.view inode (inodeNode s.cache.view inode (i, js)) := ⟨hne, _, hp, rfl⟩
    exact htree.leads hp hne (hfree.freed hl htree hfreed hb).2
  · intro h
    obtain ⟨s', hok⟩ := hfrees.returns fun b hb => by
      have hin := inTree_of_mem_freedBlocks hb
      obtain ⟨info, hinfo, _⟩ := htree.used b hin
      have hlt := h.firstGroup b hin
      have hper := hl.blockPerGroup_le
      unfold blockSize at hper
      refine ⟨⟨info, hinfo⟩, ?_⟩
      unfold pageSize
      omega
    exact ⟨s', hok, h.freesTree htree (hfrees.freed s' hok)⟩

def ptrSb : Ext2SbInfo := { blockPerGroup := 16, desc := [⟨2⟩] }

def ptrDisk (k : Nat) : Mount where
  sb := ptrSb
  geometry := { inodePerGroup := 8, inodeSize := 128, inodeBitmapAddr := [3], inodeTableAddr := [4] }
  cache :=
    { disk := fun no => if no = 16 then fun _ => 0xff else if no = 40 then store (fun _ => 0) (4 * k) 4 6
        else fun _ => 0
      bufs := fun _ => none
      memory := fun _ _ => 0 }
  raw _ := { mode := 0, size := 0, linkCnt := 0, cntSectors := 0, blocks := fun _ => 0 }
  rawDisk _ := { mode := 0, size := 0, linkCnt := 0, cntSectors := 0, blocks := fun _ => 0 }
  dirBlocks := ∅
  entries _ := []
  inodes _ := none
  inoCache := []
  dirs _ := none
  dirCache := []
  inodeDirty := []
  root := 0
  cwd := none

def ptrFile : Inode where
  state := .old
  type := ext2IfReg
  size := 14 * 4096
  offset := 0
  blockCnt := 2
  blocks i := if i = 12 then 5 else 0

theorem ptrDisk_child (k j : Nat) : childOf (ptrDisk k).cache.view 5 j = if j = k then 6 else 0 := by
  have hchild : childOf (ptrDisk k).cache.view 5 j = load (store (fun _ => 0) (4 * k) 4 6) (4 * j) 4 := rfl
  rw [hchild]
  split
  · rename_i hj
    rw [hj, load_store]
    rfl
  · rw [load_store_of_disjoint (by omega), load_zero]

theorem ptrSb_layout : ptrSb.Layout where
  blockPerGroup_pos := by decide
  blockPerGroup_le := by decide
  blocks_le := by decide
  bitmap_inj g g' info info' hg hg' _ := by
    have hlt : g < 1 := lt_groupCnt hg
    have hlt' : g' < 1 := lt_groupCnt hg'
    omega
  bitmap_ne g g' info hg hg' := by
    have hlt : g < 1 := lt_groupCnt hg
    have hlt' : g' < 1 := hg'
    obtain rfl : g = 0 := by omega
    obtain rfl : g' = 0 := by omega
    cases hg
    decide

theorem ptrDisk_node {k : Nat} {p : (Nat × Nat) × List Nat} (hp : TreePlace p)
    (hne : inodeNode (ptrDisk k).cache.view ptrFile p ≠ 0) :
    p = ((0, 12), []) ∧ inodeNode (ptrDisk k).cache.view ptrFile p = 5 ∨
      p = ((0, 12), [k]) ∧ inodeNode (ptrDisk k).cache.view ptrFile p = 6 := by
  obtain ⟨i, js⟩ := p
  have hroot : fileRoot (oneFile ptrFile) i ≠ 0 := by
    intro hzero
    refine hne ?_
    rw [inodeNode, treeNode, Forest.node, hzero]
    exact Forest.walk_zero js
  obtain ⟨n, hn, rfl⟩ := List.mem_map.1 (mem_inodeTrees hroot)
  rw [fileRoot_oneFile (List.mem_range.1 hn)] at hroot
  have hn' : n = 12 := by
    by_contra h
    exact hroot (if_neg h)
  subst hn'
  have hlen : js.length ≤ 1 := hp.1
  cases js with
  | nil => exact .inl ⟨rfl, rfl⟩
  | cons j js =>
    obtain rfl : js = [] := List.length_eq_zero_iff.1 (Nat.le_zero.1 (Nat.le_of_succ_le_succ hlen))
    have hnode : inodeNode (ptrDisk k).cache.view ptrFile ((0, 12), [j]) =
        childOf (ptrDisk k).cache.view 5 j := rfl
    rw [hnode, ptrDisk_child] at hne ⊢
    split at hne
    · rename_i hj
      rw [hj, if_pos rfl]
      exact .inr ⟨rfl, rfl⟩
    · exact absurd rfl hne

theorem ptrDisk_inTree {k b : Nat} (h : InTree (ptrDisk k).cache.view ptrFile b) : b = 5 ∨ b = 6 := by
  obtain ⟨hne, p, hp, rfl⟩ := h
  rcases ptrDisk_node hp hne with ⟨_, hnode⟩ | ⟨_, hnode⟩
  · exact .inl hnode
  · exact .inr hnode

theorem ptrDisk_fileTree (k : Nat) : FileTree (ptrDisk k).sb (ptrDisk k).cache.view ptrFile where
  once p q hp hq hne heq := by
    have hne' := heq ▸ hne
    rcases ptrDisk_node hp hne with ⟨rfl, hnode⟩ | ⟨rfl, hnode⟩ <;>
      rcases ptrDisk_node hq hne' with ⟨rfl, hnode'⟩ | ⟨rfl, hnode'⟩
    · rfl
    · exact absurd (hnode.symm.trans (heq.trans hnode')) (by decide)
    · exact absurd (hnode.symm.trans (heq.trans hnode')) (by decide)
    · rfl
  used b hb := by
    rcases ptrDisk_inTree hb with rfl | rfl
    · exact ⟨⟨2⟩, show ptrSb.desc[5 / 16]? = some ⟨2⟩ by decide, show bit (fun _ => 0xff) 5 = true by decide⟩
    · exact ⟨⟨2⟩, show ptrSb.desc[6 / 16]? = some ⟨2⟩ by decide, show bit (fun _ => 0xff) 6 = true by decide⟩
  metaPage b hb := by
    have hmeta : ∀ no, MetaPage (ptrDisk k).sb no → no = 16 ∨ no = 8 := by
      rintro no (⟨g, info, hg, rfl⟩ | ⟨g, hg, rfl⟩)
      · have hlt : g < 1 := lt_groupCnt hg
        obtain rfl : g = 0 := by omega
        cases hg
        exact .inl rfl
      · have hlt : g < 1 := hg
        obtain rfl : g = 0 := by omega
        exact .inr rfl
    intro h
    rcases ptrDisk_inTree hb with rfl | rfl
    · exact absurd (hmeta _ h) (by decide)
    · exact absurd (hmeta _ h) (by decide)

theorem freeBlocks_freesTree_iff_ptrDisk :
    ∃ s', freeBlocks ptrFile.blocks (ptrDisk 0) = .ok s' ∧ FreesTree ptrFile (ptrDisk 0) s' := by
  refine (freeBlocks_freesTree_iff ptrSb_layout (ptrDisk_fileTree 0)).2 ⟨fun b hb => ?_, ?_⟩
  · rcases ptrDisk_inTree hb with rfl | rfl <;> decide
  · intro p hp hlen hne j k hjk _ _
    rcases ptrDisk_node hp hne with ⟨rfl, hnode⟩ | ⟨rfl, hnode⟩
    · have hchild := ptrDisk_child 0 k
      rw [if_neg (by omega)] at hchild
      exact hchild
    · exact absurd hlen (by decide)

/-- With a hole before it, block 6 of the file stays marked used. -/
theorem ptrDisk_not_freesTree :
    (ptrDisk 1).sb.Layout ∧ FileTree (ptrDisk 1).sb (ptrDisk 1).cache.view ptrFile ∧
      ¬ ∃ s', freeBlocks ptrFile.blocks (ptrDisk 1) = .ok s' ∧ FreesTree ptrFile (ptrDisk 1) s' := by
  refine ⟨ptrSb_layout, ptrDisk_fileTree 1, ?_⟩
  rintro ⟨s', hok, hfree⟩
  have htree := ptrDisk_fileTree 1
  have hplace : TreePlace ((0, 12), [1]) := ⟨by decide, by decide⟩
  have hnode : inodeNode (ptrDisk 1).cache.view ptrFile ((0, 12), [1]) = 6 := ptrDisk_child 1 1
  have hin : InTree (ptrDisk 1).cache.view ptrFile 6 := ⟨by decide, _, hplace, hnode⟩
  have hfreed := (htree.frees ptrSb_layout).freed s' hok
  have hmem := (hfree.freed ptrSb_layout htree hfreed hin).2
  rw [← hnode] at hmem
  have hleads := htree.leads hplace (by rw [hnode]; decide) hmem
  have hzero := ptrDisk_child 1 0
  exact (Forest.mem_leading.1 hleads.1).2 0 (by decide) hzero

end Mount

end QuarkOS
