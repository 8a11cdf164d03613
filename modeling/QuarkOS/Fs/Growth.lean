import QuarkOS.Fs.FreeSpace
import QuarkOS.Fs.Write

/-!
# Growing the tree of one file

`alloc_block` on a file whose blocks hang at one place each, with a bitmap allocator of which no more is
known than that it returns blocks that are not zero and not in the tree: `Supplies`. The way to the new
block is filled up with pointer blocks, each of them counted, and all other blocks of the file stay where
they are.
-/

namespace QuarkOS

open Bytes PageCache Function

variable {sb : Ext2SbInfo} {v v' : Nat → Area} {s s' : PageCache} {inode inode' : Inode}
  {b bno n : Nat} {p : (Nat × Nat) × List Nat}

/-- The file system with this file only. -/
def oneFile (inode : Inode) (fd : Nat) : Option Inode := if fd = 0 then some inode else none

theorem oneFile_zero (inode : Inode) : oneFile inode 0 = some inode := rfl

theorem update_oneFile (inode inode' : Inode) :
    update (oneFile inode) 0 (some inode') = oneFile inode' := by
  funext fd
  rw [update_apply, oneFile, oneFile]
  split <;> rfl

/-- The block at a place of the tree of the inode, or zero. -/
def inodeNode (v : Nat → Area) (inode : Inode) (p : (Nat × Nat) × List Nat) : Nat :=
  treeNode (oneFile inode) v p

theorem inodeNode_addBlock (v : Nat → Area) (inode : Inode) (p : (Nat × Nat) × List Nat) :
    inodeNode v inode.addBlock p = inodeNode v inode p := by
  have hblocks : inode.addBlock.blocks = inode.blocks := rfl
  have hroot := fileRoot_update (oneFile_zero inode) hblocks
  rw [update_oneFile] at hroot
  rw [inodeNode, inodeNode, treeNode, treeNode, hroot]

/-- No block of the disk hangs at two places of the tree. -/
structure TreeWf (v : Nat → Area) (inode : Inode) : Prop where
  once : Forest.Apart treeHeight 1024 (inodeNode v inode)
  lt : ∀ p, TreePlace p → inodeNode v inode p ≠ 0 → inodeNode v inode p < maxBlock

def InTree (v : Nat → Area) (inode : Inode) (b : Nat) : Prop :=
  b ≠ 0 ∧ ∃ p, TreePlace p ∧ inodeNode v inode p = b

/-- The block is one of the disk that is not in the tree, and no block of the tree was written to when it
was taken. -/
structure NewTo (v : Nat → Area) (inode : Inode) (b : Nat) (v' : Nat → Area) : Prop where
  ne_zero : b ≠ 0
  lt : b < maxBlock
  notNode : ∀ p, TreePlace p → inodeNode v inode p ≠ b
  view : ∀ p, TreePlace p → inodeNode v inode p ≠ 0 →
    v' (ext2Block2Lba (inodeNode v inode p)) = v (ext2Block2Lba (inodeNode v inode p))

/-- The block `b` was hung at an empty place; besides it only blocks of the tree were written to. -/
structure Hangs (v : Nat → Area) (inode : Inode) (b : Nat) (v' : Nat → Area) (inode' : Inode) : Prop where
  node : ∃ p, TreePlace p ∧ inodeNode v inode p = 0 ∧
    ∀ q, TreePlace q → inodeNode v' inode' q = if q = p then b else inodeNode v inode q
  view : ∀ no, v' no ≠ v no → no = ext2Block2Lba b ∨
    ∃ q, TreePlace q ∧ inodeNode v inode q ≠ 0 ∧ no = ext2Block2Lba (inodeNode v inode q)
  blockCnt : inode'.blockCnt = (inode.blockCnt + 1) % 2 ^ 32

/-- The next `n` calls of `set_block_bitmap` each return a block that is new to the tree, when every one
is hung into it before the next call. -/
def Supplies (sb : Ext2SbInfo) : Nat → (Nat → Area) → Inode → Prop
  | 0, _, _ => True
  | n + 1, v, inode => ∀ s : PageCache, s.view = v →
    ∃ b s', setBlockBitmap sb inode s = .ok (b, s') ∧ NewTo v inode b s'.view ∧
      ∀ v' inode', Hangs s'.view inode b v' inode' → Supplies sb n v' inode'

theorem NewTo.node (h : NewTo v inode b v') (hp : TreePlace p) :
    inodeNode v' inode p = inodeNode v inode p :=
  treeNode_congr hp fun q hq _ hne => h.view q hq hne

theorem TreeWf.congr (hwf : TreeWf v inode)
    (hnode : ∀ q, TreePlace q → inodeNode v' inode' q = inodeNode v inode q) : TreeWf v' inode' where
  once := hwf.once.congr hnode
  lt q hq hne := by
    rw [hnode q hq] at hne ⊢
    exact hwf.lt q hq hne

theorem NewTo.wf (h : NewTo v inode b v') (hwf : TreeWf v inode) : TreeWf v' inode :=
  hwf.congr fun _ hq => h.node hq

theorem setBlockBitmap_valid (h : setBlockBitmap sb inode s = .ok (b, s')) {no : Nat}
    (hno : s.Valid no) : s'.Valid no := by
  obtain ⟨_, _, _, _, _, _, _, _, _, hbecomes⟩ := setBlockBitmap_spec h
  exact hbecomes.valid no hno

theorem NewTo.node_zeroed (h : NewTo v inode b v') (hwf : TreeWf v inode) (a : Area) (hp : TreePlace p) :
    inodeNode (update v' (ext2Block2Lba b) a) inode p = inodeNode v inode p := by
  rw [← h.node hp]
  refine treeNode_congr hp fun q hq _ hne => update_of_ne (fun heq => ?_) _ _
  have hlt := (h.wf hwf).lt q hq hne
  exact h.notNode q hq ((h.node hq).symm.trans (ext2Block2Lba_inj hlt h.lt heq))

/-- The empty place `p` was filled with the block `b`, and `n` more blocks can be had. -/
structure Filled (sb : Ext2SbInfo) (n : Nat) (s : PageCache) (inode : Inode) (p : (Nat × Nat) × List Nat)
    (b : Nat) (s' : PageCache) (inode' : Inode) : Prop where
  ne_zero : b ≠ 0
  lt : b < maxBlock
  notNode : ∀ q, TreePlace q → inodeNode s.view inode q ≠ b
  node : ∀ q, TreePlace q →
    inodeNode s'.view inode' q = if q = p then b else inodeNode s.view inode q
  valid : ∀ no, s.Valid no → s'.Valid no
  blockCnt : inode'.blockCnt = (inode.blockCnt + 1) % 2 ^ 32
  supplies : Supplies sb n s'.view inode'

theorem NewTo.filled {s1 : PageCache} (h : NewTo s.view inode b s1.view)
    (hsup : ∀ v' inode', Hangs s1.view inode b v' inode' → Supplies sb n v' inode')
    (hp : TreePlace p) (hempty : inodeNode s.view inode p = 0)
    (hnode : ∀ q, TreePlace q →
      inodeNode s'.view inode' q = if q = p then b else inodeNode s.view inode q)
    (hview : ∀ no, s'.view no ≠ s1.view no → no = ext2Block2Lba b ∨
      ∃ q, TreePlace q ∧ inodeNode s.view inode q ≠ 0 ∧ no = ext2Block2Lba (inodeNode s.view inode q))
    (hvalid : ∀ no, s.Valid no → s'.Valid no)
    (hcnt : inode'.blockCnt = (inode.blockCnt + 1) % 2 ^ 32) : Filled sb n s inode p b s' inode' := by
  refine ⟨h.ne_zero, h.lt, h.notNode, hnode, hvalid, hcnt, hsup _ _ ⟨⟨p, hp, ?_, ?_⟩, ?_, hcnt⟩⟩
  · rw [h.node hp]
    exact hempty
  · intro q hq
    rw [hnode q hq, h.node hq]
  · intro no hno
    refine (hview no hno).imp_right ?_
    rintro ⟨q, hq, hne, heq⟩
    rw [← h.node hq] at hne heq
    exact ⟨q, hq, hne, heq⟩

theorem fillSlot_filled {slot : Slot} (hwf : TreeWf s.view inode) (hsup : Supplies sb (n + 1) s.view inode)
    (hslot : SlotAt (oneFile inode) s 0 slot p) (hempty : inodeNode s.view inode p = 0) :
    ∃ b inode' s', fillSlot sb slot inode s = .ok (inode', s') ∧ Filled sb n s inode p b s' inode' := by
  obtain ⟨b, s1, hset, hnew, hnext⟩ := hsup s rfl
  obtain ⟨s2, hread, hbecomes, hself⟩ := ext2BlockRead_ok s1 b
  have hzero := setData_becomes hself fun _ => 0
  rw [hbecomes.view] at hzero
  generalize hs3 : s2.setData (ext2Block2Lba b) (fun _ => 0) = s3 at hzero
  have hempty3 : newEmptyBlock sb inode s = .ok (b, s3) := by
    rw [newEmptyBlock, hset, ok_bind]
    dsimp only
    rw [hread, ok_bind]
    dsimp only
    rw [hs3]
  have hvalid : ∀ no, s.Valid no → s3.Valid no :=
    fun no hno => hzero.valid _ (hbecomes.valid _ (setBlockBitmap_valid hset hno))
  have hnode3 : ∀ q, TreePlace q → inodeNode s3.view inode q = inodeNode s.view inode q := by
    intro q hq
    rw [hzero.view]
    exact hnew.node_zeroed hwf _ hq
  have hpage : s3.view (ext2Block2Lba b) = fun _ => 0 := by
    rw [hzero.view]
    exact update_self ..
  have hother : ∀ no, s3.view no ≠ s1.view no → no = ext2Block2Lba b := by
    intro no hno
    by_contra hne
    rw [hzero.view] at hno
    exact hno (update_of_ne hne _ _)
  cases hslot with
  | blocks hi =>
    rename_i i
    have hok : fillSlot sb (.blocks i) inode s =
        .ok (({ inode with blocks := update inode.blocks i b } : Inode).addBlock, s3) := by
      rw [fillSlot, hempty3, ok_bind]
      rfl
    refine ⟨b, _, s3, hok, hnew.filled hnext (Forest.place_nil _) hempty ?_
      (fun no hno => Or.inl (hother no hno)) hvalid rfl⟩
    intro q hq
    have hblocks : (({ inode with blocks := update inode.blocks i b } : Inode).addBlock).blocks =
        update inode.blocks i b := rfl
    have hplant := treeNode_plant (oneFile_zero inode) hi
      ((hnode3 _ (Forest.place_nil _)).trans hempty) (fun _ => hpage) hblocks q hq
    rw [update_oneFile] at hplant
    rw [← hnode3 q hq]
    exact hplant
  | ptr hp hparent hvalidPage =>
    rename_i i j js
    have hjs := (Forest.place_concat.1 hp).1
    have hwf3 : TreeWf s3.view inode := hwf.congr hnode3
    change inodeNode s.view inode ((0, i), js) ≠ 0 at hparent
    rw [← hnode3 _ hjs] at hparent
    rw [← hnode3 _ hp] at hempty
    obtain ⟨page, hpageNo⟩ : ∃ page, page = ext2Block2Lba (inodeNode s.view inode ((0, i), js)) :=
      ⟨_, rfl⟩
    change s.Valid (ext2Block2Lba (inodeNode s.view inode ((0, i), js))) at hvalidPage
    rw [← hpageNo] at hvalidPage
    have hvalid3 := hvalid page hvalidPage
    have hstore := setData_becomes hvalid3 (setPtrAt (s3.view page) j b)
    refine ⟨b, inode.addBlock, s3.setData page (setPtrAt (s3.view page) j b), ?_, hnew.filled hnext hp
      ((hnode3 _ hp).symm.trans hempty) ?_ ?_ (fun no hno => hstore.valid _ (hvalid no hno)) rfl⟩
    · rw [fillSlot, hempty3, ok_bind, ← hvalid3.data_eq, hpageNo]
      rfl
    · intro q hq
      rw [hstore.view, ← hnode3 q hq, inodeNode_addBlock]
      exact treeNode_graft hwf3.once hwf3.lt hnew.lt
        (fun q' hq' => (hnode3 q' hq').trans_ne (hnew.notNode q' hq')) hp hparent hempty hpage
        (hpageNo.trans (congrArg ext2Block2Lba (hnode3 _ hjs).symm)) q hq
    · intro no hno
      by_cases hself : no = page
      · rw [hnode3 _ hjs] at hparent
        exact Or.inr ⟨_, hjs, hparent, hself.trans hpageNo⟩
      · rw [hstore.view, update_of_ne hself] at hno
        exact Or.inl (hother no hno)

theorem SlotAt.load_eq {slot : Slot} (h : SlotAt (oneFile inode) s 0 slot p) :
    slot.load inode s = inodeNode s.view inode p :=
  h.load (oneFile_zero inode)

theorem Filled.slotAt {slot : Slot} (h : Filled sb n s inode p b s' inode')
    (hslot : SlotAt (oneFile inode) s 0 slot p) : SlotAt (oneFile inode') s' 0 slot p :=
  hslot.keep (fun q hq hne => (h.node q hq).trans (if_neg hne)) h.valid

/-- The blocks `bs` were hung at empty places on the way to `target`, each of them counted. -/
structure Grew (target : (Nat × Nat) × List Nat) (v : Nat → Area) (inode : Inode) (v' : Nat → Area)
    (inode' : Inode) (bs : List Nat) : Prop where
  wf : TreeWf v' inode'
  keep : ∀ q, TreePlace q → inodeNode v inode q ≠ 0 → inodeNode v' inode' q = inodeNode v inode q
  new : ∀ q, TreePlace q → inodeNode v inode q = 0 → inodeNode v' inode' q ≠ 0 →
    q.1 = target.1 ∧ q.2 <+: target.2
  nodup : bs.Nodup
  mem : ∀ b, b ∈ bs ↔ InTree v' inode' b ∧ ¬ InTree v inode b
  blockCnt : inode'.blockCnt =
    if bs = [] then inode.blockCnt else (inode.blockCnt + bs.length) % 2 ^ 32

variable {target : (Nat × Nat) × List Nat} {bs bs' : List Nat}

theorem Grew.refl (h : TreeWf v inode) : Grew target v inode v inode [] where
  wf := h
  keep _ _ _ := rfl
  new _ _ hzero hne := absurd hzero hne
  nodup := List.nodup_nil
  mem _ := iff_of_false List.not_mem_nil fun hb => hb.2 hb.1
  blockCnt := rfl

theorem Grew.inTree (h : Grew target v inode v' inode' bs) (hb : InTree v inode b) :
    InTree v' inode' b := by
  obtain ⟨hne, q, hq, rfl⟩ := hb
  exact ⟨hne, q, hq, h.keep q hq hne⟩

theorem Grew.trans {v'' : Nat → Area} {inode'' : Inode} (h : Grew target v inode v' inode' bs)
    (h' : Grew target v' inode' v'' inode'' bs') : Grew target v inode v'' inode'' (bs ++ bs') where
  wf := h'.wf
  keep := by
    intro q hq hne
    have hfirst := h.keep q hq hne
    rw [← hfirst] at hne ⊢
    exact h'.keep q hq hne
  new := by
    intro q hq hzero hne
    by_cases hmid : inodeNode v' inode' q = 0
    · exact h'.new q hq hmid hne
    · exact h.new q hq hzero hmid
  nodup := by
    refine List.nodup_append.2 ⟨h.nodup, h'.nodup, ?_⟩
    rintro b hb _ hb' rfl
    exact ((h'.mem b).1 hb').2 ((h.mem b).1 hb).1
  mem := by
    intro b
    rw [List.mem_append, h.mem, h'.mem]
    constructor
    · rintro (⟨hin, hout⟩ | ⟨hin, hout⟩)
      · exact ⟨h'.inTree hin, hout⟩
      · exact ⟨hin, fun hold => hout (h.inTree hold)⟩
    · rintro ⟨hin, hout⟩
      by_cases hmid : InTree v' inode' b
      · exact Or.inl ⟨hmid, hout⟩
      · exact Or.inr ⟨hin, hmid⟩
  blockCnt := by
    cases bs with
    | nil =>
      rw [h'.blockCnt, h.blockCnt, if_pos rfl]
      rfl
    | cons b bs =>
      cases bs' with
      | nil =>
        rw [h'.blockCnt, h.blockCnt, if_pos rfl, List.append_nil]
      | cons b' bs' =>
        rw [h'.blockCnt, h.blockCnt, if_neg (List.cons_ne_nil _ _), if_neg (List.cons_ne_nil _ _),
          if_neg (by simp), Nat.mod_add_mod, Nat.add_assoc, List.length_append]

theorem Filled.grew {js : List Nat} (h : Filled sb n s inode (target.1, js) b s' inode')
    (hwf : TreeWf s.view inode) (hp : TreePlace (target.1, js))
    (hempty : inodeNode s.view inode (target.1, js) = 0) (hpre : js <+: target.2) :
    Grew target s.view inode s'.view inode' [b] := by
  have hself : inodeNode s'.view inode' (target.1, js) = b := (h.node _ hp).trans (if_pos rfl)
  have hother : ∀ q, TreePlace q → q ≠ (target.1, js) →
      inodeNode s'.view inode' q = inodeNode s.view inode q :=
    fun q hq hne => (h.node q hq).trans (if_neg hne)
  refine ⟨⟨hwf.once.update h.notNode hself hother, ?_⟩, ?_, ?_, List.pairwise_singleton _ b, ?_, ?_⟩
  · intro q hq hne
    by_cases heq : q = (target.1, js)
    · rw [heq, hself]
      exact h.lt
    · rw [hother q hq heq] at hne ⊢
      exact hwf.lt q hq hne
  · intro q hq hne
    refine hother q hq ?_
    rintro rfl
    exact hne hempty
  · intro q hq hzero hne
    by_cases heq : q = (target.1, js)
    · rw [heq]
      exact ⟨rfl, hpre⟩
    · exact absurd ((hother q hq heq).trans hzero) hne
  · intro c
    rw [List.mem_singleton]
    constructor
    · rintro rfl
      exact ⟨⟨h.ne_zero, _, hp, hself⟩, fun ⟨_, q, hq, heq⟩ => h.notNode q hq heq⟩
    · rintro ⟨⟨hne, q, hq, hnode⟩, hout⟩
      by_cases heq : q = (target.1, js)
      · rw [← hnode, heq, hself]
      · exact absurd ⟨hne, q, hq, (hother q hq heq).symm.trans hnode⟩ hout
  · rw [h.blockCnt, if_neg (List.cons_ne_nil _ _), List.length_singleton]

theorem Supplies.of_succ (h : Supplies sb (n + 1) v inode) : Supplies sb n v inode := by
  induction n generalizing v inode with
  | zero => trivial
  | succ n ih =>
    intro s hs
    obtain ⟨b, s', hset, hnew, hnext⟩ := h s hs
    exact ⟨b, s', hset, hnew, fun v' inode' hhangs => ih (hnext v' inode' hhangs)⟩

theorem fillSlot_grew {slot : Slot} {i : Nat} {js ks : List Nat} (hwf : TreeWf s.view inode)
    (hsup : Supplies sb (n + 1) s.view inode) (hslot : SlotAt (oneFile inode) s 0 slot ((0, i), js))
    (hpre : js <+: ks) :
    ∃ inode' s' bs, (if slot.load inode s = 0 then fillSlot sb slot inode s else .ok (inode, s)) =
        .ok (inode', s') ∧ Grew ((0, i), ks) s.view inode s'.view inode' bs ∧
      SlotAt (oneFile inode') s' 0 slot ((0, i), js) ∧
      inodeNode s'.view inode' ((0, i), js) ≠ 0 ∧ Supplies sb n s'.view inode' ∧
      ∀ q, TreePlace q → q ≠ ((0, i), js) →
        inodeNode s'.view inode' q = inodeNode s.view inode q := by
  rw [hslot.load_eq]
  split
  · rename_i hempty
    obtain ⟨b, inode', s', hok, hfilled⟩ := fillSlot_filled hwf hsup hslot hempty
    refine ⟨inode', s', [b], hok, Filled.grew hfilled hwf hslot.place hempty hpre, hfilled.slotAt hslot, ?_,
      hfilled.supplies, fun q hq hne => (hfilled.node q hq).trans (if_neg hne)⟩
    rw [hfilled.node _ hslot.place, if_pos rfl]
    exact hfilled.ne_zero
  · rename_i hused
    exact ⟨inode, s, [], rfl, .refl hwf, hslot, hused, hsup.of_succ, fun _ _ _ => rfl⟩

theorem allocBlockLoop_grew {id : Nat → Nat} {i : Nat} {js ks : List Nat} {slot : Slot}
    (hwf : TreeWf s.view inode) (hsup : Supplies sb (n + 1) s.view inode)
    (hslot : SlotAt (oneFile inode) s 0 slot ((0, i), js)) (hpath : ks = js ++ idPath id n)
    (hplace : TreePlace ((0, i), ks)) (hleaf : inodeNode s.view inode ((0, i), ks) = 0) :
    ∃ bid inode' s' bs, allocBlockLoop sb id n slot inode s = .ok (bid, inode', s') ∧
      Grew ((0, i), ks) s.view inode s'.view inode' bs ∧
      inodeNode s'.view inode' ((0, i), ks) = bid ∧ bid ≠ 0 := by
  have hpre : js <+: ks := hpath ▸ List.prefix_append _ _
  induction n generalizing s inode slot js with
  | zero =>
    rw [idPath, List.append_nil] at hpath
    subst hpath
    obtain ⟨b, inode', s', hok, hfilled⟩ := fillSlot_filled hwf hsup hslot hleaf
    have hself := (hfilled.node _ hplace).trans (if_pos rfl)
    refine ⟨b, inode', s', [b], ?_, Filled.grew hfilled hwf hplace hleaf hpre, hself, hfilled.ne_zero⟩
    rw [allocBlockLoop, hslot.load_eq, if_pos hleaf, hok, ok_bind]
    dsimp only
    rw [(hfilled.slotAt hslot).load_eq, hself]
  | succ n ih =>
    have hne : ((0, i), ks) ≠ ((0, i), js) := by
      intro heq
      have hlen := congrArg List.length (hpath.symm.trans (congrArg Prod.snd heq))
      rw [List.length_append, length_idPath] at hlen
      dsimp only at hlen
      omega
    obtain ⟨inode1, s1, bs1, hok, hgrew, hslot1, hused, hsup1, hother⟩ :=
      fillSlot_grew hwf hsup hslot hpre
    obtain ⟨s2, hread, hbecomes, hvalid⟩ := ext2BlockRead_ok s1 (slot.load inode1 s1)
    have hleaf1 := (hother _ hplace hne).trans hleaf
    have hwf2 := hgrew.wf
    have hpath' : ks = (js ++ [id n]) ++ idPath id n := by
      rw [hpath, idPath, List.append_assoc, List.singleton_append]
    have hnext : TreePlace ((0, i), js ++ [id n]) := by
      rw [hpath'] at hplace
      exact hplace.of_append
    rw [hslot1.load_eq] at hread hvalid
    rw [← hbecomes.view] at hgrew hread hvalid hused hsup1 hleaf1 hwf2
    obtain ⟨bid, inode', s', bs, hloop, hgrew', hnode, hbid⟩ :=
      ih hwf2 hsup1 (.ptr hnext hused hvalid) hpath' hleaf1 (hpath' ▸ List.prefix_append _ _)
    refine ⟨bid, inode', s', _, ?_, hgrew.trans hgrew', hnode, hbid⟩
    rw [allocBlockLoop_succ, hok, ok_bind]
    dsimp only
    rw [hslot1.load_eq, ← hbecomes.view, hread, ok_bind]
    exact hloop

theorem setBlockBitmap_filled {i : Nat} (hi : i < nDirectBlock) (hsup : Supplies sb (n + 1) s.view inode)
    (hempty : inodeNode s.view inode ((0, i), []) = 0) :
    ∃ b s', setBlockBitmap sb inode s = .ok (b, s') ∧ Filled sb n s inode ((0, i), []) b s'
      { inode.addBlock with blocks := update inode.addBlock.blocks i b } := by
  obtain ⟨b, s', hset, hnew, hnext⟩ := hsup s rfl
  have hlt : i < 15 := hi.trans (by decide)
  have hheight : ¬ 0 < slotHeight i := by
    unfold slotHeight
    unfold nDirectBlock at hi
    omega
  refine ⟨b, s', hset, hnew.filled hnext (Forest.place_nil _) hempty ?_ (fun no hno => absurd rfl hno)
    (fun no hno => setBlockBitmap_valid hset hno) rfl⟩
  intro q hq
  have hblocks : ({ inode.addBlock with
      blocks := update inode.addBlock.blocks i b } : Inode).blocks =
        update inode.blocks i b := rfl
  have hplant := treeNode_plant (oneFile_zero inode) hlt ((hnew.node (Forest.place_nil _)).trans hempty)
    (fun hpos => absurd hpos hheight) hblocks q hq
  rw [update_oneFile] at hplant
  rw [← hnew.node hq]
  exact hplant

theorem allocBlock_grew (hwf : TreeWf s.view inode) (hlt : bno < maxBno)
    (hempty : inodeNode s.view inode (leafPlace 0 bno) = 0)
    (hsup : Supplies sb ((blockPath bno).2.length + 1) s.view inode) :
    ∃ bid inode' s' bs, allocBlock sb inode bno s = .ok (bid, inode', s') ∧
      Grew (leafPlace 0 bno) s.view inode s'.view inode' bs ∧
      inodeNode s'.view inode' (leafPlace 0 bno) = bid ∧ bid ≠ 0 := by
  have hplace := leafPlace_place (f := 0) hlt
  by_cases hdirect : bno < nDirectBlock
  · have hpath : leafPlace 0 bno = ((0, bno), []) := by
      rw [leafPlace, show blockPath bno = (bno, []) from if_pos hdirect]
    rw [hpath] at hempty hplace ⊢
    obtain ⟨b, s', hset, hfilled⟩ := setBlockBitmap_filled hdirect hsup hempty
    have hblock : inode.blocks bno = 0 :=
      (fileRoot_of_some (oneFile_zero inode) (hdirect.trans (by decide))).symm.trans hempty
    refine ⟨b, _, s', [b], ?_, Filled.grew hfilled hwf hplace hempty (List.prefix_refl []),
      (hfilled.node _ hplace).trans (if_pos rfl), hfilled.ne_zero⟩
    rw [allocBlock, if_pos hdirect, hblock, assertk_pos rfl, hset, ok_bind]
  · obtain ⟨layer, id, hlayer, hslot, hpath⟩ := leafPlace_indirect 0 (Nat.not_lt.1 hdirect) hlt
    have hlen : (blockPath bno).2.length = layer + 1 := by
      rw [show (blockPath bno).2 = idPath id (layer + 1) from congrArg Prod.snd hpath, length_idPath]
    rw [hlen] at hsup
    rw [hpath] at hempty hplace ⊢
    rw [allocBlock, if_neg hdirect, hlayer, ok_bind]
    exact allocBlockLoop_grew hwf hsup (.blocks hslot) rfl hplace hempty

theorem getBid_fst (hlt : bno < maxBno) (inode : Inode) (s : PageCache) :
    (getBid inode bno s).map Prod.fst = .ok (inodeNode s.view inode (leafPlace 0 bno)) := by
  obtain ⟨s', hbid, _⟩ := getBid_ok hlt inode s
  rw [hbid, inodeNode, treeNode_leafPlace (oneFile_zero inode) hlt]
  rfl

theorem Grew.getBid (h : Grew (leafPlace 0 bno) s.view inode s'.view inode' bs) (hbno : bno < maxBno)
    {c : Nat} (hne : c ≠ bno) :
    (getBid inode' c s').map Prod.fst = (getBid inode c s).map Prod.fst := by
  rcases Nat.lt_or_ge c maxBno with hlt | hge
  · rw [getBid_fst hlt, getBid_fst hlt]
    have hplace := leafPlace_place (f := 0) hlt
    by_cases hzero : inodeNode s.view inode (leafPlace 0 c) = 0
    · by_contra hdiff
      rw [hzero] at hdiff
      obtain ⟨hslot, hpre⟩ := h.new _ hplace hzero fun heq => hdiff (congrArg _ heq)
      -- Paths from one pointer of the inode to data are equally long.
      have hlen : (leafPlace 0 c).2.length = (leafPlace 0 bno).2.length := by
        rw [leafPlace_length hlt, leafPlace_length hbno, hslot]
      have hpath : blockPath c = blockPath bno :=
        Prod.ext (congrArg Prod.snd hslot) (hpre.eq_of_length hlen)
      exact hne (blockPath_inj hpath)
    · rw [h.keep _ hplace hzero]
  · rw [getBid_error hge, getBid_error hge]

/-- `alloc_block` for a block number that is not mapped maps it, and nothing but it. -/
theorem allocBlock_maps (hwf : TreeWf s.view inode) (hlt : bno < maxBno)
    (hempty : (getBid inode bno s).map Prod.fst = .ok 0)
    (hsup : Supplies sb ((blockPath bno).2.length + 1) s.view inode) :
    ∃ bid inode' s', allocBlock sb inode bno s = .ok (bid, inode', s') ∧ bid ≠ 0 ∧
      (getBid inode' bno s').map Prod.fst = .ok bid ∧
      (∀ c, c ≠ bno → (getBid inode' c s').map Prod.fst = (getBid inode c s).map Prod.fst) ∧
      TreeWf s'.view inode' ∧
      ∃ bs : List Nat, bs.Nodup ∧ (∀ b, b ∈ bs ↔ InTree s'.view inode' b ∧ ¬ InTree s.view inode b) ∧
        inode'.blockCnt = (inode.blockCnt + bs.length) % 2 ^ 32 := by
  rw [getBid_fst hlt] at hempty
  have hzero := Except.ok.inj hempty
  obtain ⟨bid, inode', s', bs, hok, hgrew, hnode, hbid⟩ := allocBlock_grew hwf hlt hzero hsup
  have hplace := leafPlace_place (f := 0) hlt
  refine ⟨bid, inode', s', hok, hbid, ?_, fun c hc => hgrew.getBid hlt hc, hgrew.wf, bs, hgrew.nodup,
    hgrew.mem, ?_⟩
  · rw [getBid_fst hlt, hnode]
  · rw [hgrew.blockCnt, if_neg]
    rintro rfl
    -- Something was hung, since the place is in use now.
    have hold : InTree s.view inode bid := by
      by_contra hout
      exact List.not_mem_nil ((hgrew.mem bid).2 ⟨⟨hbid, _, hplace, hnode⟩, hout⟩)
    obtain ⟨_, q, hq, hqnode⟩ := hold
    have hkeep := hgrew.keep q hq (hqnode.trans_ne hbid)
    have hsame := hgrew.wf.once q _ hq hplace ((hkeep.trans hqnode).trans_ne hbid)
      ((hkeep.trans hqnode).trans hnode.symm)
    rw [hsame, hzero] at hqnode
    exact hbid hqnode.symm

/-- A file in a well-formed file system of which the first block is there, with `n` blocks free in the
group `g`. -/
structure Stocked (sb : Ext2SbInfo) (R : Set Nat) (g : Nat) (n : Nat) (v : Nat → Area) (inode : Inode) :
    Prop where
  wf : FsWf sb R (oneFile inode) v
  counts : ∀ (g : Nat) info, sb.desc[g]? = some info →
    groupFree v g = clearCount (v (bitmapNo info)) sb.blockPerGroup
  blocks : inode.blocks 0 ≠ 0
  blockCnt : 0 < inode.blockCnt ∧ inode.blockCnt + n < 2 ^ 32
  free : ∃ info, sb.desc[g]? = some info ∧ n ≤ clearCount (v (bitmapNo info)) sb.blockPerGroup

variable {R : Set Nat} {g : Nat}

theorem FsWf.treeWf (h : FsWf sb R (oneFile inode) v) : TreeWf v inode where
  once := h.once
  lt _ hp hne := h.lt_maxBlock hp hne

theorem inodeNode_root (v : Nat → Area) (inode : Inode) : inodeNode v inode ((0, 0), []) = inode.blocks 0 :=
  fileRoot_of_some (oneFile_zero inode) (by decide : 0 < 15)

theorem Stocked.setBlockBitmap_ok (h : Stocked sb R g (n + 1) s.view inode)
    (hle : sb.blockPerGroup ≤ blockSize) :
    ∃ b s', setBlockBitmap sb inode s = .ok (b, s') := by
  obtain ⟨info, hg, hfree⟩ := h.free
  have hspace : groupFree s.view g ≠ 0 := by
    rw [h.counts g info hg]
    omega
  have hused := h.wf.blocks_used (oneFile_zero inode) (by decide) h.blocks
  obtain ⟨info0, hinfo0, _⟩ := hused
  obtain ⟨g', s1, hgroup, hchosen⟩ := findGroup_chosen h.wf.layout (lt_groupCnt hg) hspace
    (fun _ => lt_groupCnt hinfo0) (Or.inr h.blocks)
  obtain ⟨info', hg'⟩ : ∃ info', sb.desc[g']? = some info' :=
    ⟨_, List.getElem?_eq_getElem hchosen.lt⟩
  rw [ChosenGroup, if_neg h.blockCnt.1.ne'] at hchosen
  obtain ⟨_, k, _, _, hne, _⟩ := hchosen
  rw [h.counts g' info' hg'] at hne
  obtain ⟨m, hm, hclear⟩ := exists_clear_of_clearCount hne
  exact setBlockBitmap_total hgroup hg' (hm.trans_le hle) hclear

theorem Stocked.newTo (h : Stocked sb R g (n + 1) s.view inode)
    (hset : setBlockBitmap sb inode s = .ok (b, s')) :
    NewTo s.view inode b s'.view ∧
      ∀ v' inode', Hangs s'.view inode b v' inode' → Stocked sb R g n v' inode' := by
  have hl := h.wf.layout
  obtain ⟨g', info', m, hg', hm, _, hclear, rfl, hbecomes⟩ := setBlockBitmap_taken hl h.wf.padded hset
  have hwf := h.wf.taken hg' hm
  have hfresh := h.wf.fresh_taken hg' hm hclear
  rw [hbecomes.view]
  constructor
  · refine ⟨hfresh.ne_zero hwf, hfresh.used.lt_maxBlock hl, ?_, ?_⟩
    · exact fun p hp => (h.wf.treeNode_taken hg' hp).symm.trans_ne (hfresh.notNode p hp)
    · exact fun p hp hne => taken_of_not_metaPage hg' (h.wf.metaPage p hp hne)
  · intro v' inode' hhangs
    obtain ⟨p, hp, hpempty, hnode⟩ := hhangs.node
    have hmeta : ∀ no, MetaPage sb no → v' no = taken s.view info' g' m no := by
      intro no hno
      by_contra hdiff
      rcases hhangs.view no hdiff with rfl | ⟨q, hq, hne, rfl⟩
      · exact hfresh.metaPage hno
      · exact hwf.metaPage q hq hne hno
    have hmap : ∀ (g : Nat) (info : InfoDescriptor), sb.desc[g]? = some info →
        v' (bitmapNo info) = taken s.view info' g' m (bitmapNo info) :=
      fun g info hg => hmeta _ (Or.inl ⟨g, info, hg, rfl⟩)
    have hcnt := h.blockCnt
    refine ⟨hfresh.hang hwf hmeta hnode hp, ?_, ?_, ?_, ?_⟩
    · intro g info hg
      rw [groupFree, hmeta _ (Or.inr ⟨g, lt_groupCnt hg, rfl⟩), hmap g info hg]
      exact groupFree_taken hl h.counts hg' hm hclear hg
    · have hroot := hnode ((0, 0), []) (Forest.place_nil _)
      rw [if_neg, inodeNode_root, inodeNode_root] at hroot
      · rw [hroot]
        exact h.blocks
      · rintro rfl
        rw [inodeNode_root] at hpempty
        exact h.blocks hpempty
    · have hsmall : (inode.blockCnt + 1) % 2 ^ 32 = inode.blockCnt + 1 := Nat.mod_eq_of_lt (by omega)
      rw [hhangs.blockCnt, hsmall]
      omega
    · obtain ⟨info, hg, hfree⟩ := h.free
      refine ⟨info, hg, ?_⟩
      rw [hmap g info hg, taken_bitmapNo hl hg' hg]
      split
      · rename_i heq
        subst heq
        cases hg.symm.trans hg'
        have := clearCount_setBit hm hclear
        omega
      · omega

theorem Stocked.supplies (hle : sb.blockPerGroup ≤ blockSize) (h : Stocked sb R g n v inode) :
    Supplies sb n v inode := by
  induction n generalizing v inode with
  | zero => trivial
  | succ n ih =>
    rintro s rfl
    obtain ⟨b, s', hset⟩ := h.setBlockBitmap_ok hle
    obtain ⟨hnew, hnext⟩ := h.newTo hset
    exact ⟨b, s', hset, hnew, fun v' inode' hhangs => ih (hnext v' inode' hhangs)⟩

def shortFile : Inode where
  state := .old
  type := ext2IfReg
  size := 4096
  offset := 0
  blockCnt := 1
  blocks := update (fun _ => 0) 0 4

theorem shortFile_stocked : Stocked tinySb {0} 0 4 tinyCache.view shortFile where
  wf := by
    have hfresh : FreshBlock tinySb {0} tinyFiles tinyCache.view 4 := by
      refine ⟨⟨⟨2⟩, rfl, by decide⟩, ?_, by simp, ?_⟩
      · intro p _
        rw [treeNode_tinyFiles]
        decide
      · intro hmeta
        have := tinySb_metaPage hmeta
        revert this
        decide
    have hblocks : shortFile.blocks = update emptyFile.blocks 0 4 := rfl
    have hplant := (hfresh.plant tinyFs_wf (oneFile_zero emptyFile) (by decide) (treeNode_tinyFiles _)
      (fun hpos => absurd hpos (by decide)) hblocks).1
    rw [show tinyFiles = oneFile emptyFile from rfl, update_oneFile] at hplant
    exact hplant
  counts := tiny_accounting.counts
  blocks := by decide
  blockCnt := by decide
  free := ⟨⟨2⟩, rfl, by decide +kernel⟩

/-- The first block behind the triply indirect pointer. -/
theorem allocBlock_maps_shortFile : ∃ bid inode' s',
    allocBlock tinySb shortFile 1049612 tinyCache = .ok (bid, inode', s') ∧ bid ≠ 0 ∧
      (getBid inode' 1049612 s').map Prod.fst = .ok bid ∧
      (∀ c, c ≠ 1049612 →
        (getBid inode' c s').map Prod.fst = (getBid shortFile c tinyCache).map Prod.fst) ∧
      TreeWf s'.view inode' ∧
      ∃ bs : List Nat, bs.Nodup ∧
        (∀ b, b ∈ bs ↔ InTree s'.view inode' b ∧ ¬ InTree tinyCache.view shortFile b) ∧
        inode'.blockCnt = (1 + bs.length) % 2 ^ 32 := by
  have hempty : (getBid shortFile 1049612 tinyCache).map Prod.fst = .ok 0 := by
    rw [getBid_fst (by decide)]
    rfl
  exact allocBlock_maps shortFile_stocked.wf.treeWf (by decide) hempty
    (Stocked.supplies (by decide) shortFile_stocked)

end QuarkOS
