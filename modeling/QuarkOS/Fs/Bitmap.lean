import QuarkOS.Fs.Blocks

/-!
# The accounts of the block groups

Every group has a bitmap page and a descriptor with the number of its free blocks. `Accounting` says
that the two agree, and that the blocks in the trees of the files are marked used and hang at one place.
`set_block_bitmap` keeps the accounts. `clear_block_bitmap` takes the number of the block, not the number
within the group, for the number of the bit, so it keeps them for the blocks of the first group.
-/

namespace QuarkOS

open Bytes PageCache Function

structure Ext2SbInfo.Layout (sb : Ext2SbInfo) : Prop where
  blockPerGroup_pos : 0 < sb.blockPerGroup
  blockPerGroup_le : sb.blockPerGroup ≤ 8 * blockSize
  blocks_le : sb.groupCnt * sb.blockPerGroup ≤ maxBlock
  bitmap_inj : ∀ (g g' : Nat) info info', sb.desc[g]? = some info → sb.desc[g']? = some info' →
    bitmapNo info = bitmapNo info' → g = g'
  bitmap_ne : ∀ (g g' : Nat) info, sb.desc[g]? = some info → g' < sb.groupCnt → bitmapNo info ≠ gdNo g'

def MetaPage (sb : Ext2SbInfo) (no : Nat) : Prop :=
  (∃ (g : Nat) (info : InfoDescriptor), sb.desc[g]? = some info ∧ no = bitmapNo info) ∨
    ∃ g < sb.groupCnt, no = gdNo g

/-- The bit of a block in the bitmap of its group is set. -/
def Used (sb : Ext2SbInfo) (v : Nat → Area) (b : Nat) : Prop :=
  ∃ info, sb.desc[b / sb.blockPerGroup]? = some info ∧
    bit (v (bitmapNo info)) (b % sb.blockPerGroup) = true

/-- The bits that `set_next_zero_bit` looks at and that stand for no block are set. -/
def Padded (sb : Ext2SbInfo) (v : Nat → Area) : Prop :=
  ∀ (g : Nat) info, sb.desc[g]? = some info → ∀ n, sb.blockPerGroup ≤ n → n < blockSize →
    bit (v (bitmapNo info)) n = true

def groupFree (v : Nat → Area) (g : Nat) : Nat := freeBlockCnt (v (gdNo g)) (descriptorOffset g)

/-- The pointer `i.2` of the file `i.1`. -/
def fileRoot (files : Nat → Option Inode) (i : Nat × Nat) : Nat :=
  match files i.1 with
  | none => 0
  | some inode => if i.2 < 15 then inode.blocks i.2 else 0

def treeHeight (i : Nat × Nat) : Nat := slotHeight i.2

/-- A pointer of a file, and the pointers to follow from it. -/
def TreePlace (p : (Nat × Nat) × List Nat) : Prop := Forest.Place treeHeight 1024 p

def treeNode (files : Nat → Option Inode) (v : Nat → Area) (p : (Nat × Nat) × List Nat) : Nat :=
  Forest.node (fileRoot files) (childOf v) p

structure Accounting (sb : Ext2SbInfo) (files : Nat → Option Inode) (v : Nat → Area) : Prop where
  counts : ∀ (g : Nat) info, sb.desc[g]? = some info →
    groupFree v g = clearCount (v (bitmapNo info)) sb.blockPerGroup
  used : ∀ p, TreePlace p → treeNode files v p ≠ 0 → Used sb v (treeNode files v p)
  once : Forest.Apart treeHeight 1024 (treeNode files v)
  metaPage : ∀ p, TreePlace p → treeNode files v p ≠ 0 →
    ¬ MetaPage sb (ext2Block2Lba (treeNode files v p))

variable {sb : Ext2SbInfo} {files : Nat → Option Inode} {v v' : Nat → Area} {g g' n : Nat}
  {info info' : InfoDescriptor} {s s' : PageCache} {inode : Inode} {bid : Nat}

theorem lt_groupCnt (h : sb.desc[g]? = some info) : g < sb.groupCnt :=
  (List.getElem?_eq_some_iff.1 h).1

theorem treeNode_congr {p : (Nat × Nat) × List Nat} (hp : TreePlace p)
    (h : ∀ q, TreePlace q → q.2.length < treeHeight q.1 → treeNode files v q ≠ 0 →
      v' (ext2Block2Lba (treeNode files v q)) = v (ext2Block2Lba (treeNode files v q))) :
    treeNode files v' p = treeNode files v p := by
  apply Forest.node_eq_of_sameInside _ hp
  intro q hq hlen hne j _
  rw [childOf, childOf]
  exact congrArg (ptrAt · j) (h q hq hlen hne)

theorem update_bitmapNo (hl : sb.Layout) (hg : sb.desc[g]? = some info)
    (hg' : sb.desc[g']? = some info') (f : Area → Area) :
    update v (bitmapNo info) (f (v (bitmapNo info))) (bitmapNo info') =
      if g' = g then f (v (bitmapNo info')) else v (bitmapNo info') := by
  split
  · rename_i heq
    subst heq
    cases hg.symm.trans hg'
    exact update_self ..
  · rename_i hne
    exact update_of_ne (fun heq => hne (hl.bitmap_inj g' g info' info hg' hg heq)) ..

theorem withFreeBlockCnt_bitmapNo (hl : sb.Layout) (hg : g < sb.groupCnt)
    (hg' : sb.desc[g']? = some info') (f : Nat → Nat) :
    withFreeBlockCnt v g f (bitmapNo info') = v (bitmapNo info') :=
  update_of_ne (hl.bitmap_ne g' g info' hg' hg) ..

theorem groupFree_update_bitmapNo (hl : sb.Layout) (hg : sb.desc[g]? = some info)
    (hg' : g' < sb.groupCnt) (a : Area) :
    groupFree (update v (bitmapNo info) a) g' = groupFree v g' := by
  rw [groupFree, groupFree, update_of_ne (hl.bitmap_ne g g' info hg hg').symm]

theorem Ext2SbInfo.Layout.lt_maxBlock (hl : sb.Layout) (hg : g < sb.groupCnt) : g < maxBlock := by
  have hmul : sb.groupCnt ≤ sb.groupCnt * sb.blockPerGroup :=
    Nat.le_mul_of_pos_right _ hl.blockPerGroup_pos
  exact (Nat.lt_of_lt_of_le hg hmul).trans_le hl.blocks_le

theorem Ext2SbInfo.Layout.block_lt (hl : sb.Layout) (hg : g < sb.groupCnt) (hn : n < sb.blockPerGroup) :
    n + g * sb.blockPerGroup < maxBlock := by
  have hsucc := Nat.mul_le_mul_right sb.blockPerGroup (Nat.succ_le_of_lt hg)
  have hle := hl.blocks_le
  rw [Nat.succ_mul] at hsucc
  omega

theorem load_descriptor_of_ne (hlt : g < maxBlock) (hlt' : g' < maxBlock) {i j w w' x : Nat}
    (hi : i + w ≤ 32) (hj : j + w' ≤ 32) (hne : g' ≠ g ∨ j + w' ≤ i ∨ i + w ≤ j) :
    load (update v (gdNo g) (store (v (gdNo g)) (descriptorOffset g + i) w x) (gdNo g'))
      (descriptorOffset g' + j) w' = load (v (gdNo g')) (descriptorOffset g' + j) w' := by
  unfold maxBlock at hlt hlt'
  by_cases hpage : gdNo g' = gdNo g
  · have hbid : descriptorBid g' = descriptorBid g := by
      apply ext2Block2Lba_inj _ _ hpage
      · unfold descriptorBid descriptorPerBlock blockSize maxBlock
        omega
      · unfold descriptorBid descriptorPerBlock blockSize maxBlock
        omega
    rw [hpage, update_self, load_store_of_disjoint]
    unfold descriptorBid descriptorPerBlock blockSize at hbid
    unfold descriptorOffset descriptorPerBlock blockSize
    omega
  · rw [update_of_ne hpage]

theorem groupFree_withFreeBlockCnt (hl : sb.Layout) (hg : g < sb.groupCnt) (hg' : g' < sb.groupCnt)
    (f : Nat → Nat) : groupFree (withFreeBlockCnt v g f) g' =
      if g' = g then f (groupFree v g) % 2 ^ 16 else groupFree v g' := by
  split
  · rename_i heq
    rw [heq, groupFree, withFreeBlockCnt, update_self, freeBlockCnt, setFreeBlockCnt, load_store]
    rfl
  · rename_i hne
    exact load_descriptor_of_ne (hl.lt_maxBlock hg) (hl.lt_maxBlock hg') (by decide) (by decide)
      (Or.inl hne)

/-- The view after the bit `n` of the group `g` was taken. -/
def taken (v : Nat → Area) (info : InfoDescriptor) (g n : Nat) : Nat → Area :=
  withFreeBlockCnt (update v (bitmapNo info) (setBit (v (bitmapNo info)) n)) g
    (· + 2 ^ 16 - 1)

theorem taken_bitmapNo (hl : sb.Layout) (hg : sb.desc[g]? = some info)
    (hg' : sb.desc[g']? = some info') : taken v info g n (bitmapNo info') =
      if g' = g then setBit (v (bitmapNo info')) n else v (bitmapNo info') := by
  rw [taken, withFreeBlockCnt_bitmapNo hl (lt_groupCnt hg) hg', update_bitmapNo hl hg hg' (setBit · n)]

theorem taken_of_not_metaPage {no : Nat} (hg : sb.desc[g]? = some info) (h : ¬ MetaPage sb no) :
    taken v info g n no = v no := by
  rw [taken, withFreeBlockCnt, update_of_ne, update_of_ne]
  · exact fun heq => h (Or.inl ⟨g, info, hg, heq⟩)
  · exact fun heq => h (Or.inr ⟨g, lt_groupCnt hg, heq⟩)

theorem used_taken_iff (hl : sb.Layout) (hg : sb.desc[g]? = some info) (hn : n < sb.blockPerGroup)
    (b : Nat) : Used sb (taken v info g n) b ↔ Used sb v b ∨ b = n + g * sb.blockPerGroup := by
  have hpos := hl.blockPerGroup_pos
  have hsplit : b = n + g * sb.blockPerGroup ↔
      b / sb.blockPerGroup = g ∧ b % sb.blockPerGroup = n := by
    constructor
    · rintro rfl
      rw [Nat.add_mul_div_right _ _ hpos, Nat.div_eq_of_lt hn, Nat.zero_add,
        Nat.add_mul_mod_self_right, Nat.mod_eq_of_lt hn]
      exact ⟨rfl, rfl⟩
    · rintro ⟨rfl, rfl⟩
      exact (Nat.mod_add_div' b _).symm
  rw [hsplit]
  constructor
  · rintro ⟨info', hinfo', hbit⟩
    rw [taken_bitmapNo hl hg hinfo'] at hbit
    split at hbit
    · rename_i heq
      rw [bit_setBit] at hbit
      split at hbit
      · rename_i hmod
        exact Or.inr ⟨heq, hmod⟩
      · exact Or.inl ⟨info', hinfo', hbit⟩
    · exact Or.inl ⟨info', hinfo', hbit⟩
  · rintro (⟨info', hinfo', hbit⟩ | ⟨hdiv, hmod⟩)
    · refine ⟨info', hinfo', ?_⟩
      rw [taken_bitmapNo hl hg hinfo']
      split
      · rw [bit_setBit]
        split
        · rfl
        · exact hbit
      · exact hbit
    · refine ⟨info, hdiv ▸ hg, ?_⟩
      rw [taken_bitmapNo hl hg hg, if_pos rfl, hmod, bit_setBit, if_pos rfl]

theorem not_used_of_clear (hl : sb.Layout) (hg : sb.desc[g]? = some info) (hn : n < sb.blockPerGroup)
    (hclear : bit (v (bitmapNo info)) n = false) : ¬ Used sb v (n + g * sb.blockPerGroup) := by
  rintro ⟨info', hinfo', hbit⟩
  rw [Nat.add_mul_div_right _ _ hl.blockPerGroup_pos, Nat.div_eq_of_lt hn, Nat.zero_add] at hinfo'
  rw [Nat.add_mul_mod_self_right, Nat.mod_eq_of_lt hn] at hbit
  cases hg.symm.trans hinfo'
  rw [hclear] at hbit
  cases hbit

theorem Padded.taken (hl : sb.Layout) (h : Padded sb v) (hg : sb.desc[g]? = some info) :
    Padded sb (QuarkOS.taken v info g n) := by
  intro g' info' hg' m hle hlt
  rw [taken_bitmapNo hl hg hg']
  split
  · rw [bit_setBit]
    split
    · rfl
    · exact h g' info' hg' m hle hlt
  · exact h g' info' hg' m hle hlt

theorem setBlockBitmap_taken (hl : sb.Layout) (hpad : Padded sb s.view)
    (h : setBlockBitmap sb inode s = .ok (bid, s')) :
    ∃ (g : Nat) (info : InfoDescriptor) (n : Nat), sb.desc[g]? = some info ∧ n < sb.blockPerGroup ∧
      n < blockSize ∧ bit (s.view (bitmapNo info)) n = false ∧ bid = n + g * sb.blockPerGroup ∧
      Becomes s s' (taken s.view info g n) := by
  obtain ⟨g, info, n, _, hg, hn, hclear, _, hbid, hbecomes⟩ := setBlockBitmap_spec h
  have hlt : n < sb.blockPerGroup := by
    by_contra hge
    rw [hpad g info hg n (Nat.not_lt.1 hge) hn] at hclear
    cases hclear
  rw [Nat.mod_eq_of_lt ((hl.block_lt (lt_groupCnt hg) hlt).trans (by decide))] at hbid
  exact ⟨g, info, n, hg, hlt, hn, hclear, hbid, hbecomes⟩

theorem Accounting.treeNode_taken (ha : Accounting sb files v) (hg : sb.desc[g]? = some info)
    {p : (Nat × Nat) × List Nat} (hp : TreePlace p) :
    treeNode files (taken v info g n) p = treeNode files v p :=
  treeNode_congr hp fun q hq _ hne => taken_of_not_metaPage hg (ha.metaPage q hq hne)

theorem groupFree_taken (hl : sb.Layout) (hcounts : ∀ (g : Nat) info, sb.desc[g]? = some info →
      groupFree v g = clearCount (v (bitmapNo info)) sb.blockPerGroup)
    (hg : sb.desc[g]? = some info) (hn : n < sb.blockPerGroup)
    (hclear : bit (v (bitmapNo info)) n = false) (hg' : sb.desc[g']? = some info') :
    groupFree (taken v info g n) g' =
      clearCount (taken v info g n (bitmapNo info')) sb.blockPerGroup := by
  rw [taken_bitmapNo hl hg hg', QuarkOS.taken,
    groupFree_withFreeBlockCnt hl (lt_groupCnt hg) (lt_groupCnt hg'),
    groupFree_update_bitmapNo hl hg (lt_groupCnt hg),
    groupFree_update_bitmapNo hl hg (lt_groupCnt hg')]
  split
  · rename_i heq
    subst heq
    cases hg.symm.trans hg'
    have hcount := clearCount_setBit hn hclear
    have hle := clearCount_le (setBit (v (bitmapNo info)) n) sb.blockPerGroup
    have hbpg := hl.blockPerGroup_le
    unfold blockSize at hbpg
    rw [hcounts g' info hg]
    omega
  · exact hcounts g' info' hg'

theorem Accounting.taken (hl : sb.Layout) (ha : Accounting sb files v)
    (hg : sb.desc[g]? = some info) (hn : n < sb.blockPerGroup)
    (hclear : bit (v (bitmapNo info)) n = false) :
    Accounting sb files (QuarkOS.taken v info g n) := by
  have hnode : ∀ p, TreePlace p →
      treeNode files (QuarkOS.taken v info g n) p = treeNode files v p :=
    fun p hp => ha.treeNode_taken hg hp
  constructor
  · exact fun g' info' hg' => groupFree_taken hl ha.counts hg hn hclear hg'
  · intro p hp hne
    rw [hnode p hp] at hne ⊢
    exact (used_taken_iff hl hg hn _).2 (Or.inl (ha.used p hp hne))
  · exact ha.once.congr hnode
  · intro p hp hne
    rw [hnode p hp] at hne ⊢
    exact ha.metaPage p hp hne

/-- The view after the block `bid` of the first group was given back. -/
def givenBack (v : Nat → Area) (info : InfoDescriptor) (bid : Nat) : Nat → Area :=
  update (withFreeBlockCnt v 0 (· + 1)) (bitmapNo info)
    (clearBit (withFreeBlockCnt v 0 (· + 1) (bitmapNo info)) bid)

theorem givenBack_bitmapNo (hl : sb.Layout) (hg : sb.desc[0]? = some info)
    (hg' : sb.desc[g']? = some info') : givenBack v info bid (bitmapNo info') =
      if g' = 0 then clearBit (v (bitmapNo info')) bid else v (bitmapNo info') := by
  rw [givenBack, update_bitmapNo hl hg hg' (clearBit · bid),
    withFreeBlockCnt_bitmapNo hl (lt_groupCnt hg) hg']

theorem givenBack_of_not_metaPage {no : Nat} (hg : sb.desc[0]? = some info)
    (h : ¬ MetaPage sb no) : givenBack v info bid no = v no := by
  rw [givenBack, update_of_ne, withFreeBlockCnt, update_of_ne]
  · exact fun heq => h (Or.inr ⟨0, lt_groupCnt hg, heq⟩)
  · exact fun heq => h (Or.inl ⟨0, info, hg, heq⟩)

theorem clearBlockBitmap_givenBack (hbid : bid < sb.blockPerGroup)
    (h : clearBlockBitmap sb bid s = .ok s') :
    ∃ info, sb.desc[0]? = some info ∧ Becomes s s' (givenBack s.view info bid) := by
  obtain ⟨info, hinfo, _, hbecomes⟩ := clearBlockBitmap_spec h
  rw [Nat.div_eq_of_lt hbid] at hinfo hbecomes
  exact ⟨info, hinfo, hbecomes⟩

theorem Padded.givenBack (hl : sb.Layout) (h : Padded sb v) (hg : sb.desc[0]? = some info)
    (hbid : bid < sb.blockPerGroup) : Padded sb (QuarkOS.givenBack v info bid) := by
  intro g' info' hg' m hle hlt
  rw [givenBack_bitmapNo hl hg hg']
  split
  · rw [bit_clearBit, if_neg (by omega)]
    exact h g' info' hg' m hle hlt
  · exact h g' info' hg' m hle hlt

theorem Used.givenBack (hl : sb.Layout) (hg : sb.desc[0]? = some info) {b : Nat}
    (h : Used sb v b) (hne : b ≠ bid) : Used sb (QuarkOS.givenBack v info bid) b := by
  obtain ⟨info', hinfo', hbit⟩ := h
  refine ⟨info', hinfo', ?_⟩
  rw [givenBack_bitmapNo hl hg hinfo']
  split
  · rename_i hzero
    have hlt : b < sb.blockPerGroup :=
      (Nat.div_eq_zero_iff_lt hl.blockPerGroup_pos).1 hzero
    rw [Nat.mod_eq_of_lt hlt] at hbit ⊢
    rw [bit_clearBit, if_neg hne]
    exact hbit
  · exact hbit

theorem Accounting.givenBack (hl : sb.Layout) (ha : Accounting sb files v)
    (hg : sb.desc[0]? = some info) (hbid : bid < sb.blockPerGroup) (hused : Used sb v bid)
    (hfree : ∀ p, TreePlace p → treeNode files v p ≠ bid) :
    Accounting sb files (QuarkOS.givenBack v info bid) := by
  have hnode : ∀ p, TreePlace p →
      treeNode files (QuarkOS.givenBack v info bid) p = treeNode files v p :=
    fun p hp => treeNode_congr hp fun q hq _ hne =>
      givenBack_of_not_metaPage hg (ha.metaPage q hq hne)
  constructor
  · intro g' info' hg'
    rw [givenBack_bitmapNo hl hg hg', QuarkOS.givenBack, groupFree_update_bitmapNo hl hg (lt_groupCnt hg'),
      groupFree_withFreeBlockCnt hl (lt_groupCnt hg) (lt_groupCnt hg')]
    split
    · rename_i heq
      subst heq
      cases hg.symm.trans hg'
      obtain ⟨info0, hinfo0, hbit⟩ := hused
      rw [Nat.div_eq_of_lt hbid] at hinfo0
      cases hinfo0.symm.trans hg
      rw [Nat.mod_eq_of_lt hbid] at hbit
      have hcount := clearCount_clearBit hbid hbit
      have hle := clearCount_le (clearBit (v (bitmapNo info)) bid) sb.blockPerGroup
      have hbpg := hl.blockPerGroup_le
      unfold blockSize at hbpg
      rw [ha.counts 0 info hg]
      omega
    · exact ha.counts g' info' hg'
  · intro p hp hne
    rw [hnode p hp] at hne ⊢
    exact (ha.used p hp hne).givenBack hl hg (hfree p hp)
  · exact ha.once.congr hnode
  · intro p hp hne
    rw [hnode p hp] at hne ⊢
    exact ha.metaPage p hp hne

inductive BitmapOp
  | set (inode : Inode)
  | clear (bid : Nat)

def bitmapStep (sb : Ext2SbInfo) (s : PageCache) : BitmapOp → Except Fault PageCache
  | .set inode => do
    let (_, s) ← setBlockBitmap sb inode s
    .ok s
  | .clear bid => clearBlockBitmap sb bid s

/-- The states that operations reach that each meet the condition `C`. -/
inductive BitmapRun (sb : Ext2SbInfo) (C : PageCache → BitmapOp → Prop) (s0 : PageCache) :
    PageCache → Prop
  | start : BitmapRun sb C s0 s0
  | step {s s' : PageCache} {op : BitmapOp} (hrun : BitmapRun sb C s0 s) (hop : C s op)
      (hok : bitmapStep sb s op = .ok s') : BitmapRun sb C s0 s'

/-- A used block that is in no tree any more is given back, and it is a block of the first group. -/
def FirstGroup (sb : Ext2SbInfo) (files : Nat → Option Inode) (s : PageCache) : BitmapOp → Prop
  | .set _ => True
  | .clear bid => bid < sb.blockPerGroup ∧ Used sb s.view bid ∧
    ∀ p, TreePlace p → treeNode files s.view p ≠ bid

theorem Accounting.step {op : BitmapOp} (hl : sb.Layout) (ha : Accounting sb files s.view)
    (hpad : Padded sb s.view) (hop : FirstGroup sb files s op)
    (hok : bitmapStep sb s op = .ok s') : Accounting sb files s'.view ∧ Padded sb s'.view := by
  cases op with
  | set inode =>
    obtain ⟨⟨bid, s1⟩, hset, hret⟩ := bind_eq_ok hok
    cases hret
    obtain ⟨g, info, n, hg, hn, _, hclear, _, hbecomes⟩ := setBlockBitmap_taken hl hpad hset
    rw [hbecomes.view]
    exact ⟨ha.taken hl hg hn hclear, hpad.taken hl hg⟩
  | clear bid =>
    obtain ⟨hbid, hused, hfree⟩ := hop
    obtain ⟨info, hg, hbecomes⟩ := clearBlockBitmap_givenBack hbid hok
    rw [hbecomes.view]
    exact ⟨ha.givenBack hl hg hbid hused hfree, hpad.givenBack hl hg hbid⟩

/-- Giving a block of the first group back right after it was taken restores every bitmap. -/
theorem clearBlockBitmap_setBlockBitmap {s1 s2 : PageCache} (hl : sb.Layout)
    (hpad : Padded sb s.view) (hset : setBlockBitmap sb inode s = .ok (bid, s1))
    (hbid : bid < sb.blockPerGroup) (hclear : clearBlockBitmap sb bid s1 = .ok s2)
    (hg' : sb.desc[g']? = some info') (m : Nat) :
    bit (s2.view (bitmapNo info')) m = bit (s.view (bitmapNo info')) m := by
  obtain ⟨g, info, n, hg, hn, _, hfree, hnum, hbecomes⟩ := setBlockBitmap_taken hl hpad hset
  obtain ⟨info0, hg0, hbecomes'⟩ := clearBlockBitmap_givenBack hbid hclear
  have hzero : g = 0 := by
    by_contra hne
    have := Nat.le_mul_of_pos_left sb.blockPerGroup (Nat.pos_of_ne_zero hne)
    omega
  subst hzero
  rw [Nat.zero_mul, Nat.add_zero] at hnum
  subst hnum
  rw [hbecomes'.view, givenBack_bitmapNo hl hg0 hg', hbecomes.view, taken_bitmapNo hl hg hg']
  split
  · rename_i heq
    subst heq
    cases hg.symm.trans hg'
    rw [bit_clearBit, bit_setBit]
    split
    · rename_i hm
      rw [hm, hfree]
    · rfl
  · rfl

/-- Every run that gives back blocks of the first group only keeps the accounts. -/
theorem bitmapRun_accounting {s0 : PageCache} (hl : sb.Layout)
    (ha : Accounting sb files s0.view) (hpad : Padded sb s0.view)
    (hrun : BitmapRun sb (FirstGroup sb files) s0 s) :
    Accounting sb files s.view ∧
      ∀ inode bid s1 s2, setBlockBitmap sb inode s = .ok (bid, s1) → bid < sb.blockPerGroup →
        clearBlockBitmap sb bid s1 = .ok s2 → ∀ (g : Nat) info, sb.desc[g]? = some info → ∀ m,
          bit (s2.view (bitmapNo info)) m = bit (s.view (bitmapNo info)) m := by
  have hinv : Accounting sb files s.view ∧ Padded sb s.view := by
    induction hrun with
    | start => exact ⟨ha, hpad⟩
    | step _ hop hok ih => exact ih.1.step hl ih.2 hop hok
  refine ⟨hinv.1, ?_⟩
  intro inode bid s1 s2 hset hbid hclear g info hg m
  exact clearBlockBitmap_setBlockBitmap hl hinv.2 hset hbid hclear hg m

def tinySb : Ext2SbInfo := { blockPerGroup := 16, desc := [⟨2⟩, ⟨3⟩] }

def tinyBitmap (low high : Byte) : Area
  | 0 => low
  | 1 => high
  | _ => 0xff

def tinyDisk (no : Nat) : Area :=
  if no = 8 then setFreeBlockCnt (setFreeBlockCnt (fun _ => 0) 0 11) 32 4
  else if no = 16 then tinyBitmap 0x1f 0
  else if no = 24 then tinyBitmap 0xff 0x0f
  else fun _ => 0

def tinyCache : PageCache := { disk := tinyDisk, bufs := fun _ => none, memory := fun _ _ => 0xaa }

def emptyFile : Inode where
  state := .old
  type := ext2IfReg
  size := 0
  offset := 0
  blockCnt := 0
  blocks := fun _ => 0

def tinyFiles (fd : Nat) : Option Inode := if fd = 0 then some emptyFile else none

theorem tinySb_desc (h : tinySb.desc[g]? = some info) : g = 0 ∧ info = ⟨2⟩ ∨ g = 1 ∧ info = ⟨3⟩ := by
  match g with
  | 0 => exact Or.inl ⟨rfl, (Option.some.inj h).symm⟩
  | 1 => exact Or.inr ⟨rfl, (Option.some.inj h).symm⟩
  | n + 2 => cases h

theorem tinySb_layout : tinySb.Layout where
  blockPerGroup_pos := by decide
  blockPerGroup_le := by decide
  blocks_le := by decide
  bitmap_inj := by
    intro g g' info info' hg hg' heq
    rcases tinySb_desc hg with ⟨rfl, rfl⟩ | ⟨rfl, rfl⟩ <;>
      rcases tinySb_desc hg' with ⟨rfl, rfl⟩ | ⟨rfl, rfl⟩
    · rfl
    · exact absurd heq (by decide)
    · exact absurd heq (by decide)
    · rfl
  bitmap_ne := by
    intro g g' info hg hg'
    have hgd : gdNo g' = 8 := by
      have hlt : g' < 2 := hg'
      unfold gdNo descriptorBid descriptorPerBlock blockSize
      rw [show g' / (4096 / 32) = 0 by omega]
      rfl
    rw [hgd]
    rcases tinySb_desc hg with ⟨_, rfl⟩ | ⟨_, rfl⟩ <;> decide

theorem treeNode_tinyFiles (p : (Nat × Nat) × List Nat) : treeNode tinyFiles v p = 0 := by
  have hroot : fileRoot tinyFiles p.1 = 0 := by
    unfold fileRoot tinyFiles
    split
    · rfl
    · rename_i inode hfile
      split at hfile
      · cases hfile
        exact ite_self 0
      · cases hfile
  rw [treeNode, Forest.node, hroot]
  exact Forest.walk_zero _

theorem tiny_padded : Padded tinySb tinyCache.view := by
  intro g info hg n hle _
  have hle : 16 ≤ n := hle
  have hbyte : ∀ low high, tinyBitmap low high (n / 8) = 0xff := by
    intro low high
    unfold tinyBitmap
    split
    · omega
    · omega
    · rfl
  have hlt : n % 8 < 8 := Nat.mod_lt _ (by decide)
  have hbit : ∀ m < 8, (0xff : Byte).getLsbD m = true := by decide
  rcases tinySb_desc hg with ⟨_, rfl⟩ | ⟨_, rfl⟩
  · rw [bit, show tinyCache.view (bitmapNo ⟨2⟩) = tinyBitmap 0x1f 0 from rfl, hbyte]
    exact hbit _ hlt
  · rw [bit, show tinyCache.view (bitmapNo ⟨3⟩) = tinyBitmap 0xff 0x0f from rfl, hbyte]
    exact hbit _ hlt

theorem tiny_accounting : Accounting tinySb tinyFiles tinyCache.view where
  counts := by
    intro g info hg
    rcases tinySb_desc hg with ⟨rfl, rfl⟩ | ⟨rfl, rfl⟩ <;> decide +kernel
  used := fun p _ hne => absurd (treeNode_tinyFiles p) hne
  once := fun p _ _ _ hne => absurd (treeNode_tinyFiles p) hne
  metaPage := fun p _ hne => absurd (treeNode_tinyFiles p) hne

/-- A block is taken, and block 4 is given back. -/
theorem bitmapRun_accounting_tiny : ∃ s1 s2,
    bitmapStep tinySb tinyCache (.set emptyFile) = .ok s1 ∧
      bitmapStep tinySb s1 (.clear 4) = .ok s2 ∧ Accounting tinySb tinyFiles s2.view := by
  have hrun : ((do
      let s1 ← bitmapStep tinySb tinyCache (.set emptyFile)
      bitmapStep tinySb s1 (.clear 4)).isOk) = true := by decide +kernel
  obtain ⟨s2, hs2⟩ := exists_ok hrun
  obtain ⟨s1, hset, hclear⟩ := bind_eq_ok hs2
  have hfirst : BitmapRun tinySb (FirstGroup tinySb tinyFiles) tinyCache s1 :=
    .step .start (show FirstGroup tinySb tinyFiles tinyCache (.set emptyFile) from trivial) hset
  have hused : Used tinySb s1.view 4 := by
    obtain ⟨⟨bid, s'⟩, hset', hret⟩ := bind_eq_ok hset
    cases hret
    obtain ⟨g, info, n, hg, hn, _, _, _, hbecomes⟩ :=
      setBlockBitmap_taken tinySb_layout tiny_padded hset'
    rw [hbecomes.view, used_taken_iff tinySb_layout hg hn]
    exact Or.inl ⟨⟨2⟩, rfl, by decide +kernel⟩
  have hfree : ∀ p, TreePlace p → treeNode tinyFiles s1.view p ≠ 4 := by
    intro p _
    rw [treeNode_tinyFiles]
    decide
  have hsecond : BitmapRun tinySb (FirstGroup tinySb tinyFiles) tinyCache s2 :=
    hfirst.step (show FirstGroup tinySb tinyFiles s1 (.clear 4) from ⟨by decide, hused, hfree⟩) hclear
  exact ⟨s1, s2, hset, hclear, (bitmapRun_accounting tinySb_layout tiny_accounting tiny_padded hsecond).1⟩

/-- A block of the second group is taken and given back: its bit stays set, and the free count of the
group grows. -/
theorem secondGroup_not_accounting : ∃ bid s1 s2,
    setBlockBitmap tinySb emptyFile tinyCache = .ok (bid, s1) ∧
      Accounting tinySb tinyFiles s1.view ∧ Used tinySb s1.view bid ∧
      (∀ p, TreePlace p → treeNode tinyFiles s1.view p ≠ bid) ∧
      clearBlockBitmap tinySb bid s1 = .ok s2 ∧ ¬ Accounting tinySb tinyFiles s2.view ∧
      bit (s2.view (bitmapNo ⟨3⟩)) 12 ≠ bit (tinyCache.view (bitmapNo ⟨3⟩)) 12 := by
  obtain ⟨⟨bid, s1⟩, hset, hrun⟩ := exists_of_passes (x := setBlockBitmap tinySb emptyFile tinyCache)
    (fun (bid, s1) => decide (bid ≠ 0 ∧ passes (clearBlockBitmap tinySb bid s1) fun s2 =>
      groupFree s2.view 1 ≠ clearCount (s2.view (bitmapNo ⟨3⟩)) 16 ∧ bit (s2.view (bitmapNo ⟨3⟩)) 12 = true ∧
        bit (tinyCache.view (bitmapNo ⟨3⟩)) 12 = false)) (by decide +kernel)
  obtain ⟨hbid, hrun⟩ := of_decide_eq_true hrun
  obtain ⟨s2, hclear, hrun⟩ := exists_of_passes _ hrun
  obtain ⟨hcount, hset', hwas⟩ := of_decide_eq_true hrun
  obtain ⟨g, info, n, hg, hn, _, hfree, hnum, hbecomes⟩ :=
    setBlockBitmap_taken tinySb_layout tiny_padded hset
  refine ⟨bid, s1, s2, hset, ?_, ?_, ?_, hclear, ?_, ?_⟩
  · rw [hbecomes.view]
    exact tiny_accounting.taken tinySb_layout hg hn hfree
  · rw [hbecomes.view, used_taken_iff tinySb_layout hg hn]
    exact Or.inr hnum
  · intro p _
    rw [treeNode_tinyFiles]
    exact hbid.symm
  · intro ha
    exact hcount (ha.counts 1 ⟨3⟩ rfl)
  · rw [hset', hwas]
    decide

end QuarkOS
