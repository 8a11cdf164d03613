import QuarkOS.Fs.Bitmap
import QuarkOS.Fs.MountSpec

/-!
# The inode bitmaps

`set_inode_bitmap` counts the numbers of a group from a multiple of `blockPerGroup` on, `inode_alloc` and
`inode_delete` take the group of a number to be its quotient by `inodePerGroup`, and `clear_inode_bitmap`
takes the whole number for the bit in the bitmap of the group. In the first group the three agree, and
there the free count of a group is the number of clear bits of its bitmap after any run; in any other
group they do not.
-/

namespace QuarkOS

open Bytes PageCache Function

namespace Mount

section Statements

variable (s s' : Mount)

def InodeMap (g no : Nat) : Prop :=
  ∃ addr, s.geometry.inodeBitmapAddr[g]? = some addr ∧ no = ext2Block2Lba addr

structure InodeLayout : Prop where
  inodePerGroup_pos : 0 < s.geometry.inodePerGroup
  inodePerGroup_le : s.geometry.inodePerGroup ≤ 8 * blockSize
  groups : s.geometry.inodeBitmapAddr.length = s.sb.groupCnt
  groupCnt_le : s.sb.groupCnt ≤ maxBlock
  map_inj : ∀ g g' no, s.InodeMap g no → s.InodeMap g' no → g = g'
  map_ne_gd : ∀ g g' no, s.InodeMap g no → g' < s.sb.groupCnt → no ≠ gdNo g'
  map_ne_block : ∀ (g g' no : Nat) info, s.InodeMap g no → s.sb.desc[g']? = some info → no ≠ bitmapNo info
  block_ne_gd : ∀ (g g' : Nat) info, s.sb.desc[g]? = some info → g' < s.sb.groupCnt → bitmapNo info ≠ gdNo g'

/-- Of the bits of all groups, only the bit `n` of the group `g` was written to. -/
def OnlyBit (g n : Nat) (b : Bool) : Prop :=
  ∀ g' no m, s.InodeMap g' no →
    bit (s'.cache.view no) m = if g' = g ∧ m = n then b else bit (s.cache.view no) m

/-- The bit of a number, at its place in the bitmap of its group, has become `b`, and no other bit has
changed. -/
structure BitChange (ino : Nat) (b : Bool) : Prop where
  before : ∃ no, s.InodeMap (s.inodePlace ino).1 no ∧ bit (s.cache.view no) (s.inodePlace ino).2 = !b
  after : OnlyBit s s' (s.inodePlace ino).1 (s.inodePlace ino).2 b

/-- The free count of the group of a number has changed, and no other. -/
def CountChange (ino : Nat) (f : Nat → Nat) : Prop :=
  ∀ g < s.sb.groupCnt, inodesFree s'.cache.view g =
    if g = (s.inodePlace ino).1 then f (inodesFree s.cache.view g) else inodesFree s.cache.view g

/-- The bitmaps and counts of inodes stay as they are. -/
structure SameInodes : Prop where
  sb : s'.sb = s.sb
  geometry : s'.geometry = s.geometry
  map : ∀ g no, s.InodeMap g no → s'.cache.view no = s.cache.view no
  free : ∀ g < s.sb.groupCnt, inodesFree s'.cache.view g = inodesFree s.cache.view g

/-- The counts are right, and the numbers in `A` are of the first group and in use. -/
structure InodesAgree (A : Set Nat) : Prop where
  counts : ∀ g no, s.InodeMap g no →
    inodesFree s.cache.view g = clearCount (s.cache.view no) s.geometry.inodePerGroup
  held : ∀ ino ∈ A, 1 ≤ ino ∧ ino ≤ s.geometry.inodePerGroup ∧
    ∃ no, s.InodeMap 0 no ∧ bit (s.cache.view no) (ino - 1) = true

def inodeNo (p : Nat) : Option Nat := do
  let i ← s.inodes p
  let d ← i.dir
  let dir ← s.dirs d
  return dir.ino

/-- The bit that `set_inode_bitmap` takes: the first clear one of the group that is chosen. -/
structure FreeBit (parent g no n : Nat) : Prop where
  group : s.ChosenGroup parent g
  map : s.InodeMap g no
  lt : n < s.geometry.inodePerGroup
  clear : bit (s.cache.view no) n = false
  below : ∀ m < n, bit (s.cache.view no) m = true

/-- An inode that is allocated in the directory gets its number in the first group. -/
def FirstGroup (parent : Nat) : Prop := ∀ g, s.ChosenGroup parent g → g = 0

end Statements

variable {s s' s'' : Mount} {A : Set Nat} {ino p parent g no : Nat}

def Writes (s s' : Mount) (no : Nat) (a : Area) : Prop :=
  ∃ cache, cache.view = update s.cache.view no a ∧ s' = { s with cache }

theorem ext2BlockRead_write {cache : PageCache} (b : Nat) :
    ∃ cache1, ext2BlockRead cache b = .ok (ext2Block2Lba b, cache1) ∧
      cache1.data (ext2Block2Lba b) = cache.view (ext2Block2Lba b) ∧
      ∀ a, ∃ cache2, (cache1.setData (ext2Block2Lba b) a).markPageDirty (ext2Block2Lba b) = .ok cache2 ∧
        cache2.view = update cache.view (ext2Block2Lba b) a := by
  obtain ⟨cache1, hread, hbecomes, hvalid⟩ := ext2BlockRead_ok cache b
  refine ⟨cache1, hread, by rw [hvalid.data_eq, hbecomes.view], fun a => ?_⟩
  have hset := setData_becomes hvalid a
  obtain ⟨cache2, hmark, hbecomes2⟩ := markPageDirty_ok (hset.valid _ hvalid)
  exact ⟨cache2, hmark, by rw [hbecomes2.view, hset.view, hbecomes.view]⟩

theorem setInodeBitmap_spec (h : s.setInodeBitmap parent = .ok (ino, s')) :
    ∃ g no n, (∃ s1, s.findGroup parent = .ok (g, s1)) ∧ s.FreeBit parent g no n ∧
      ino = (n + 1 + g * s.sb.blockPerGroup) % 2 ^ 32 ∧ Writes s s' no (setBit (s.cache.view no) n) := by
  obtain ⟨⟨g, s1⟩, hgroup, h⟩ := bind_eq_ok h
  obtain ⟨⟨cache, hcache, rfl⟩, hchosen⟩ := findGroup_spec hgroup
  dsimp only at h
  split at h
  · cases h
  · rename_i addr haddr
    obtain ⟨cache1, hread, hdata, hwrite⟩ := @ext2BlockRead_write cache addr
    rw [hcache.view] at hdata hwrite
    rw [hread, ok_bind] at h
    dsimp only at h
    rw [hdata] at h
    split at h
    · cases h
    · rename_i n map hset
      obtain ⟨hn, hclear, hbelow, rfl⟩ := setNextZeroBit_spec hset
      obtain ⟨cache2, hmark, hview⟩ := hwrite (setBit (s.cache.view (ext2Block2Lba addr)) n)
      rw [hmark, ok_bind] at h
      cases h
      exact ⟨g, _, n, ⟨_, hgroup⟩, ⟨hchosen, ⟨addr, haddr, rfl⟩, by omega, hclear, hbelow⟩, rfl, cache2,
        hview, rfl⟩

/-- The number that `clear_inode_bitmap` and `EXT2_INODE2GROUP` work with. -/
def bitNo (ino : Nat) : Nat := (ino + 2 ^ 32 - 1) % 2 ^ 32

theorem clearInodeBitmap_ok (hmap : s.InodeMap (s.inodePlace ino).1 no) (hin : bitNo ino / 8 < pageSize) :
    ∃ s', s.clearInodeBitmap ino = .ok s' ∧ Writes s s' no (clearBit (s.cache.view no) (bitNo ino)) := by
  obtain ⟨addr, haddr, rfl⟩ := hmap
  obtain ⟨cache1, hread, hdata, hwrite⟩ := @ext2BlockRead_write s.cache addr
  obtain ⟨cache2, hmark, hview⟩ := hwrite (clearBit (s.cache.view (ext2Block2Lba addr)) (bitNo ino))
  refine ⟨{ s with cache := cache2 }, ?_, cache2, hview, rfl⟩
  unfold bitNo at hin hmark
  rw [clearInodeBitmap, haddr]
  dsimp only
  rw [hread, ok_bind]
  dsimp only
  rw [hdata, if_pos hin, hmark, ok_bind]

/-- `clear_inode_bitmap` looks for the bit of the number in the bitmap of the group. -/
theorem clearInodeBitmap_spec (h : s.clearInodeBitmap ino = .ok s') :
    ∃ no, s.InodeMap (s.inodePlace ino).1 no ∧
      Writes s s' no (clearBit (s.cache.view no) (bitNo ino)) := by
  have hcases := h
  rw [clearInodeBitmap] at hcases
  split at hcases
  · cases hcases
  · rename_i addr haddr
    obtain ⟨⟨buf, cache⟩, _, hcases⟩ := bind_eq_ok hcases
    dsimp only at hcases
    split at hcases
    · rename_i hin
      obtain ⟨s1, hok, hwrites⟩ := clearInodeBitmap_ok ⟨addr, haddr, rfl⟩ hin
      cases h.symm.trans hok
      exact ⟨_, ⟨addr, haddr, rfl⟩, hwrites⟩
    · cases hcases

theorem countInode_ok (s : Mount) (ino : Nat) (free dirs : Nat → Nat) :
    ∃ s', s.countInode ino free dirs = .ok s' := by
  rw [countInode, getRawGd]
  obtain ⟨cache1, hread, _, hwrite⟩ := @ext2BlockRead_write s.cache (descriptorBid (s.inodePlace ino).1)
  rw [hread, ok_bind, ok_bind]
  dsimp only
  generalize setDirNum _ _ _ = page
  obtain ⟨cache2, hmark, _⟩ := hwrite page
  rw [hmark, ok_bind]
  exact ⟨_, rfl⟩

theorem countInode_spec {free dirs : Nat → Nat} (h : s.countInode ino free dirs = .ok s') :
    ∃ x y, x = free (inodesFree s.cache.view (s.inodePlace ino).1) ∧
      Writes s s' (gdNo (s.inodePlace ino).1) (setDirNum (setFreeInodesCnt
        (s.cache.view (gdNo (s.inodePlace ino).1)) (descriptorOffset (s.inodePlace ino).1) x)
          (descriptorOffset (s.inodePlace ino).1) y) := by
  rw [countInode, getRawGd] at h
  generalize (s.inodePlace ino).1 = g at h ⊢
  obtain ⟨cache1, hread, hdata, hwrite⟩ := @ext2BlockRead_write s.cache (descriptorBid g)
  rw [hread, ok_bind, ok_bind] at h
  dsimp only at h
  rw [hdata] at h
  obtain ⟨cache2, hmark, h⟩ := bind_eq_ok h
  cases h
  obtain ⟨cache3, hmark', hview⟩ := hwrite _
  cases hmark'.symm.trans hmark
  exact ⟨_, _, rfl, cache2, hview, rfl⟩

theorem InodeMap.unique {no' : Nat} (h : s.InodeMap g no) (h' : s.InodeMap g no') : no = no' := by
  obtain ⟨addr, haddr, rfl⟩ := h
  obtain ⟨addr', haddr', rfl⟩ := h'
  cases haddr.symm.trans haddr'
  rfl

theorem InodeLayout.lt_groupCnt (hl : s.InodeLayout) (h : s.InodeMap g no) : g < s.sb.groupCnt := by
  obtain ⟨addr, haddr, _⟩ := h
  rw [← hl.groups]
  exact (List.getElem?_eq_some_iff.1 haddr).1

theorem inodeMap_congr (h : s'.geometry = s.geometry) : s'.InodeMap g no ↔ s.InodeMap g no := by
  rw [InodeMap, InodeMap, h]

theorem inodePlace_congr (h : s'.geometry = s.geometry) (ino : Nat) : s'.inodePlace ino = s.inodePlace ino := by
  rw [inodePlace, inodePlace, h]

theorem InodeLayout.congr (hl : s.InodeLayout) (hsb : s'.sb = s.sb) (hgeo : s'.geometry = s.geometry) :
    s'.InodeLayout := by
  constructor
  · rw [hgeo]
    exact hl.inodePerGroup_pos
  · rw [hgeo]
    exact hl.inodePerGroup_le
  · rw [hgeo, hsb]
    exact hl.groups
  · rw [hsb]
    exact hl.groupCnt_le
  all_goals simp only [inodeMap_congr hgeo, hsb]
  · exact hl.map_inj
  · exact hl.map_ne_gd
  · exact hl.map_ne_block
  · exact hl.block_ne_gd

variable {a : Area} {b : Bool} {g' : Nat} {s1 : Mount}

theorem Writes.onlyBit {n : Nat} (h : Writes s s' no a) (hl : s.InodeLayout)
    (hmap : s.InodeMap g no) (ha : ∀ m, bit a m = if m = n then b else bit (s.cache.view no) m) :
    OnlyBit s s' g n b := by
  obtain ⟨cache, hview, rfl⟩ := h
  intro g' no' m hmap'
  dsimp only
  rw [hview]
  by_cases hg : g' = g
  · subst hg
    obtain rfl := hmap.unique hmap'
    rw [update_self, ha]
    simp only [true_and]
  · have hno : no' ≠ no := by
      rintro rfl
      exact hg (hl.map_inj _ _ _ hmap' hmap)
    rw [update_of_ne hno, if_neg fun hand => hg hand.1]

theorem OnlyBit.eq_of_change {n n' : Nat} (h : OnlyBit s s' g n b) (hmap : s.InodeMap g' no)
    (hbefore : bit (s.cache.view no) n' = !b) (hafter : bit (s'.cache.view no) n' = b) :
    g' = g ∧ n' = n := by
  by_contra hne
  rw [h g' no n' hmap, if_neg hne, hbefore] at hafter
  cases b <;> cases hafter

theorem Writes.same (h : Writes s s' no a) : s'.sb = s.sb ∧ s'.geometry = s.geometry := by
  obtain ⟨_, _, rfl⟩ := h
  exact ⟨rfl, rfl⟩

theorem bitNo_div_mod (s : Mount) (ino : Nat) :
    s.inodePlace ino = (bitNo ino / s.geometry.inodePerGroup, bitNo ino % s.geometry.inodePerGroup) :=
  rfl

theorem inodePlace_of_le (h1 : 1 ≤ ino) (hle : ino ≤ s.geometry.inodePerGroup)
    (hlt : s.geometry.inodePerGroup < 2 ^ 32) : bitNo ino = ino - 1 ∧ s.inodePlace ino = (0, ino - 1) := by
  have hno : bitNo ino = ino - 1 := by
    unfold bitNo
    omega
  rw [bitNo_div_mod, hno, Nat.div_eq_of_lt (by omega), Nat.mod_eq_of_lt (by omega)]
  exact ⟨rfl, rfl⟩

/-- The bit that was set is the one of the number that was returned, and `clear_inode_bitmap` clears it,
exactly in the first group. -/
theorem setInodeBitmap_agrees_iff (hl : s.InodeLayout)
    (hgroup : s.findGroup parent = .ok (g, s1)) (h : s.setInodeBitmap parent = .ok (ino, s')) :
    (BitChange s s' ino true ∧ ∃ s'', s'.clearInodeBitmap ino = .ok s'' ∧ BitChange s' s'' ino false) ↔
      g = 0 := by
  obtain ⟨g', no, n, ⟨_, hgroup'⟩, ⟨_, hmap, hn, hclear, _⟩, hino, hwrites⟩ := setInodeBitmap_spec h
  cases hgroup.symm.trans hgroup'
  have hset := hwrites.onlyBit hl hmap fun m => bit_setBit _ n m
  obtain ⟨hsb, hgeo⟩ := hwrites.same
  have hl' := hl.congr hsb hgeo
  have hplace := inodePlace_congr hgeo ino
  have hlarge : s.geometry.inodePerGroup < 2 ^ 32 := hl.inodePerGroup_le.trans_lt (by decide)
  constructor
  · rintro ⟨hchange, s'', hok, hback⟩
    obtain ⟨no1, hmap1, hbefore⟩ := hchange.before
    have hafter := hchange.after _ _ (s.inodePlace ino).2 hmap1
    rw [if_pos ⟨rfl, rfl⟩] at hafter
    obtain ⟨hg, hn'⟩ := hset.eq_of_change hmap1 hbefore hafter
    -- The bit that is cleared is the number itself, so it is its own remainder.
    obtain ⟨no2, hmap2, hwrites2⟩ := clearInodeBitmap_spec hok
    have hclear2 := hwrites2.onlyBit hl' hmap2 fun m => bit_clearBit _ (bitNo ino) m
    obtain ⟨no3, hmap3, hbefore3⟩ := hback.before
    have hafter3 := hback.after _ _ (s'.inodePlace ino).2 hmap3
    rw [if_pos ⟨rfl, rfl⟩] at hafter3
    have hbit := (hclear2.eq_of_change hmap3 hbefore3 hafter3).2
    rw [hplace, hn'] at hbit
    rw [← hg, bitNo_div_mod, ← hbit, Nat.div_eq_of_lt hn]
  · rintro rfl
    rw [Nat.zero_mul, Nat.add_zero, Nat.mod_eq_of_lt (by omega)] at hino
    subst hino
    obtain ⟨hno, hfirst⟩ := inodePlace_of_le (s := s) (Nat.le_add_left 1 n) hn hlarge
    rw [Nat.add_sub_cancel] at hno hfirst
    have hmap' : s'.InodeMap (s'.inodePlace (n + 1)).1 no := by
      rw [hplace, hfirst, inodeMap_congr hgeo]
      exact hmap
    have hin : bitNo (n + 1) / 8 < pageSize := by
      have hle := hl.inodePerGroup_le
      have hpage : pageSize = blockSize := rfl
      rw [hno, hpage]
      omega
    obtain ⟨s'', hok, hwrites2⟩ := clearInodeBitmap_ok hmap' hin
    have hclear2 := hwrites2.onlyBit hl' hmap' fun m => bit_clearBit _ (bitNo (n + 1)) m
    refine ⟨⟨?_, ?_⟩, s'', hok, ⟨no, hmap', ?_⟩, ?_⟩
    · rw [hfirst]
      exact ⟨no, hmap, hclear⟩
    · rw [hfirst]
      exact hset
    · rw [hplace, hfirst, hset 0 no n hmap, if_pos ⟨rfl, rfl⟩]
      rfl
    · rw [hno, hplace, hfirst] at hclear2
      rw [hplace, hfirst]
      exact hclear2

theorem SameInodes.trans (h : SameInodes s s') (h' : SameInodes s' s'') : SameInodes s s'' where
  sb := h'.sb.trans h.sb
  geometry := h'.geometry.trans h.geometry
  map g no hmap := (h'.map g no ((inodeMap_congr h.geometry).2 hmap)).trans (h.map g no hmap)
  free g hg := (h'.free g (by rw [h.sb]; exact hg)).trans (h.free g hg)

theorem inodesFree_update {v : Nat → Area} (hg : g < maxBlock) (hg' : g' < maxBlock) (x y : Nat) :
    inodesFree (update v (gdNo g) (setDirNum (setFreeInodesCnt (v (gdNo g)) (descriptorOffset g) x)
      (descriptorOffset g) y)) g' = if g' = g then x % 2 ^ 16 else inodesFree v g' := by
  -- The two counts of the descriptor are written one after the other.
  have htwo : ∀ w : Nat → Area, w = update v (gdNo g)
      (setFreeInodesCnt (v (gdNo g)) (descriptorOffset g) x) →
      update v (gdNo g) (setDirNum (setFreeInodesCnt (v (gdNo g)) (descriptorOffset g) x)
        (descriptorOffset g) y) =
      update w (gdNo g) (store (w (gdNo g)) (descriptorOffset g + 16) 2 y) := by
    rintro _ rfl
    rw [update_idem, update_self]
    rfl
  rw [htwo _ rfl, inodesFree, freeInodesCnt, load_descriptor_of_ne hg hg' (by decide) (by decide)
    (Or.inr (Or.inl (by decide)))]
  split
  · rename_i heq
    rw [heq, update_self, setFreeInodesCnt, load_store]
    rfl
  · rename_i hne
    exact load_descriptor_of_ne hg hg' (by decide) (by decide) (Or.inl hne)

theorem countInode_countChange {free dirs f : Nat → Nat} (hl : s.InodeLayout)
    (hg : (s.inodePlace ino).1 < s.sb.groupCnt) (h : s.countInode ino free dirs = .ok s')
    (hf : free (inodesFree s.cache.view (s.inodePlace ino).1) % 2 ^ 16 =
      f (inodesFree s.cache.view (s.inodePlace ino).1)) :
    CountChange s s' ino f ∧ ∀ g no, s.InodeMap g no → s'.cache.view no = s.cache.view no := by
  obtain ⟨x, y, rfl, cache, hview, rfl⟩ := countInode_spec h
  constructor
  · intro g hg'
    dsimp only
    rw [hview, inodesFree_update (hg.trans_le hl.groupCnt_le) (hg'.trans_le hl.groupCnt_le), hf]
    split
    · rename_i heq
      rw [heq]
    · rfl
  · intro g no hmap
    dsimp only
    rw [hview, update_of_ne (hl.map_ne_gd _ _ _ hmap hg)]

theorem BitChange.clearCount_of_ne (h : BitChange s s' ino b) (hmap : s.InodeMap g no)
    (hne : g ≠ (s.inodePlace ino).1) (n : Nat) :
    clearCount (s'.cache.view no) n = clearCount (s.cache.view no) n :=
  clearCount_congr fun m _ => (h.after g no m hmap).trans (if_neg fun hand => hne hand.1)

theorem BitChange.clearCount_self (h : BitChange s s' ino b) (hl : s.InodeLayout)
    (hmap : s.InodeMap (s.inodePlace ino).1 no) :
    (b = true → clearCount (s.cache.view no) s.geometry.inodePerGroup =
      clearCount (s'.cache.view no) s.geometry.inodePerGroup + 1) ∧
    (b = false → clearCount (s'.cache.view no) s.geometry.inodePerGroup =
      clearCount (s.cache.view no) s.geometry.inodePerGroup + 1) := by
  obtain ⟨no', hmap', hbefore⟩ := h.before
  obtain rfl := hmap.unique hmap'
  have hlt : (s.inodePlace ino).2 < s.geometry.inodePerGroup := Nat.mod_lt _ hl.inodePerGroup_pos
  have hself := (h.after _ no (s.inodePlace ino).2 hmap).trans (if_pos ⟨rfl, rfl⟩)
  have hother : ∀ m, m ≠ (s.inodePlace ino).2 →
      bit (s'.cache.view no) m = bit (s.cache.view no) m :=
    fun m hm => (h.after _ no m hmap).trans (if_neg fun hand => hm hand.2)
  constructor
  · rintro rfl
    exact clearCount_of_flip hlt hbefore hself fun m hm => (hother m hm).symm
  · rintro rfl
    exact clearCount_of_flip hlt hself hbefore hother

theorem InodesAgree.counts_change (h : InodesAgree s A) (hl : s.InodeLayout)
    (hgeo : s'.geometry = s.geometry) (hbit : BitChange s s' ino b)
    (hcount : CountChange s s' ino (if b then (· - 1) else (· + 1))) (hmap : s'.InodeMap g no) :
    inodesFree s'.cache.view g = clearCount (s'.cache.view no) s'.geometry.inodePerGroup := by
  rw [inodeMap_congr hgeo] at hmap
  rw [hgeo, hcount g (hl.lt_groupCnt hmap)]
  split
  · rename_i heq
    subst heq
    obtain ⟨htrue, hfalse⟩ := hbit.clearCount_self hl hmap
    rw [h.counts _ no hmap]
    cases b with
    | true =>
      have := htrue rfl
      rw [if_pos rfl]
      omega
    | false =>
      rw [hfalse rfl, if_neg Bool.false_ne_true]
  · rename_i hne
    rw [h.counts g no hmap, hbit.clearCount_of_ne hmap hne]

theorem BitChange.congr {s2 : Mount} (h : BitChange s1 s2 ino b)
    (hgeo : s1.geometry = s.geometry) (hmap : ∀ g no, s.InodeMap g no → s1.cache.view no = s.cache.view no)
    (hmap' : ∀ g no, s.InodeMap g no → s'.cache.view no = s2.cache.view no) : BitChange s s' ino b where
  before := by
    obtain ⟨no, hno, hbefore⟩ := h.before
    rw [inodePlace_congr hgeo, inodeMap_congr hgeo] at hno
    rw [inodePlace_congr hgeo, hmap _ _ hno] at hbefore
    exact ⟨no, hno, hbefore⟩
  after := by
    intro g no m hno
    have hafter := h.after g no m ((inodeMap_congr hgeo).2 hno)
    rw [inodePlace_congr hgeo, hmap g no hno] at hafter
    rw [hmap' g no hno]
    exact hafter

theorem CountChange.congr {s2 : Mount} {f : Nat → Nat} (h : CountChange s1 s2 ino f)
    (hsb : s1.sb = s.sb) (hgeo : s1.geometry = s.geometry)
    (hfree : ∀ g < s.sb.groupCnt, inodesFree s1.cache.view g = inodesFree s.cache.view g)
    (hfree' : ∀ g < s.sb.groupCnt, inodesFree s'.cache.view g = inodesFree s2.cache.view g) :
    CountChange s s' ino f := by
  intro g hg
  rw [hfree' g hg, h g (by rw [hsb]; exact hg), inodePlace_congr hgeo, hfree g hg]

theorem Writes.inodesFree (h : Writes s s' no a) (hl : s.InodeLayout)
    (hmap : s.InodeMap g' no) (hg : g < s.sb.groupCnt) :
    Mount.inodesFree s'.cache.view g = Mount.inodesFree s.cache.view g := by
  obtain ⟨cache, hview, rfl⟩ := h
  dsimp only
  rw [hview, Mount.inodesFree, update_of_ne (hl.map_ne_gd _ _ _ hmap hg).symm]
  rfl

/-- The count of the group of a number whose bit is clear is not zero, and it fits into the descriptor. -/
theorem InodesAgree.count_of_bit (h : InodesAgree s A) (hl : s.InodeLayout)
    (hbit : BitChange s s' ino b) (hg : (s.inodePlace ino).1 = g) :
    (b = true → (inodesFree s.cache.view g + 2 ^ 16 - 1) % 2 ^ 16 = inodesFree s.cache.view g - 1) ∧
      (b = false → (inodesFree s.cache.view g + 1) % 2 ^ 16 = inodesFree s.cache.view g + 1) := by
  subst hg
  obtain ⟨no, hmap, _⟩ := hbit.before
  obtain ⟨htrue, hfalse⟩ := hbit.clearCount_self hl hmap
  have hle := clearCount_le (s.cache.view no) s.geometry.inodePerGroup
  have hper := hl.inodePerGroup_le
  have hblk : blockSize = 4096 := rfl
  rw [h.counts _ no hmap]
  constructor
  · intro hb
    have := htrue hb
    omega
  · intro
    omega

theorem inodeAlloc_spec {mode : BitVec 16} {name : Name} (h : s.inodeAlloc parent mode name = .ok (p, s')) :
    ∃ inoCache n, ∃ (s2 s3 : Mount), ∃ dirs, Mount.setInodeBitmap { s with inoCache } parent = .ok (n, s2) ∧
      s3.sb = s2.sb ∧ s3.geometry = s2.geometry ∧ s3.cache = s2.cache ∧
      s3.countInode n (· + 2 ^ 16 - 1) dirs = .ok s' ∧ s'.inodeNo p = some n := by
  obtain ⟨par, d, n, state, _, _, inoCache, _, dirs, _, _, _, hset, hcount, hs'⟩ := inodeAlloc_eq h
  refine ⟨inoCache, n, _, _, dirs, hset, ?_, ?_, ?_, hcount, ?_⟩ <;> try rfl
  rw [hs']
  simp [inodeNo, setInode, setDir, newInode, newEntry]

theorem InodesAgree.alloc {mode : BitVec 16} {name : Name} (h : InodesAgree s A) (hl : s.InodeLayout)
    (hfirst : s.FirstGroup parent) (hok : s.inodeAlloc parent mode name = .ok (p, s'))
    (hino : s'.inodeNo p = some ino) :
    s'.sb = s.sb ∧ s'.geometry = s.geometry ∧ 1 ≤ ino ∧ ino ≤ s.geometry.inodePerGroup ∧ ino ∉ A ∧
      BitChange s s' ino true ∧ CountChange s s' ino (· - 1) := by
  obtain ⟨inoCache, n, s2, s3, dirs, hset, hsb3, hgeo3, hcache3, hcount, hno⟩ := inodeAlloc_spec hok
  cases hino.symm.trans hno
  have hl1 : ({ s with inoCache } : Mount).InodeLayout := hl.congr rfl rfl
  obtain ⟨g, no, m, ⟨s1, hgroup⟩, ⟨hchosen, hmap, hm, _⟩, hnum, hwrites⟩ := setInodeBitmap_spec hset
  obtain rfl := hfirst g hchosen
  obtain ⟨hsb2, hgeo2⟩ := hwrites.same
  have hlarge : s.geometry.inodePerGroup < 2 ^ 32 := hl.inodePerGroup_le.trans_lt (by decide)
  have hm' : m < s.geometry.inodePerGroup := hm
  rw [Nat.zero_mul, Nat.add_zero, Nat.mod_eq_of_lt (by omega)] at hnum
  have hplace := (@inodePlace_of_le s ino (by omega) (by omega) hlarge).2
  have hbit2 : BitChange s s2 ino true :=
    ((setInodeBitmap_agrees_iff hl1 hgroup hset).2 rfl).1.congr rfl (fun _ _ _ => rfl) fun _ _ _ => rfl
  have hfree2 : ∀ g < s.sb.groupCnt, inodesFree s2.cache.view g = inodesFree s.cache.view g :=
    fun g hg => hwrites.inodesFree hl1 hmap hg
  have hsb : s3.sb = s.sb := hsb3.trans hsb2
  have hgeo : s3.geometry = s.geometry := hgeo3.trans hgeo2
  have hg0 : 0 < s.sb.groupCnt := hl.lt_groupCnt hmap
  have hplace3 := inodePlace_congr hgeo ino
  obtain ⟨hcount', hmaps⟩ := @countInode_countChange s3 s' ino _ _ (· - 1) (hl.congr hsb hgeo)
    (by rw [hplace3, hplace, hsb]; exact hg0) hcount (by
      rw [hplace3, hplace, hcache3, hfree2 0 hg0]
      exact (h.count_of_bit hl hbit2 (by rw [hplace])).1 rfl)
  have hsame := countInode_onlyCache hcount
  refine ⟨?_, ?_, by omega, by omega, ?_, ?_, ?_⟩
  · obtain ⟨_, rfl⟩ := hsame
    exact hsb
  · obtain ⟨_, rfl⟩ := hsame
    exact hgeo
  · intro hmem
    obtain ⟨_, _, no', hmap', hset'⟩ := h.held ino hmem
    obtain ⟨no'', hmap'', hclear⟩ := hbit2.before
    rw [hplace] at hmap'' hclear
    obtain rfl := hmap'.unique hmap''
    rw [hset'] at hclear
    cases hclear
  · refine hbit2.congr rfl (fun _ _ _ => rfl) fun g no hno => ?_
    rw [hmaps g no ((inodeMap_congr hgeo).2 hno), hcache3]
  · refine hcount'.congr hsb hgeo (fun g hg => ?_) fun _ _ => rfl
    rw [hcache3]
    exact hfree2 g hg

theorem delChild_eq_ok {d : Nat} (h : s.delChild d = .ok s') : ∃ dirs, s' = { s with dirs } := by
  obtain ⟨dir, _, h⟩ := bind_eq_ok h
  obtain ⟨parent, _, h⟩ := bind_eq_ok h
  obtain ⟨parentDir, _, h⟩ := bind_eq_ok h
  cases h
  exact ⟨_, rfl⟩

section

variable (h : InodesAgree s A) (hl : s.InodeLayout)
include h hl

theorem InodesAgree.same (hsame : SameInodes s s') :
    InodesAgree s' A where
  counts g no hmap := by
    rw [inodeMap_congr hsame.geometry] at hmap
    rw [hsame.free g (hl.lt_groupCnt hmap), hsame.map g no hmap, hsame.geometry]
    exact h.counts g no hmap
  held ino hino := by
    obtain ⟨h1, hle, no, hmap, hset⟩ := h.held ino hino
    rw [hsame.geometry]
    exact ⟨h1, hle, no, (inodeMap_congr hsame.geometry).2 hmap, by rw [hsame.map 0 no hmap]; exact hset⟩

theorem InodesAgree.insert (hgeo : s'.geometry = s.geometry)
    (h1 : 1 ≤ ino) (hle : ino ≤ s.geometry.inodePerGroup) (hbit : BitChange s s' ino true)
    (hcount : CountChange s s' ino (· - 1)) : InodesAgree s' (insert ino A) where
  counts _ _ hmap := h.counts_change hl hgeo hbit hcount hmap
  held n hn := by
    have hlarge : s.geometry.inodePerGroup < 2 ^ 32 := hl.inodePerGroup_le.trans_lt (by decide)
    rw [hgeo]
    simp only [inodeMap_congr hgeo]
    rcases Set.mem_insert_iff.1 hn with rfl | hn
    · obtain ⟨no, hmap, _⟩ := hbit.before
      refine ⟨h1, hle, no, ?_⟩
      have hafter := hbit.after _ no (s.inodePlace n).2 hmap
      rw [if_pos ⟨rfl, rfl⟩] at hafter
      rw [(inodePlace_of_le h1 hle hlarge).2] at hmap hafter
      exact ⟨hmap, hafter⟩
    · obtain ⟨h1', hle', no, hmap, hset⟩ := h.held n hn
      refine ⟨h1', hle', no, hmap, ?_⟩
      rw [hbit.after 0 no _ hmap]
      split
      · rfl
      · exact hset

theorem InodesAgree.erase (hgeo : s'.geometry = s.geometry)
    (hmem : ino ∈ A) (hbit : BitChange s s' ino false) (hcount : CountChange s s' ino (· + 1)) :
    InodesAgree s' (A \ {ino}) where
  counts _ _ hmap := h.counts_change hl hgeo hbit hcount hmap
  held n hn := by
    have hlarge : s.geometry.inodePerGroup < 2 ^ 32 := hl.inodePerGroup_le.trans_lt (by decide)
    obtain ⟨h1, hle, _⟩ := h.held ino hmem
    obtain ⟨h1', hle', no, hmap, hset⟩ := h.held n hn.1
    rw [hgeo]
    refine ⟨h1', hle', no, (inodeMap_congr hgeo).2 hmap, ?_⟩
    have hne : n ≠ ino := hn.2
    rw [hbit.after 0 no _ hmap, (inodePlace_of_le h1 hle hlarge).2, if_neg]
    · exact hset
    · rintro ⟨_, heq⟩
      omega

end

end Mount

end QuarkOS
