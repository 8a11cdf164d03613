import QuarkOS.Fs.Ext2
import QuarkOS.Lib.Forest

/-!
# What the block functions do to the view

Reading brings pages into the cache and leaves the view as it is, so `get_bid` is a walk along the
pointers in the view: `bidOf`. Setting and clearing a bit of the block bitmap change two pages of the
view, the bitmap of a group and the page of its descriptor.
-/

namespace QuarkOS

open Bytes PageCache Function

variable {s s' : PageCache} {sb : Ext2SbInfo} {inode : Inode}

theorem ext2Block2Lba_and_seven (b : Nat) : ext2Block2Lba b &&& 7 = 0 := by
  have hmod : ext2Block2Lba b &&& 7 = ext2Block2Lba b % 2 ^ 3 := Nat.and_two_pow_sub_one_eq_mod _ 3
  have hdvd : 2 ^ 3 ∣ 2 ^ 32 := pow_dvd_pow 2 (by decide)
  rw [hmod, ext2Block2Lba, Nat.mod_mod_of_dvd _ hdvd]
  exact Nat.mul_mod_right 8 b

/-- The blocks whose sector numbers fit 32 bits. -/
def maxBlock : Nat := 2 ^ 29

theorem ext2Block2Lba_inj {b c : Nat} (hb : b < maxBlock) (hc : c < maxBlock)
    (h : ext2Block2Lba b = ext2Block2Lba c) : b = c := by
  have hb' : 8 * b % 2 ^ 32 = 8 * b := Nat.mod_eq_of_lt (by unfold maxBlock at hb; omega)
  have hc' : 8 * c % 2 ^ 32 = 8 * c := Nat.mod_eq_of_lt (by unfold maxBlock at hc; omega)
  have h' : 8 * b % 2 ^ 32 = 8 * c % 2 ^ 32 := h
  omega

theorem ext2BlockRead_ok (s : PageCache) (b : Nat) :
    ∃ s', ext2BlockRead s b = .ok (ext2Block2Lba b, s') ∧ Becomes s s' s.view ∧
      s'.Valid (ext2Block2Lba b) := by
  obtain ⟨s', hok, hbecomes, hvalid⟩ := pageReadNo_ok (s := s) (ext2Block2Lba_and_seven b)
  exact ⟨s', by rw [ext2BlockRead, hok]; rfl, hbecomes, hvalid⟩

def bitmapNo (info : InfoDescriptor) : Nat := ext2Block2Lba info.blockBitmapAddr

def gdNo (g : Nat) : Nat := ext2Block2Lba (descriptorBid g)

theorem getRawGd_ok (s : PageCache) (g : Nat) :
    ∃ s', getRawGd s g = .ok (gdNo g, descriptorOffset g, s') ∧ Becomes s s' s.view ∧
      s'.Valid (gdNo g) := by
  obtain ⟨s', hok, hbecomes, hvalid⟩ := ext2BlockRead_ok s (descriptorBid g)
  exact ⟨s', by rw [getRawGd, hok]; rfl, hbecomes, hvalid⟩

def childOf (v : Nat → Area) (b j : Nat) : Nat := ptrAt (v (ext2Block2Lba b)) j

/-- The indices that a loop over the levels `i, …, 0` uses, where the number is `i + 1`. -/
def idPath (id : Nat → Nat) : Nat → List Nat
  | 0 => []
  | i + 1 => id i :: idPath id i

/-- The pointer of the inode that leads to a block of the file, and the pointers to follow from it. -/
def blockPath (bno : Nat) : Nat × List Nat :=
  if bno < 12 then (bno, [])
  else if bno < 12 + 1024 then (12, [bno - 12])
  else if bno < 12 + 1024 + 1024 * 1024 then
    (13, [(bno - (12 + 1024)) / 1024, (bno - (12 + 1024)) % 1024])
  else
    (14, [(bno - (12 + 1024 + 1024 * 1024)) / (1024 * 1024),
      (bno - (12 + 1024 + 1024 * 1024)) / 1024 % 1024, (bno - (12 + 1024 + 1024 * 1024)) % 1024])

/-- The blocks that the three kinds of indirect pointers reach. -/
def maxBno : Nat := 12 + 1024 + 1024 * 1024 + 1024 * 1024 * 1024

/-- The block of the disk that holds block `bno` of the file, or zero. -/
def bidOf (v : Nat → Area) (inode : Inode) (bno : Nat) : Nat :=
  Forest.walk (childOf v) (inode.blocks (blockPath bno).1) (blockPath bno).2

theorem getBidLoop_ok (id : Nat → Nat) (n bid : Nat) (s : PageCache) :
    ∃ s', getBidLoop id n bid s = .ok (Forest.walk (childOf s.view) bid (idPath id n), s') ∧
      Becomes s s' s.view := by
  induction n generalizing bid s with
  | zero => exact ⟨s, rfl, .refl s⟩
  | succ n ih =>
    rw [getBidLoop, idPath, Forest.walk]
    split
    · rename_i hzero
      exact ⟨s, by rw [hzero], .refl s⟩
    · obtain ⟨s1, hread, hbecomes, hvalid⟩ := ext2BlockRead_ok s bid
      obtain ⟨s2, hloop, hrest⟩ := ih (ptrAt (s1.data (ext2Block2Lba bid)) (id n)) s1
      rw [hread, ok_bind]
      refine ⟨s2, ?_, hbecomes.trans (hbecomes.view ▸ hrest)⟩
      refine hloop.trans ?_
      rw [hvalid.data_eq, hbecomes.view]
      rfl

theorem nPtr_eq : nPtr = 1024 := rfl

variable {bno i fuel n g : Nat} {map : Area}

theorem findBlockLayer_eq (hle : 12 ≤ bno) : findBlockLayer bno =
    if bno < 12 + 1024 then .ok (0, blockIds (bno - 12))
    else if bno < 12 + 1024 + 1024 * 1024 then .ok (1, blockIds (bno - (12 + 1024)))
    else if bno < maxBno then .ok (2, blockIds (bno - (12 + 1024 + 1024 * 1024)))
    else .error .assertk := by
  unfold findBlockLayer maxBno nDirectBlock
  rw [nPtr_eq]
  dsimp only
  by_cases h0 : bno < 12 + 1024
  · have hfirst : ¬ 1024 ≤ bno - 12 := by omega
    have hsecond : ¬ 1024 * 1024 ≤ bno - 12 := by omega
    rw [if_pos h0, if_neg hfirst]
    dsimp only
    rw [if_neg hsecond, decide_eq_true (by dsimp only; omega)]
    rfl
  · have hfirst : 1024 ≤ bno - 12 := by omega
    rw [if_neg h0, if_pos hfirst]
    dsimp only
    by_cases h1 : bno < 12 + 1024 + 1024 * 1024
    · have hsecond : ¬ 1024 * 1024 ≤ bno - 12 - 1024 := by omega
      rw [if_pos h1, if_neg hsecond, decide_eq_true (by dsimp only; omega), Nat.sub_sub]
      rfl
    · have hsecond : 1024 * 1024 ≤ bno - 12 - 1024 := by omega
      rw [if_neg h1, if_pos hsecond]
      dsimp only
      rw [Nat.sub_sub, Nat.sub_sub]
      by_cases h2 : bno < 12 + 1024 + 1024 * 1024 + 1024 * 1024 * 1024
      · rw [if_pos h2, decide_eq_true (by omega)]
        rfl
      · rw [if_neg h2, decide_eq_false (by omega)]
        rfl

theorem findBlockLayer_ok (hle : 12 ≤ bno) (hlt : bno < maxBno) :
    ∃ layer id, findBlockLayer bno = .ok (layer, id) ∧
      blockPath bno = (nDirectBlock + layer, idPath id (layer + 1)) := by
  rw [findBlockLayer_eq hle, blockPath, if_neg (Nat.not_lt.2 hle)]
  by_cases h0 : bno < 12 + 1024
  · rw [if_pos h0, if_pos h0]
    refine ⟨0, _, rfl, ?_⟩
    have hmod : (bno - 12) % 1024 = bno - 12 := Nat.mod_eq_of_lt (by omega)
    rw [idPath, idPath, blockIds, nPtr_eq, hmod]
    rfl
  · rw [if_neg h0, if_neg h0]
    by_cases h1 : bno < 12 + 1024 + 1024 * 1024
    · rw [if_pos h1, if_pos h1]
      refine ⟨1, _, rfl, ?_⟩
      have hmod : (bno - (12 + 1024)) / 1024 % 1024 = (bno - (12 + 1024)) / 1024 :=
        Nat.mod_eq_of_lt (by omega)
      rw [idPath, idPath, idPath, blockIds, blockIds, nPtr_eq, hmod]
      rfl
    · rw [if_neg h1, if_neg h1, if_pos hlt]
      refine ⟨2, _, rfl, ?_⟩
      rw [idPath, idPath, idPath, idPath, blockIds, blockIds, blockIds, nPtr_eq]
      · rfl
      · exact nofun
      · exact nofun

theorem getBid_ok (hlt : bno < maxBno) (inode : Inode) (s : PageCache) :
    ∃ s', getBid inode bno s = .ok (bidOf s.view inode bno, s') ∧ Becomes s s' s.view := by
  unfold getBid bidOf
  split
  · rename_i hdirect
    have hpath : blockPath bno = (bno, []) := if_pos hdirect
    exact ⟨s, by rw [hpath]; rfl, .refl s⟩
  · rename_i hindirect
    obtain ⟨layer, id, hlayer, hpath⟩ := findBlockLayer_ok (Nat.not_lt.1 hindirect) hlt
    rw [hlayer, hpath, ok_bind]
    exact getBidLoop_ok id (layer + 1) _ s

theorem findBlockLayer_error (hle : maxBno ≤ bno) : findBlockLayer bno = .error .assertk := by
  have hle' := hle
  unfold maxBno at hle'
  rw [findBlockLayer_eq (by omega), if_neg (by omega), if_neg (by omega), if_neg (Nat.not_lt.2 hle)]

theorem not_direct (hle : maxBno ≤ bno) : ¬ bno < nDirectBlock := by
  unfold maxBno at hle
  unfold nDirectBlock
  omega

theorem getBid_error (hle : maxBno ≤ bno) : getBid inode bno s = .error .assertk := by
  rw [getBid, if_neg (not_direct hle), findBlockLayer_error hle]
  rfl

/-- The number of pointers between a pointer of the inode and the data. -/
def slotHeight (slot : Nat) : Nat := slot - 11

theorem blockPath_place (bno : Nat) (hlt : bno < maxBno) :
    (blockPath bno).1 < 15 ∧ (blockPath bno).2.length = slotHeight (blockPath bno).1 ∧
      ∀ j ∈ (blockPath bno).2, j < 1024 := by
  unfold maxBno at hlt
  unfold blockPath slotHeight
  split_ifs with h0 h1 h2 <;> dsimp only
  · exact ⟨by omega, by simp only [List.length_nil]; omega, fun j hj => absurd hj List.not_mem_nil⟩
  · refine ⟨by omega, rfl, fun j hj => ?_⟩
    rw [List.mem_singleton.1 hj]
    omega
  · refine ⟨by omega, rfl, fun j hj => ?_⟩
    simp only [List.mem_cons, List.not_mem_nil, or_false] at hj
    omega
  · refine ⟨by omega, rfl, fun j hj => ?_⟩
    simp only [List.mem_cons, List.not_mem_nil, or_false] at hj
    omega

theorem blockPath_inj {b c : Nat} (h : blockPath b = blockPath c) : b = c := by
  unfold blockPath at h
  split_ifs at h <;> simp only [Prod.mk.injEq, List.cons.injEq, and_true] at h <;> omega

theorem getClearBit_spec (ch : Byte) (h : ch ≠ 0xff) : getClearBit ch < 8 ∧
    ch.getLsbD (getClearBit ch) = false ∧ ∀ m < getClearBit ch, ch.getLsbD m = true := by
  revert ch
  decide

theorem bit_of_byte_full {m : Nat} (hbyte : map i = 0xff) (hle : 8 * i ≤ m)
    (hlt : m < 8 * (i + 1)) : bit map m = true := by
  have hmod : m % 8 < 8 := Nat.mod_lt _ (by decide)
  rw [bit, show m / 8 = i by omega, hbyte]
  revert hmod
  generalize m % 8 = j
  revert j
  decide

theorem setNextZeroBitFrom_spec {map' : Area}
    (h : setNextZeroBitFrom map fuel i = some (n, map')) (hbelow : ∀ m < 8 * i, bit map m = true) :
    n < 8 * (i + fuel) ∧ bit map n = false ∧ (∀ m < n, bit map m = true) ∧ map' = setBit map n := by
  induction fuel generalizing i with
  | zero => cases h
  | succ fuel ih =>
    rw [setNextZeroBitFrom] at h
    split at h
    · rename_i hbyte
      obtain ⟨hlt, hclear, hset⟩ := getClearBit_spec (map i) hbyte
      generalize getClearBit (map i) = k at h hlt hclear hset
      obtain ⟨hn, hmap⟩ := Prod.mk.inj (Option.some.inj h)
      have hn8 : n = k + 8 * i := by
        rw [← hn, Nat.shiftLeft_eq]
        omega
      have hdiv : n / 8 = i := by omega
      have hmod : n % 8 = k := by omega
      refine ⟨by omega, ?_, ?_, ?_⟩
      · rw [bit, hdiv, hmod, hclear]
      · intro m hm
        rcases Nat.lt_or_ge m (8 * i) with hlow | hhigh
        · exact hbelow m hlow
        · rw [bit, show m / 8 = i by omega]
          exact hset (m % 8) (by omega)
      · rw [← hmap, setBit, hdiv, hmod]
    · rename_i hbyte
      have hspec := ih h fun m hm => by
        rcases Nat.lt_or_ge m (8 * i) with hlow | hhigh
        · exact hbelow m hlow
        · exact bit_of_byte_full (Decidable.not_not.1 hbyte) hhigh hm
      rw [Nat.add_assoc, Nat.add_comm 1 fuel] at hspec
      exact hspec

theorem setNextZeroBit_spec {map' : Area} {max : Nat} (h : setNextZeroBit map max = some (n, map')) :
    n < 8 * max ∧ bit map n = false ∧ (∀ m < n, bit map m = true) ∧ map' = setBit map n := by
  have hspec := setNextZeroBitFrom_spec h fun m hm => absurd hm (Nat.not_lt_zero m)
  rwa [Nat.zero_add] at hspec

theorem setNextZeroBitFrom_none
    (h : setNextZeroBitFrom map fuel i = none) (hle : 8 * i ≤ n) (hlt : n < 8 * (i + fuel)) :
    bit map n = true := by
  induction fuel generalizing i with
  | zero => omega
  | succ fuel ih =>
    rw [setNextZeroBitFrom] at h
    split at h
    · cases h
    · rename_i hbyte
      by_cases hin : n < 8 * (i + 1)
      · exact bit_of_byte_full (Decidable.not_not.1 hbyte) hle hin
      · exact ih h (by omega) (by omega)

theorem setNextZeroBit_none {max : Nat} (h : setNextZeroBit map max = none)
    (hlt : n < 8 * max) : bit map n = true :=
  setNextZeroBitFrom_none h (Nat.zero_le n) (by omega)

def groupCount (count : Area → Nat → Nat) (v : Nat → Area) (g : Nat) : Nat :=
  count (v (gdNo g)) (descriptorOffset g)

/-- The first of the groups with the least count. -/
structure LeastFree (free : Nat → Nat) (cnt g : Nat) : Prop where
  lt : g < cnt
  le : ∀ g' < cnt, free g ≤ free g'
  first : ∀ g' < g, free g < free g'

/-- The groups that the search from `i` on looks at, one after the other. -/
def nthGroup (cnt i : Nat) : Nat → Nat
  | 0 => i
  | k + 1 => (nthGroup cnt i k + 1) % 2 ^ 32 % cnt

/-- The search from `i` on ends at `g`: the groups before it are full, and it is not, or it is `i` again. -/
def StopsAt (free : Nat → Nat) (cnt i g : Nat) : Prop :=
  ∃ k, g = nthGroup cnt i k ∧ (free g ≠ 0 ∨ 0 < k ∧ g = i) ∧
    ∀ j < k, free (nthGroup cnt i j) = 0 ∧ (0 < j → nthGroup cnt i j ≠ i)

section Groups

variable {count : Area → Nat → Nat} {v : Nat → Area} {free : Nat → Nat} {cnt : Nat}

theorem LeastFree.of_lt (h : ∀ g < i, free i < free g) : LeastFree free (i + 1) i where
  lt := Nat.lt_succ_self i
  le := by
    intro g hg
    rcases Nat.lt_succ_iff_lt_or_eq.1 hg with hlt | rfl
    · exact (h g hlt).le
    · exact le_rfl
  first := h

theorem LeastFree.succ (h : LeastFree free i g) (hle : free g ≤ free i) : LeastFree free (i + 1) g where
  lt := Nat.lt_succ_of_lt h.lt
  le := by
    intro g' hg'
    rcases Nat.lt_succ_iff_lt_or_eq.1 hg' with hlt | rfl
    · exact h.le g' hlt
    · exact hle
  first := h.first

theorem getRawGd_count (count : Area → Nat → Nat) (s : PageCache) (g : Nat) :
    ∃ s', getRawGd s g = .ok (gdNo g, descriptorOffset g, s') ∧ Becomes s s' s.view ∧
      count (s'.data (gdNo g)) (descriptorOffset g) = groupCount count s.view g := by
  obtain ⟨s', hgd, hbecomes, hvalid⟩ := getRawGd_ok s g
  refine ⟨s', hgd, hbecomes, ?_⟩
  rw [hvalid.data_eq, hbecomes.view]
  rfl

/-- The loop keeps the first of the groups with the least count among those it has seen. -/
theorem findGroupMin_least (hcount : ∀ a off, count a off < 2 ^ 16) (fuel : Nat) : ∀ {s : PageCache}
    {i min : Nat} {groupNo : Option Nat}, s.view = v → i + fuel = cnt → 0 < cnt →
    (groupNo = none → i = 0 ∧ 2 ^ 16 ≤ min) →
    (∀ g, groupNo = some g → LeastFree (groupCount count v) i g ∧ min = groupCount count v g) →
    ∃ g s', findGroupMin count s fuel i min groupNo = .ok (g, s') ∧ Becomes s s' v ∧
      LeastFree (groupCount count v) cnt g := by
  induction fuel with
  | zero =>
    rintro s i min groupNo rfl hcnt hpos hnone hsome
    cases groupNo with
    | none =>
      have := (hnone rfl).1
      omega
    | some g =>
      rw [Nat.add_zero] at hcnt
      exact ⟨g, s, rfl, .refl s, hcnt ▸ (hsome g rfl).1⟩
  | succ fuel ih =>
    rintro s i min groupNo rfl hcnt hpos hnone hsome
    obtain ⟨s1, hgd, hbecomes, hfree⟩ := getRawGd_count count s i
    have hlt := hcount (s.view (gdNo i)) (descriptorOffset i)
    have hstep : ∃ min' g0, LeastFree (groupCount count s.view) (i + 1) g0 ∧
        min' = groupCount count s.view g0 ∧
        findGroupMin count s (fuel + 1) i min groupNo =
          findGroupMin count s1 fuel (i + 1) min' (some g0) := by
      rw [findGroupMin, hgd, ok_bind]
      dsimp only
      rw [hfree]
      split
      · rename_i hmin
        refine ⟨_, i, LeastFree.of_lt fun g' hg' => ?_, rfl, rfl⟩
        cases groupNo with
        | none => exact absurd hg' (by rw [(hnone rfl).1]; exact Nat.not_lt_zero g')
        | some g0 =>
          obtain ⟨hleast, rfl⟩ := hsome g0 rfl
          exact lt_of_lt_of_le hmin (hleast.le g' hg')
      · rename_i hmin
        cases groupNo with
        | none =>
          have := (hnone rfl).2
          exact absurd (hlt.trans_le this) hmin
        | some g0 =>
          obtain ⟨hleast, rfl⟩ := hsome g0 rfl
          exact ⟨_, g0, hleast.succ (Nat.not_lt.1 hmin), rfl, rfl⟩
    obtain ⟨min', g0, hleast, hmin, heq⟩ := hstep
    obtain ⟨g, s', hrun, hbecomes', hleast'⟩ := @ih s1 (i + 1) min' (some g0) hbecomes.view (by omega) hpos
      nofun fun g hg => by
        cases hg
        exact ⟨hleast, hmin⟩
    exact ⟨g, s', heq.trans hrun, hbecomes.trans hbecomes', hleast'⟩

theorem findGroupNext_stops {k : Nat}
    (hbefore : ∀ j < k, groupCount count s.view (nthGroup cnt i j) = 0 ∧ (0 < j → nthGroup cnt i j ≠ i))
    (hk : 0 < k → nthGroup cnt i k ≠ i)
    (h : findGroupNext count s cnt i fuel (nthGroup cnt i k) = .ok (g, s')) :
    Becomes s s' s.view ∧ StopsAt (groupCount count s.view) cnt i g := by
  induction fuel generalizing s k with
  | zero => cases h
  | succ fuel ih =>
    obtain ⟨s1, hgd, hbecomes, hcount⟩ := getRawGd_count count s (nthGroup cnt i k)
    rw [findGroupNext, hgd, ok_bind] at h
    dsimp only at h
    rw [hcount] at h
    split at h
    · rename_i hfree
      cases h
      exact ⟨hbecomes, k, rfl, .inl hfree, hbefore⟩
    · rename_i hfull
      have hbefore' : ∀ j < k + 1, groupCount count s.view (nthGroup cnt i j) = 0 ∧
          (0 < j → nthGroup cnt i j ≠ i) := by
        intro j hj
        rcases Nat.lt_succ_iff_lt_or_eq.1 hj with hlt | rfl
        · exact hbefore j hlt
        · exact ⟨not_not.1 hfull, hk⟩
      split at h
      · cases h
      · split at h
        · rename_i hne
          obtain ⟨hbecomes', hstops⟩ := @ih s1 (k + 1) (by rwa [hbecomes.view]) (fun _ => Ne.symm hne) h
          rw [hbecomes.view] at hbecomes' hstops
          exact ⟨hbecomes.trans hbecomes', hstops⟩
        · rename_i heq
          cases h
          exact ⟨hbecomes, k + 1, rfl, .inr ⟨k.succ_pos, (not_not.1 heq).symm⟩, hbefore'⟩

/-- The first branch of `find_group`. -/
theorem findGroupMin_ok (hcount : ∀ a off, count a off < 2 ^ 16) (hpos : 0 < cnt) (s : PageCache) :
    ∃ g s', findGroupMin count s cnt 0 0xffffffff none = .ok (g, s') ∧ Becomes s s' s.view ∧
      LeastFree (groupCount count s.view) cnt g :=
  findGroupMin_least hcount cnt rfl (Nat.zero_add cnt) hpos (fun _ => ⟨rfl, by decide⟩) nofun

theorem findGroupMin_eq_ok (hcount : ∀ a off, count a off < 2 ^ 16)
    (h : findGroupMin count s cnt 0 0xffffffff none = .ok (g, s')) :
    Becomes s s' s.view ∧ LeastFree (groupCount count s.view) cnt g := by
  rcases Nat.eq_zero_or_pos cnt with rfl | hpos
  · cases h
  · obtain ⟨g', s1, hok, hspec⟩ := findGroupMin_ok hcount hpos s
    cases h.symm.trans hok
    exact hspec

end Groups

theorem freeBlockCnt_lt (a : Area) (off : Nat) : freeBlockCnt a off < 2 ^ 16 := load_lt _ _ _

/-- The group at which `find_group` ends, read off the counts of the groups. -/
def FoundGroup (sb : Ext2SbInfo) (v : Nat → Area) (inode : Inode) (g : Nat) : Prop :=
  if inode.blockCnt = 0 then LeastFree (groupCount freeBlockCnt v) sb.groupCnt g
  else StopsAt (groupCount freeBlockCnt v) sb.groupCnt (inode.blocks 0 / sb.blockPerGroup) g

theorem findGroup_spec (h : findGroup sb inode s = .ok (g, s')) :
    Becomes s s' s.view ∧ FoundGroup sb s.view inode g := by
  unfold findGroup at h
  unfold FoundGroup
  split at h
  · rw [if_pos ‹_›]
    exact findGroupMin_eq_ok freeBlockCnt_lt h
  · rw [if_neg ‹_›]
    dsimp only at h
    split at h
    · cases h
    · split at h
      · cases h
      · exact findGroupNext_stops (k := 0) nofun nofun h

theorem descAt_eq_ok {info : InfoDescriptor} (h : sb.descAt g = .ok info) : sb.desc[g]? = some info := by
  unfold Ext2SbInfo.descAt at h
  cases hd : sb.desc[g]? with
  | none =>
    rw [hd] at h
    cases h
  | some info' =>
    rw [hd] at h
    cases h
    rfl

def withFreeBlockCnt (v : Nat → Area) (g : Nat) (f : Nat → Nat) : Nat → Area :=
  update v (gdNo g) (setFreeBlockCnt (v (gdNo g)) (descriptorOffset g)
    (f (freeBlockCnt (v (gdNo g)) (descriptorOffset g))))

theorem setBlockBitmap_spec {bid : Nat} (h : setBlockBitmap sb inode s = .ok (bid, s')) :
    ∃ g info n, (∃ s1, findGroup sb inode s = .ok (g, s1)) ∧ sb.desc[g]? = some info ∧
      n < blockSize ∧ bit (s.view (bitmapNo info)) n = false ∧
      (∀ m < n, bit (s.view (bitmapNo info)) m = true) ∧ bid = (n + g * sb.blockPerGroup) % 2 ^ 32 ∧
      Becomes s s' (withFreeBlockCnt
        (update s.view (bitmapNo info) (setBit (s.view (bitmapNo info)) n)) g
        (· + 2 ^ 16 - 1)) := by
  obtain ⟨⟨g, s1⟩, hgroup, h⟩ := bind_eq_ok h
  obtain ⟨info, hinfo, h⟩ := bind_eq_ok h
  have h1 := (findGroup_spec hgroup).1
  obtain ⟨s2, hread, h2, hvalid2⟩ := ext2BlockRead_ok s1 info.blockBitmapAddr
  rw [hread, ok_bind] at h
  rw [h1.view] at h2
  dsimp only at h
  cases hset : setNextZeroBit (s2.data (ext2Block2Lba info.blockBitmapAddr)) (blockSize / 8) with
  | none =>
    rw [hset] at h
    cases h
  | some r =>
    obtain ⟨n, map⟩ := r
    rw [hset] at h
    dsimp only at h
    obtain ⟨hn, hclear, hbelow, rfl⟩ := setNextZeroBit_spec hset
    rw [hvalid2.data_eq, h2.view] at h hclear hbelow
    have h3 := setData_becomes hvalid2
      (setBit (s.view (ext2Block2Lba info.blockBitmapAddr)) n)
    rw [h2.view] at h3
    generalize s2.setData _ _ = s3 at h h3
    obtain ⟨s4, hgd, h4, hvalid4⟩ := getRawGd_ok s3 g
    rw [hgd, ok_bind] at h
    dsimp only at h
    rw [h3.view] at h4
    rw [hvalid4.data_eq, h4.view] at h
    have h5 := setData_becomes hvalid4 (setFreeBlockCnt
      (update s.view (bitmapNo info) (setBit (s.view (bitmapNo info)) n) (gdNo g))
      (descriptorOffset g) (freeBlockCnt
        (update s.view (bitmapNo info) (setBit (s.view (bitmapNo info)) n) (gdNo g))
        (descriptorOffset g) + 2 ^ 16 - 1))
    rw [h4.view] at h5
    have hvalid5 : (s4.setData _ _).Valid (gdNo g) := h5.valid _ hvalid4
    obtain ⟨s6, hmark6, h6⟩ := markPageDirty_ok hvalid5
    rw [h5.view] at h6
    have hvalid6 : s6.Valid (bitmapNo info) :=
      h6.valid _ (h5.valid _ (h4.valid _ (h3.valid _ hvalid2)))
    obtain ⟨s7, hmark7, h7⟩ := markPageDirty_ok hvalid6
    rw [h6.view] at h7
    have hall := h1.trans (h2.trans (h3.trans (h4.trans (h5.trans (h6.trans h7)))))
    refine ⟨g, info, n, ⟨s1, hgroup⟩, descAt_eq_ok hinfo, hn, hclear, hbelow, ?_⟩
    obtain ⟨s6', hm6, h⟩ := bind_eq_ok h
    obtain rfl := Except.ok.inj (hm6.symm.trans hmark6)
    obtain ⟨s7', hm7, h⟩ := bind_eq_ok h
    obtain rfl := Except.ok.inj (hm7.symm.trans hmark7)
    cases h
    exact ⟨rfl, hall⟩

/-- `clear_block_bitmap` clears the bit whose number in the group's bitmap is the number of the block. -/
theorem clearBlockBitmap_spec {bid : Nat} (h : clearBlockBitmap sb bid s = .ok s') :
    ∃ info, sb.desc[bid / sb.blockPerGroup]? = some info ∧ bid / 8 < pageSize ∧
      Becomes s s' (update (withFreeBlockCnt s.view (bid / sb.blockPerGroup) (· + 1))
        (bitmapNo info) (clearBit
          (withFreeBlockCnt s.view (bid / sb.blockPerGroup) (· + 1) (bitmapNo info)) bid)) := by
  unfold clearBlockBitmap at h
  split at h
  · cases h
  · generalize bid / sb.blockPerGroup = g at h ⊢
    obtain ⟨s1, hgd, h1, hvalid1⟩ := getRawGd_ok s g
    dsimp only at h
    rw [hgd, ok_bind] at h
    dsimp only at h
    rw [hvalid1.data_eq, h1.view] at h
    have h2 := setData_becomes hvalid1 (setFreeBlockCnt (s.view (gdNo g)) (descriptorOffset g)
      (freeBlockCnt (s.view (gdNo g)) (descriptorOffset g) + 1))
    rw [h1.view] at h2
    obtain ⟨info, hinfo, h⟩ := bind_eq_ok h
    have hvalid2 := h2.valid _ hvalid1
    change Becomes _ _ (withFreeBlockCnt s.view g (· + 1)) at h2
    generalize withFreeBlockCnt s.view g (· + 1) = v at h2 ⊢
    generalize s1.setData _ _ = s2 at h h2 hvalid2
    obtain ⟨s3, hread, h3, hvalid3⟩ := ext2BlockRead_ok s2 info.blockBitmapAddr
    rw [h2.view] at h3
    obtain ⟨⟨page, s3'⟩, hread', h⟩ := bind_eq_ok h
    cases hread'.symm.trans hread
    dsimp only at h
    rw [hvalid3.data_eq, h3.view] at h
    split at h
    · rename_i hin
      have h4 := setData_becomes hvalid3 (clearBit (v (bitmapNo info)) bid)
      rw [h3.view] at h4
      obtain ⟨s5, hmark5, h5⟩ := markPageDirty_ok (h4.valid _ (h3.valid _ hvalid2))
      rw [h4.view] at h5
      obtain ⟨s6, hmark6, h6⟩ := markPageDirty_ok (h5.valid _ (h4.valid _ hvalid3))
      rw [h5.view] at h6
      obtain ⟨s5', hm5, h⟩ := bind_eq_ok h
      cases hm5.symm.trans hmark5
      cases h.symm.trans hmark6
      exact ⟨info, descAt_eq_ok hinfo, hin, h1.trans (h2.trans (h3.trans (h4.trans (h5.trans h6))))⟩
    · cases h

end QuarkOS
