import Mathlib.Algebra.Order.Ring.Nat
import Mathlib.Tactic.Common

/-!
# Areas of bytes

An area of memory is a function from offsets to bytes. It is read and written in three ways: as
little-endian words (`load`, `store`), as runs of bytes (`slice`, `copy`), and as a bit map (`bit`,
`setBit`, `clearBit`). Each way of writing comes with what it does to each way of reading, and with
what it leaves alone.
-/

namespace Bytes

open Function

abbrev Byte := BitVec 8

abbrev Area := Nat → Byte

/-! ### Words -/

/-- The little-endian number in the `w` bytes at `off`. -/
def load (b : Area) (off : Nat) : Nat → Nat
  | 0 => 0
  | w + 1 => (b off).toNat + 256 * load b (off + 1) w

/-- The low `w` bytes of `v`, written at `off`. -/
def store (b : Area) (off w v : Nat) : Area := fun i =>
  if off ≤ i ∧ i < off + w then BitVec.ofNat 8 (v / 256 ^ (i - off)) else b i

variable {b c : Area} {off w v i off' n : Nat} {src : List Byte}

theorem load_congr (h : ∀ i, off ≤ i → i < off + w → b i = c i) : load b off w = load c off w := by
  induction w generalizing off with
  | zero => rfl
  | succ w ih =>
    rw [load, load, h off le_rfl (by omega), ih fun i hle hlt => h i (by omega) (by omega)]

theorem load_lt (b : Area) (off w : Nat) : load b off w < 256 ^ w := by
  induction w generalizing off with
  | zero => exact Nat.one_pos
  | succ w ih =>
    have hbyte : (b off).toNat < 256 := (b off).isLt
    have hrest := ih (off + 1)
    rw [load, pow_succ]
    omega

theorem load_zero (off w : Nat) : load (fun _ => 0) off w = 0 := by
  induction w generalizing off with
  | zero => rfl
  | succ w ih => rw [load, ih]; rfl

theorem store_of_mem (hle : off ≤ i) (hlt : i < off + w) :
    store b off w v i = BitVec.ofNat 8 (v / 256 ^ (i - off)) :=
  if_pos ⟨hle, hlt⟩

theorem store_of_not_mem (h : i < off ∨ off + w ≤ i) : store b off w v i = b i :=
  if_neg (by omega)

theorem load_store : load (store b off w v) off w = v % 256 ^ w := by
  -- The last `n` of the `w` bytes hold the number without its low `k` bytes.
  suffices htail : ∀ n k, k + n = w →
      load (store b off w v) (off + k) n = v / 256 ^ k % 256 ^ n by
    simpa using htail w 0 (Nat.zero_add w)
  intro n
  induction n with
  | zero =>
    intro k _
    rw [load, pow_zero, Nat.mod_one]
  | succ n ih =>
    intro k hk
    rw [load, store_of_mem (by omega) (by omega), Nat.add_assoc off k 1, ih (k + 1) (by omega),
      Nat.add_sub_cancel_left, BitVec.toNat_ofNat, pow_succ 256 k, ← Nat.div_div_eq_div_mul,
      pow_succ' 256 n, Nat.mod_mul]

theorem load_store_of_disjoint {w' : Nat}
    (h : off' + w' ≤ off ∨ off + w ≤ off') : load (store b off w v) off' w' = load b off' w' :=
  load_congr fun _ hle hlt => store_of_not_mem (by omega)

theorem byte_load {k : Nat} (hk : k < w) (off : Nat) :
    BitVec.ofNat 8 (load b off w / 256 ^ k) = b (off + k) := by
  induction w generalizing off k with
  | zero => exact absurd hk (Nat.not_lt_zero k)
  | succ w ih =>
    have hbyte : (b off).toNat < 256 := (b off).isLt
    rw [load]
    cases k with
    | zero =>
      apply BitVec.eq_of_toNat_eq
      rw [pow_zero, Nat.div_one, Nat.add_zero off, BitVec.toNat_ofNat]
      omega
    | succ k =>
      have hdiv : ((b off).toNat + 256 * load b (off + 1) w) / 256 = load b (off + 1) w := by
        omega
      rw [pow_succ', ← Nat.div_div_eq_div_mul, hdiv, ih (by omega), Nat.add_assoc, Nat.add_comm 1]

theorem store_zero (b : Area) (off v : Nat) : store b off 0 v = b := by
  funext i
  exact store_of_not_mem (by omega)

theorem store_succ (b : Area) (off w v : Nat) :
    store (update b off (BitVec.ofNat 8 v)) (off + 1) w (v / 256) = store b off (w + 1) v := by
  funext i
  by_cases hi : i = off
  · subst hi
    rw [store_of_not_mem (by omega), store_of_mem le_rfl (by omega), update_self, Nat.sub_self,
      pow_zero, Nat.div_one]
  · by_cases hmem : off + 1 ≤ i ∧ i < off + 1 + w
    · have hsub : i - off = i - (off + 1) + 1 := by omega
      rw [store_of_mem hmem.1 hmem.2, store_of_mem (by omega) (by omega), Nat.div_div_eq_div_mul, hsub,
        pow_succ']
    · rw [store_of_not_mem (by omega), store_of_not_mem (by omega), update_of_ne hi]

/-! ### Memory made of words -/

/-- The bytes of little-endian words. -/
def ofWords (m : Nat → BitVec 32) : Area := fun i =>
  BitVec.ofNat 8 ((m (i / 4)).toNat / 256 ^ (i % 4))

/-- The words that the bytes make up. -/
def toWords (b : Area) : Nat → BitVec 32 := fun w => BitVec.ofNat 32 (load b (4 * w) 4)

theorem load_ofWords (m : Nat → BitVec 32) (w : Nat) : load (ofWords m) (4 * w) 4 = (m w).toNat := by
  have hstore : load (ofWords m) (4 * w) 4 = load (store (ofWords m) (4 * w) 4 (m w).toNat) (4 * w) 4 := by
    apply load_congr
    intro i hle hlt
    have hdiv : i / 4 = w := by omega
    have hmod : i % 4 = i - 4 * w := by omega
    rw [store_of_mem hle hlt, ofWords, hdiv, hmod]
  rw [hstore, load_store]
  exact Nat.mod_eq_of_lt (m w).isLt

theorem toWords_ofWords (m : Nat → BitVec 32) : toWords (ofWords m) = m := by
  funext w
  rw [toWords, load_ofWords, BitVec.ofNat_toNat, BitVec.setWidth_eq]

theorem ofWords_toWords (b : Area) : ofWords (toWords b) = b := by
  funext i
  have hlt : load b (4 * (i / 4)) 4 < 2 ^ 32 := load_lt b _ 4
  rw [ofWords, toWords, BitVec.toNat_ofNat, Nat.mod_eq_of_lt hlt, byte_load (Nat.mod_lt _ (by decide)),
    Nat.div_add_mod]

theorem toWords_store (m : Nat → BitVec 32) (w : Nat) (v : BitVec 32) :
    toWords (store (ofWords m) (4 * w) 4 v.toNat) = update m w v := by
  funext i
  rw [toWords]
  by_cases hi : i = w
  · subst hi
    have hlt : v.toNat < 256 ^ 4 := v.isLt
    rw [load_store, update_self, Nat.mod_eq_of_lt hlt, BitVec.ofNat_toNat, BitVec.setWidth_eq]
  · rw [load_store_of_disjoint (by omega), update_of_ne hi, load_ofWords, BitVec.ofNat_toNat,
      BitVec.setWidth_eq]

/-! ### Runs of bytes -/

/-- The `n` bytes at `off`. -/
def slice (b : Area) (off n : Nat) : List Byte := (List.range n).map fun i => b (off + i)

/-- The bytes `src`, written at `off`. -/
def copy (b : Area) (off : Nat) (src : List Byte) : Area := fun i =>
  if off ≤ i then (src[i - off]?).getD (b i) else b i

@[simp] theorem length_slice (b : Area) (off n : Nat) : (slice b off n).length = n := by
  rw [slice, List.length_map, List.length_range]

theorem slice_congr (h : ∀ i, off ≤ i → i < off + n → b i = c i) : slice b off n = slice c off n := by
  apply List.map_congr_left
  intro i hi
  have hlt := List.mem_range.1 hi
  exact h (off + i) (by omega) (by omega)

theorem copy_of_mem (hi : i < src.length) : copy b off src (off + i) = src[i] := by
  rw [copy, if_pos (Nat.le_add_right off i), Nat.add_sub_cancel_left, List.getElem?_eq_getElem hi,
    Option.getD_some]

theorem copy_of_not_mem (h : i < off ∨ off + src.length ≤ i) : copy b off src i = b i := by
  unfold copy
  split
  · rw [List.getElem?_eq_none (by omega), Option.getD_none]
  · rfl

theorem slice_eq_iff {l : List Byte} :
    slice b off l.length = l ↔ ∀ i, (hi : i < l.length) → b (off + i) = l[i] := by
  constructor
  · intro h i hi
    have hget := List.getElem_of_eq h (i := i) (by rw [length_slice]; exact hi)
    rw [← hget]
    simp only [slice, List.getElem_map, List.getElem_range]
  · intro h
    apply List.ext_getElem (length_slice b off l.length)
    intro i _ hi
    rw [← h i hi]
    simp only [slice, List.getElem_map, List.getElem_range]

theorem slice_add (b : Area) (off m n : Nat) :
    slice b off (m + n) = slice b off m ++ slice b (off + m) n := by
  simp only [slice, List.range_add, List.map_append, List.map_map, comp_def, Nat.add_assoc]

theorem slice_copy (b : Area) (off : Nat) (src : List Byte) : slice (copy b off src) off src.length = src :=
  slice_eq_iff.2 fun _ hi => copy_of_mem hi

theorem slice_copy_of_disjoint
    (h : off' + n ≤ off ∨ off + src.length ≤ off') : slice (copy b off src) off' n = slice b off' n :=
  slice_congr fun _ hle hlt => copy_of_not_mem (by omega)

theorem load_copy_of_disjoint
    (h : off' + w ≤ off ∨ off + src.length ≤ off') : load (copy b off src) off' w = load b off' w :=
  load_congr fun _ hle hlt => copy_of_not_mem (by omega)

theorem slice_store_of_disjoint
    (h : off' + n ≤ off ∨ off + w ≤ off') : slice (store b off w v) off' n = slice b off' n :=
  slice_congr fun _ hle hlt => store_of_not_mem (by omega)

/-! ### Bit maps -/

def bit (b : Area) (n : Nat) : Bool := (b (n / 8)).getLsbD (n % 8)

def setBit (b : Area) (n : Nat) : Area :=
  update b (n / 8) (b (n / 8) ||| BitVec.ofNat 8 (1 <<< (n % 8)))

def clearBit (b : Area) (n : Nat) : Area :=
  update b (n / 8) (b (n / 8) &&& ~~~BitVec.ofNat 8 (1 <<< (n % 8)))

/-- The number of clear bits among the first `n`. -/
def clearCount (b : Area) : Nat → Nat
  | 0 => 0
  | n + 1 => clearCount b n + if bit b n then 0 else 1

private theorem getLsbD_mask {j : Nat} (hi : i < 8) :
    (BitVec.ofNat 8 (1 <<< j)).getLsbD i = decide (i = j) := by
  rw [BitVec.getLsbD_ofNat, Nat.one_shiftLeft, Nat.testBit_two_pow, decide_eq_true hi, Bool.true_and]
  exact decide_eq_decide.2 eq_comm

theorem bit_setBit (b : Area) (n m : Nat) : bit (setBit b n) m = if m = n then true else bit b m := by
  have hlt : m % 8 < 8 := Nat.mod_lt _ (by decide)
  unfold bit setBit
  by_cases hbyte : m / 8 = n / 8
  · rw [hbyte, update_self, BitVec.getLsbD_or, getLsbD_mask hlt]
    by_cases hmn : m = n
    · rw [if_pos hmn, hmn, decide_eq_true rfl, Bool.or_true]
    · rw [if_neg hmn, decide_eq_false (by omega), Bool.or_false]
  · rw [update_of_ne hbyte, if_neg (fun h => hbyte (by rw [h]))]

theorem bit_clearBit (b : Area) (n m : Nat) : bit (clearBit b n) m = if m = n then false else bit b m := by
  have hlt : m % 8 < 8 := Nat.mod_lt _ (by decide)
  unfold bit clearBit
  by_cases hbyte : m / 8 = n / 8
  · rw [hbyte, update_self, BitVec.getLsbD_and, BitVec.getLsbD_not, getLsbD_mask hlt,
      decide_eq_true hlt, Bool.true_and]
    by_cases hmn : m = n
    · rw [if_pos hmn, hmn, decide_eq_true rfl, Bool.not_true, Bool.and_false]
    · rw [if_neg hmn, decide_eq_false (by omega), Bool.not_false, Bool.and_true]
  · rw [update_of_ne hbyte, if_neg (fun h => hbyte (by rw [h]))]

theorem clearCount_congr (h : ∀ i < n, bit b i = bit c i) : clearCount b n = clearCount c n := by
  induction n with
  | zero => rfl
  | succ n ih =>
    rw [clearCount, clearCount, h n (Nat.lt_succ_self n), ih fun i hi => h i (Nat.lt_succ_of_lt hi)]

theorem clearCount_le (b : Area) (n : Nat) : clearCount b n ≤ n := by
  induction n with
  | zero => rfl
  | succ n ih =>
    rw [clearCount]
    split <;> omega

theorem exists_clear_of_clearCount (h : clearCount b n ≠ 0) : ∃ i < n, bit b i = false := by
  induction n with
  | zero => exact absurd rfl h
  | succ n ih =>
    cases hbit : bit b n with
    | false => exact ⟨n, Nat.lt_succ_self n, hbit⟩
    | true =>
      rw [clearCount, hbit, if_pos rfl, Nat.add_zero] at h
      obtain ⟨i, hi, hclear⟩ := ih h
      exact ⟨i, Nat.lt_succ_of_lt hi, hclear⟩

/-- Two maps that differ in one bit, which is clear in the first and set in the second. -/
theorem clearCount_of_flip (hi : i < n) (hb : bit b i = false)
    (hc : bit c i = true) (h : ∀ j, j ≠ i → bit b j = bit c j) :
    clearCount b n = clearCount c n + 1 := by
  induction n with
  | zero => exact absurd hi (Nat.not_lt_zero i)
  | succ n ih =>
    rw [clearCount, clearCount]
    rcases Nat.lt_succ_iff_lt_or_eq.1 hi with hlt | rfl
    · rw [ih hlt, h n (by omega)]
      omega
    · rw [hb, hc, clearCount_congr fun j hj => h j (by omega)]
      rfl

theorem clearCount_setBit (hi : i < n) (hb : bit b i = false) :
    clearCount b n = clearCount (setBit b i) n + 1 := by
  apply clearCount_of_flip hi hb
  · rw [bit_setBit, if_pos rfl]
  · intro j hj
    rw [bit_setBit, if_neg hj]

theorem clearCount_clearBit (hi : i < n) (hb : bit b i = true) :
    clearCount (clearBit b i) n = clearCount b n + 1 := by
  apply clearCount_of_flip hi _ hb
  · intro j hj
    rw [bit_clearBit, if_neg hj]
  · rw [bit_clearBit, if_pos rfl]

end Bytes
