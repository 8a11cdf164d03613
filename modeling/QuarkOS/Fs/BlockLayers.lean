import Mathlib.Data.Set.Function
import Mathlib.Order.Interval.Set.Defs
import QuarkOS.Fs.Blocks
import QuarkOS.Lib.Radix

/-!
# Indirect pointers of any block size

`find_block_layer` with the size of a block as the super block gives it, and with the wrap-around of its
32-bit subtractions and products. The blocks behind the direct ones are numbered like the places that the
indirect pointers reach, in the lexicographic order of the layer and the indices from the inode to the data.
-/

namespace QuarkOS

namespace BlockLayers

open Radix

/-- `id[0]`, `id[1]` and `id[2]`. -/
def ids (nPtr sqr bno : Nat) : Nat → Nat
  | 0 => bno % nPtr
  | 1 => bno / nPtr % nPtr
  | _ => bno / sqr

def findBlockLayer (blockSize bno : Nat) : Except Fault (Nat × (Nat → Nat)) :=
  let nPtr := blockSize / 4
  let bno := (bno + 2 ^ 32 - nDirectBlock) % 2 ^ 32
  let (bno, layer) := if nPtr ≤ bno then (bno - nPtr, 1) else (bno, 0)
  let sqr := nPtr * nPtr % 2 ^ 32
  let (bno, layer) := if sqr ≤ bno then (bno - sqr, 2) else (bno, layer)
  do
    -- A divisor of zero fails here.
    assertk (bno < sqr * nPtr % 2 ^ 32)
    .ok (layer, ids nPtr sqr bno)

variable {blockSize bno bno' n : Nat}

/-- The model of the block trees has blocks of a page. -/
theorem findBlockLayer_4096 (hle : 12 ≤ bno) (hlt : bno < 2 ^ 32) :
    findBlockLayer 4096 bno = QuarkOS.findBlockLayer bno := by
  have hids : ids nPtr (nPtr * nPtr) = blockIds := by
    funext b i
    match i with
    | 0 | 1 | i + 2 => rfl
  have hbase : (bno + 2 ^ 32 - nDirectBlock) % 2 ^ 32 = bno - nDirectBlock := by
    rw [nDirectBlock]
    omega
  rw [findBlockLayer, QuarkOS.findBlockLayer, hbase, ← hids]
  rfl

/-- What the indirect pointers with `n` pointers in a block lead to: the layer, and an index for each block
of pointers on the way from the inode. -/
def Places (n : Nat) : Set (Nat × List Nat) :=
  {p | p.1 ≤ 2 ∧ p.2.length = p.1 + 1 ∧ ∀ i ∈ p.2, i < n}

/-- The places in their order: `n` of layer 0, `n * n` of layer 1 and the rest of layer 2. -/
def placeAt (n bno : Nat) : Nat × List Nat :=
  if bno < n then (0, digits n 1 bno)
  else if bno < n + n * n then (1, digits n 2 (bno - n))
  else (2, digits n 3 (bno - (n + n * n)))

theorem findBlockLayer_eq (hn : 2 ≤ n) (hsize : blockSize / 4 = n)
    (hlt : n * n * n + n * n + n + 12 < 2 ^ 32) (hbno : bno < n + n * n + n * n * n) :
    ∃ id, findBlockLayer blockSize (12 + bno) = .ok ((placeAt n bno).1, id) ∧
      idPath id ((placeAt n bno).1 + 1) = (placeAt n bno).2 ∧
      ∀ i, (placeAt n bno).1 < i → i ≤ 2 → id i = 0 := by
  have hsqr : n ≤ n * n := Nat.le_mul_self n
  have hcube : n * n ≤ n * n * n := Nat.le_mul_of_pos_right _ (by omega)
  have hpos : 0 < n * n := Nat.mul_pos (by omega) (by omega)
  have hbase : (12 + bno + 2 ^ 32 - nDirectBlock) % 2 ^ 32 = bno := by
    rw [nDirectBlock]
    omega
  rw [findBlockLayer, placeAt]
  dsimp only
  rw [hsize, hbase, Nat.mod_eq_of_lt (by omega : n * n < 2 ^ 32),
    Nat.mod_eq_of_lt (by omega : n * n * n < 2 ^ 32)]
  by_cases h0 : bno < n
  · have hzero : bno / n = 0 := Nat.div_eq_of_lt h0
    rw [if_neg (by omega : ¬ n ≤ bno), if_pos h0]
    dsimp only
    rw [if_neg (by omega : ¬ n * n ≤ bno)]
    dsimp only
    rw [assertk_pos (by omega)]
    refine ⟨_, rfl, ?_, fun i hi hle => ?_⟩
    · simp [idPath, ids, digits, Nat.mod_eq_of_lt h0]
    · obtain rfl | rfl : i = 1 ∨ i = 2 := by omega
      · rw [ids, hzero, Nat.zero_mod]
      · exact Nat.div_eq_of_lt (by omega)
  · rw [if_pos (by omega : n ≤ bno), if_neg h0]
    dsimp only
    by_cases h1 : bno < n + n * n
    · rw [if_neg (by omega : ¬ n * n ≤ bno - n), if_pos h1]
      dsimp only
      rw [assertk_pos (by omega)]
      have hdiv : (bno - n) / n < n := (Nat.div_lt_iff_lt_mul (by omega)).2 (by omega)
      refine ⟨_, rfl, ?_, fun i hi hle => ?_⟩
      · simp [idPath, ids, digits, Nat.mod_eq_of_lt hdiv]
      · obtain rfl : i = 2 := by omega
        exact Nat.div_eq_of_lt (by omega)
    · rw [if_pos (by omega : n * n ≤ bno - n), if_neg h1]
      dsimp only
      rw [assertk_pos (by omega)]
      refine ⟨_, rfl, ?_, fun i hi hle => absurd hi (Nat.not_lt.2 hle)⟩
      simp [idPath, ids, digits, Nat.sub_sub, Nat.pow_two, Nat.mod_mul_right_div_self]

theorem placeAt_mem (hn : 2 ≤ n) (hbno : bno < n + n * n + n * n * n) : placeAt n bno ∈ Places n := by
  have hpos : 0 < n := by omega
  rw [placeAt]
  split
  · exact ⟨by simp, length_digits .., digits_lt hpos (by rw [Nat.pow_one]; omega)⟩
  · split
    · exact ⟨by simp, length_digits .., digits_lt hpos (by rw [Nat.pow_two]; omega)⟩
    · exact ⟨by simp, length_digits .., digits_lt hpos (by rw [Nat.pow_succ, Nat.pow_two]; omega)⟩

theorem placeAt_lex (hn : 2 ≤ n) (hlt : bno < bno') (hbno : bno' < n + n * n + n * n * n) :
    Prod.Lex (· < ·) (List.Lex (· < ·)) (placeAt n bno) (placeAt n bno') := by
  have hpos : 0 < n := by omega
  rw [placeAt, placeAt]
  by_cases h0 : bno' < n
  · rw [if_pos h0, if_pos (hlt.trans h0)]
    exact .right _ (digits_lex hpos hlt (by rw [Nat.pow_one]; omega))
  · rw [if_neg h0]
    by_cases h1 : bno' < n + n * n
    · rw [if_pos h1]
      split
      · exact .left _ _ Nat.zero_lt_one
      · rw [if_pos (hlt.trans h1)]
        exact .right _ (digits_lex hpos (by omega) (by rw [Nat.pow_two]; omega))
    · rw [if_neg h1]
      split
      · exact .left _ _ Nat.zero_lt_two
      · split
        · exact .left _ _ Nat.one_lt_two
        · exact .right _ (digits_lex hpos (by omega) (by rw [Nat.pow_succ, Nat.pow_two]; omega))

theorem placeAt_injOn (hn : 2 ≤ n) : Set.InjOn (placeAt n) (Set.Iio (n + n * n + n * n * n)) := by
  have hirrefl : ∀ p : Nat × List Nat, ¬ Prod.Lex (· < ·) (List.Lex (· < ·)) p p :=
    fun p h => (Prod.lex_def.1 h).elim (Nat.lt_irrefl _) fun h => List.lt_irrefl _ h.2
  intro a ha b hb heq
  rcases Nat.lt_trichotomy a b with hlt | rfl | hlt
  · exact absurd (heq ▸ placeAt_lex hn hlt hb) (hirrefl _)
  · rfl
  · exact absurd (heq ▸ placeAt_lex hn hlt ha) (hirrefl _)

theorem placeAt_surjOn (n : Nat) : Set.SurjOn (placeAt n) (Set.Iio (n + n * n + n * n * n)) (Places n) := by
  rintro ⟨layer, l⟩ ⟨hlayer, hlen, hl⟩
  change layer ≤ 2 at hlayer
  change l.length = layer + 1 at hlen
  change ∀ i ∈ l, i < n at hl
  have hlt := value_lt hl
  have hdigits := digits_value hl
  rw [hlen] at hlt hdigits
  obtain rfl | rfl | rfl : layer = 0 ∨ layer = 1 ∨ layer = 2 := by omega
  · rw [Nat.pow_one] at hlt
    refine ⟨value n l, by rw [Set.mem_Iio]; omega, ?_⟩
    rw [placeAt, if_pos hlt, hdigits]
  · rw [Nat.pow_two] at hlt
    refine ⟨n + value n l, by rw [Set.mem_Iio]; omega, ?_⟩
    rw [placeAt, if_neg (by omega), if_pos (by omega), Nat.add_sub_cancel_left, hdigits]
  · rw [Nat.pow_succ, Nat.pow_two] at hlt
    refine ⟨n + n * n + value n l, by rw [Set.mem_Iio]; omega, ?_⟩
    rw [placeAt, if_neg (by omega), if_neg (by omega), Nat.add_sub_cancel_left, hdigits]

/-- `find_block_layer` succeeds on every block behind the direct ones, leaves the indices it does not use
zero, and numbers the places one-to-one in their lexicographic order. -/
theorem findBlockLayer_bijection (hn : 2 ≤ n) (hsize : blockSize / 4 = n)
    (hlt : n ^ 3 + n ^ 2 + n + 12 < 2 ^ 32) :
    ∃ place : Nat → Nat × List Nat,
      (∀ bno, 12 ≤ bno → bno < 12 + n + n ^ 2 + n ^ 3 → ∃ layer id,
        findBlockLayer blockSize bno = .ok (layer, id) ∧ place bno = (layer, idPath id (layer + 1)) ∧
          ∀ i, layer < i → i ≤ 2 → id i = 0) ∧
      Set.BijOn place (Set.Ico 12 (12 + n + n ^ 2 + n ^ 3)) (Places n) ∧
      ∀ bno bno', 12 ≤ bno → bno < bno' → bno' < 12 + n + n ^ 2 + n ^ 3 →
        Prod.Lex (· < ·) (List.Lex (· < ·)) (place bno) (place bno') := by
  have hcube : n ^ 3 = n * n * n := by rw [Nat.pow_succ, Nat.pow_two]
  simp only [hcube, Nat.pow_two n] at hlt ⊢
  have hshift : Set.BijOn (· - 12) (Set.Ico 12 (12 + n + n * n + n * n * n))
      (Set.Iio (n + n * n + n * n * n)) := by
    refine ⟨fun a ha => ?_, fun a ha b hb heq => ?_, fun a ha => ⟨12 + a, ?_, Nat.add_sub_cancel_left ..⟩⟩
    · rw [Set.mem_Ico] at ha
      change a - 12 < _
      omega
    · rw [Set.mem_Ico] at ha hb
      have heq : a - 12 = b - 12 := heq
      omega
    · rw [Set.mem_Iio] at ha
      rw [Set.mem_Ico]
      omega
  have hplace : Set.BijOn (placeAt n) (Set.Iio (n + n * n + n * n * n)) (Places n) :=
    ⟨fun _ => placeAt_mem hn, placeAt_injOn hn, placeAt_surjOn n⟩
  refine ⟨placeAt n ∘ (· - 12), fun bno hle hbno => ?_, hplace.comp hshift, fun bno bno' hle h hbno => ?_⟩
  · obtain ⟨id, hfind, hpath, hzero⟩ :=
      findBlockLayer_eq hn hsize hlt (by omega : bno - 12 < n + n * n + n * n * n)
    rw [Nat.add_sub_cancel' hle] at hfind
    refine ⟨_, id, hfind, ?_, hzero⟩
    rw [hpath]
    rfl
  · have hlt' : bno' - 12 < n + n * n + n * n * n := by omega
    exact placeAt_lex hn (by omega : bno - 12 < bno' - 12) hlt'

/-- The blocks of the block trees, whose pointer blocks are pages. -/
theorem findBlockLayer_bijection_page : ∃ place : Nat → Nat × List Nat,
    (∀ bno, 12 ≤ bno → bno < 12 + 1024 + 1024 ^ 2 + 1024 ^ 3 → ∃ layer id,
      QuarkOS.findBlockLayer bno = .ok (layer, id) ∧ place bno = (layer, idPath id (layer + 1)) ∧
        ∀ i, layer < i → i ≤ 2 → id i = 0) ∧
    Set.BijOn place (Set.Ico 12 (12 + 1024 + 1024 ^ 2 + 1024 ^ 3)) (Places 1024) ∧
    ∀ bno bno', 12 ≤ bno → bno < bno' → bno' < 12 + 1024 + 1024 ^ 2 + 1024 ^ 3 →
      Prod.Lex (· < ·) (List.Lex (· < ·)) (place bno) (place bno') := by
  obtain ⟨place, hfind, hplace⟩ :=
    @findBlockLayer_bijection 4096 1024 (by decide) (by decide) (by decide)
  refine ⟨place, fun bno hle hlt => ?_, hplace⟩
  rw [← findBlockLayer_4096 hle (hlt.trans (by decide))]
  exact hfind bno hle hlt

end BlockLayers

end QuarkOS
