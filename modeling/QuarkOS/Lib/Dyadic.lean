import Mathlib.Algebra.BigOperators.Group.Finset.Basic
import Mathlib.Data.Set.Function
import Mathlib.Data.Set.Insert
import Mathlib.Order.Interval.Finset.Nat
import Mathlib.Tactic.Common
import Mathlib.Tactic.Ring

/-!
# Aligned power-of-two blocks

A block of order `k` is `2 ^ k` consecutive places that start at a multiple of `2 ^ k`. Two such
blocks that share a place are nested, which is what makes the buddy of a block a place where another
block of a tiling must start: `Tiling.exists_buddy`. Cutting a block into its two halves and joining
two halves again keep a tiling. A tiling without a pair of buddies is unique: `Tiling.eq_of_coalesced`.
`carve` is the way to it that takes the largest blocks first.
-/

namespace Dyadic

structure Block where
  start : Nat
  order : Nat
deriving DecidableEq, Repr

namespace Block

def size (b : Block) : Nat := 2 ^ b.order

instance : Membership Nat Block where
  mem b i := b.start ≤ i ∧ i < b.start + b.size

variable {b : Block} {i : Nat}

theorem mem_def : i ∈ b ↔ b.start ≤ i ∧ i < b.start + 2 ^ b.order := Iff.rfl

theorem start_mem (b : Block) : b.start ∈ b :=
  ⟨le_rfl, Nat.lt_add_of_pos_right (Nat.two_pow_pos b.order)⟩

theorem mem_page {p : Nat} : i ∈ (⟨p, 0⟩ : Block) ↔ i = p := by
  change p ≤ i ∧ i < p + 1 ↔ i = p
  omega

def Aligned (b : Block) : Prop := 2 ^ b.order ∣ b.start

theorem mem_iff_div_eq (hb : b.Aligned) : i ∈ b ↔ i / 2 ^ b.order = b.start / 2 ^ b.order := by
  obtain ⟨q, hq⟩ := hb
  have hpos : 0 < 2 ^ b.order := Nat.two_pow_pos _
  rw [mem_def, hq, Nat.mul_div_cancel_left q hpos, Nat.div_eq_iff hpos, Nat.mul_comm q]
  generalize 2 ^ b.order * q = p
  omega

/-- Of two aligned blocks that share a place, the one of smaller order lies inside the other. -/
theorem mem_of_mem_of_order_le {c : Block} {j : Nat} (hb : b.Aligned) (hc : c.Aligned)
    (hib : i ∈ b) (hic : i ∈ c) (hle : b.order ≤ c.order) (hj : j ∈ b) : j ∈ c := by
  rw [mem_iff_div_eq hc] at hic ⊢
  rw [mem_iff_div_eq hb] at hib hj
  obtain ⟨d, hd⟩ := Nat.exists_eq_add_of_le hle
  rw [← hic, hd, pow_add, ← Nat.div_div_eq_div_mul, ← Nat.div_div_eq_div_mul, hj, hib]

/-- A block of smaller order that holds a multiple of a larger power of two starts there. -/
theorem start_eq_of_mem {k : Nat} (hb : b.Aligned) (hi : i ∈ b) (hik : 2 ^ k ∣ i)
    (hle : b.order ≤ k) : b.start = i := by
  have hdvd : 2 ^ b.order ∣ i := (pow_dvd_pow 2 hle).trans hik
  have hdiv := (mem_iff_div_eq hb).1 hi
  rw [← Nat.div_mul_cancel hdvd, hdiv, Nat.div_mul_cancel hb]

/-! ### Buddies -/

/-- The block next to `b` with which it makes up a block of the next order. -/
def buddy (b : Block) : Block :=
  if b.start / 2 ^ b.order % 2 = 1 then ⟨b.start - 2 ^ b.order, b.order⟩
  else ⟨b.start + 2 ^ b.order, b.order⟩

/-- The block of the next order around `b`. -/
def parent (b : Block) : Block := ⟨min b.start b.buddy.start, b.order + 1⟩

@[simp] theorem buddy_order (b : Block) : b.buddy.order = b.order := by
  unfold buddy
  split <;> rfl

@[simp] theorem parent_order (b : Block) : b.parent.order = b.order + 1 := rfl

section

variable (hb : b.Aligned)
include hb

theorem half_cases :
    ∃ q, (b.start = 2 ^ b.order * (2 * q) ∧ b.buddy.start = 2 ^ b.order * (2 * q) + 2 ^ b.order ∧
        b.parent.start = 2 ^ b.order * (2 * q)) ∨
      (b.start = 2 ^ b.order * (2 * q) + 2 ^ b.order ∧ b.buddy.start = 2 ^ b.order * (2 * q) ∧
        b.parent.start = 2 ^ b.order * (2 * q)) := by
  obtain ⟨p, hp⟩ := hb
  have hdiv : b.start / 2 ^ b.order = p := by
    rw [hp, Nat.mul_div_cancel_left p (Nat.two_pow_pos _)]
  refine ⟨p / 2, ?_⟩
  rcases Nat.mod_two_eq_zero_or_one p with hmod | hmod
  · left
    have hp2 : 2 * (p / 2) = p := by omega
    have hbuddy : b.buddy.start = b.start + 2 ^ b.order := by simp [buddy, hdiv, hmod]
    rw [parent, hbuddy, hp2, ← hp]
    simp
  · right
    have hp2 : 2 * (p / 2) + 1 = p := by omega
    have hstart : b.start = 2 ^ b.order * (2 * (p / 2)) + 2 ^ b.order := by
      conv_lhs => rw [hp, ← hp2, Nat.mul_add, Nat.mul_one]
    have hbuddy : b.buddy.start = b.start - 2 ^ b.order := by simp [buddy, hdiv, hmod]
    rw [parent, hbuddy, hstart]
    simp

theorem buddy_aligned : b.buddy.Aligned := by
  rw [Aligned, buddy_order]
  obtain ⟨q, ⟨_, hbuddy, _⟩ | ⟨_, hbuddy, _⟩⟩ := half_cases hb <;> rw [hbuddy]
  · exact Nat.dvd_add (dvd_mul_right _ _) dvd_rfl
  · exact dvd_mul_right _ _

theorem parent_aligned : b.parent.Aligned := by
  rw [Aligned, parent_order, pow_succ]
  obtain ⟨q, ⟨_, _, hparent⟩ | ⟨_, _, hparent⟩⟩ := half_cases hb <;> rw [hparent] <;>
    exact Nat.mul_dvd_mul_left _ (dvd_mul_right 2 q)

theorem mem_parent : i ∈ b.parent ↔ i ∈ b ∨ i ∈ b.buddy := by
  rw [mem_def, mem_def, mem_def, parent_order, buddy_order, pow_succ]
  obtain ⟨q, ⟨hs, hbuddy, hparent⟩ | ⟨hs, hbuddy, hparent⟩⟩ := half_cases hb <;>
    rw [hs, hbuddy, hparent] <;> omega

theorem not_mem_buddy (hi : i ∈ b) : i ∉ b.buddy := by
  rw [mem_def] at hi ⊢
  rw [buddy_order]
  obtain ⟨q, ⟨hs, hbuddy, _⟩ | ⟨hs, hbuddy, _⟩⟩ := half_cases hb <;> rw [hs] at hi <;>
    rw [hbuddy] <;> omega

theorem buddy_ne : b.buddy ≠ b := by
  intro he
  exact not_mem_buddy hb b.start_mem (by rw [he]; exact b.start_mem)

theorem buddy_buddy : b.buddy.buddy = b := by
  obtain ⟨q, ⟨hs, hbuddy, _⟩ | ⟨hs, hbuddy, _⟩⟩ := half_cases hb
  all_goals
    have hpos : 0 < 2 ^ b.order := Nat.two_pow_pos _
    obtain ⟨start, order⟩ := b
    dsimp only at hs hpos
    rw [buddy, buddy_order, hbuddy]
  · have hodd : (2 ^ order * (2 * q) + 2 ^ order) / 2 ^ order % 2 = 1 := by
      rw [← Nat.mul_succ, Nat.mul_div_cancel_left _ hpos]
      omega
    rw [if_pos hodd, hs, Nat.add_sub_cancel]
  · have heven : ¬ 2 ^ order * (2 * q) / 2 ^ order % 2 = 1 := by
      rw [Nat.mul_div_cancel_left _ hpos]
      omega
    rw [if_neg heven, hs]

end

theorem lower_half {p k : Nat} (h : (⟨p, k + 1⟩ : Block).Aligned) :
    (⟨p, k⟩ : Block).Aligned ∧ (⟨p, k⟩ : Block).buddy = ⟨p + 2 ^ k, k⟩ ∧
      (⟨p, k⟩ : Block).parent = ⟨p, k + 1⟩ := by
  obtain ⟨q, hq⟩ := h
  have hp : p = 2 ^ k * (2 * q) := by
    rw [← Nat.mul_assoc, ← pow_succ]
    exact hq
  have hbuddy : (⟨p, k⟩ : Block).buddy = ⟨p + 2 ^ k, k⟩ := by
    have hdiv : p / 2 ^ k = 2 * q := by rw [hp, Nat.mul_div_cancel_left _ (Nat.two_pow_pos k)]
    simp [buddy, hdiv]
  refine ⟨⟨2 * q, hp⟩, hbuddy, ?_⟩
  rw [parent, hbuddy]
  simp

end Block

/-! ### Tilings -/

/-- The blocks `T`, none of an order above `m`, cut the places below `n` into disjoint pieces. -/
structure Tiling (n m : Nat) (T : Set Block) : Prop where
  aligned : ∀ b ∈ T, b.Aligned
  order_le : ∀ b ∈ T, b.order ≤ m
  lt_of_mem : ∀ b ∈ T, ∀ i ∈ b, i < n
  cover : ∀ i < n, ∃ b ∈ T, i ∈ b
  eq_of_mem : ∀ b ∈ T, ∀ c ∈ T, ∀ i ∈ b, i ∈ c → b = c

namespace Tiling

variable {n m : Nat} {T : Set Block} {b : Block}

section

variable (hT : Tiling n m T)
include hT

theorem start_lt (hb : b ∈ T) : b.start < n :=
  hT.lt_of_mem b hb _ b.start_mem

theorem eq_of_start_eq {c : Block} (hb : b ∈ T) (hc : c ∈ T)
    (hstart : b.start = c.start) : b = c :=
  hT.eq_of_mem b hb c hc b.start b.start_mem (by rw [hstart]; exact c.start_mem)

/-- Where the buddy of a block of a tiling would start, some block of no larger order does start. -/
theorem exists_buddy (hb : b ∈ T) (hn : b.buddy.start < n) :
    ∃ c ∈ T, c.start = b.buddy.start ∧ c.order ≤ b.order := by
  obtain ⟨c, hc, hmem⟩ := hT.cover _ hn
  have halign := hT.aligned b hb
  have hdvd : 2 ^ b.order ∣ b.buddy.start := by
    simpa [Block.Aligned] using Block.buddy_aligned halign
  rcases Nat.lt_or_ge b.order c.order with hlt | hle
  · -- A larger block around the buddy is also around `b`, so it is `b`.
    have hin : b.start ∈ c :=
      Block.mem_of_mem_of_order_le (Block.parent_aligned halign) (hT.aligned c hc)
        ((Block.mem_parent halign).2 (Or.inr b.buddy.start_mem)) hmem hlt
        ((Block.mem_parent halign).2 (Or.inl b.start_mem))
    have heq : b = c := hT.eq_of_mem b hb c hc _ b.start_mem hin
    rw [heq] at hlt
    exact absurd hlt (Nat.lt_irrefl _)
  · exact ⟨c, hc, Block.start_eq_of_mem (hT.aligned c hc) hmem hdvd hle, hle⟩

theorem refine (hb : b.Aligned) (hparent : b.parent ∈ T) :
    Tiling n m (insert b (insert b.buddy (T \ {b.parent}))) := by
  have hmem : ∀ c ∈ insert b (insert b.buddy (T \ {b.parent})), ∀ i ∈ c,
      (c = b ∧ i ∈ b ∨ c = b.buddy ∧ i ∈ b.buddy) ∧ i ∈ b.parent ∨
        c ∈ T ∧ c ≠ b.parent ∧ i ∉ b.parent := by
    rintro c (rfl | rfl | ⟨hc, hne⟩) i hi
    · exact Or.inl ⟨Or.inl ⟨rfl, hi⟩, (Block.mem_parent hb).2 (Or.inl hi)⟩
    · exact Or.inl ⟨Or.inr ⟨rfl, hi⟩, (Block.mem_parent hb).2 (Or.inr hi)⟩
    · exact Or.inr ⟨hc, hne, fun hin => hne (hT.eq_of_mem c hc _ hparent i hi hin)⟩
  have hord : b.order ≤ m := Nat.le_of_succ_le (hT.order_le _ hparent)
  refine ⟨?_, ?_, ?_, ?_, ?_⟩
  · rintro c (rfl | rfl | ⟨hc, _⟩)
    · exact hb
    · exact Block.buddy_aligned hb
    · exact hT.aligned c hc
  · rintro c (rfl | rfl | ⟨hc, _⟩)
    · exact hord
    · rw [Block.buddy_order]
      exact hord
    · exact hT.order_le c hc
  · intro c hc i hi
    rcases hmem c hc i hi with ⟨_, hin⟩ | ⟨hcT, _, _⟩
    · exact hT.lt_of_mem _ hparent i hin
    · exact hT.lt_of_mem c hcT i hi
  · intro i hi
    obtain ⟨c, hc, hic⟩ := hT.cover i hi
    by_cases heq : c = b.parent
    · rw [heq, Block.mem_parent hb] at hic
      rcases hic with hic | hic
      · exact ⟨b, by simp, hic⟩
      · exact ⟨b.buddy, by simp, hic⟩
    · exact ⟨c, by simp [hc, heq], hic⟩
  · intro c hc d hd i hic hid
    rcases hmem c hc i hic with ⟨hcb, hin⟩ | ⟨hcT, _, hout⟩ <;>
      rcases hmem d hd i hid with ⟨hdb, hin'⟩ | ⟨hdT, _, hout'⟩
    · have hdis := Block.not_mem_buddy hb (i := i)
      rcases hcb with ⟨rfl, hi⟩ | ⟨rfl, hi⟩ <;> rcases hdb with ⟨rfl, hi'⟩ | ⟨rfl, hi'⟩
      · rfl
      · exact absurd hi' (hdis hi)
      · exact absurd hi (hdis hi')
      · rfl
    · exact absurd hin hout'
    · exact absurd hin' hout
    · exact hT.eq_of_mem c hcT d hdT i hic hid

theorem coarsen (hb : b ∈ T) (hbuddy : b.buddy ∈ T) (hord : b.order < m) :
    Tiling n m (insert b.parent (T \ {b, b.buddy})) := by
  have halign := hT.aligned b hb
  have hout : ∀ c ∈ T \ {b, b.buddy}, ∀ i ∈ c, i ∉ b.parent := by
    rintro c ⟨hc, hne⟩ i hi hin
    apply hne
    rcases (Block.mem_parent halign).1 hin with hin | hin
    · exact Or.inl (hT.eq_of_mem c hc b hb i hi hin)
    · exact Or.inr (hT.eq_of_mem c hc _ hbuddy i hi hin)
  refine ⟨?_, ?_, ?_, ?_, ?_⟩
  · rintro c (rfl | ⟨hc, _⟩)
    · exact Block.parent_aligned halign
    · exact hT.aligned c hc
  · rintro c (rfl | ⟨hc, _⟩)
    · exact hord
    · exact hT.order_le c hc
  · rintro c (rfl | ⟨hc, _⟩) i hi
    · rcases (Block.mem_parent halign).1 hi with hi | hi
      · exact hT.lt_of_mem b hb i hi
      · exact hT.lt_of_mem _ hbuddy i hi
    · exact hT.lt_of_mem c hc i hi
  · intro i hi
    obtain ⟨c, hc, hic⟩ := hT.cover i hi
    by_cases hmem : c = b ∨ c = b.buddy
    · refine ⟨b.parent, by simp, (Block.mem_parent halign).2 ?_⟩
      rcases hmem with rfl | rfl
      · exact Or.inl hic
      · exact Or.inr hic
    · exact ⟨c, Or.inr ⟨hc, by simpa using hmem⟩, hic⟩
  · rintro c hc d hd i hic hid
    rcases hc with rfl | hc <;> rcases hd with rfl | hd
    · rfl
    · exact absurd hic (hout d hd i hid)
    · exact absurd hid (hout c hc i hic)
    · exact hT.eq_of_mem c hc.1 d hd.1 i hic hid

end

end Tiling

/-! ### Tilings without buddies -/

/-- No two of the blocks could be joined to a block of order at most `m`. -/
def Coalesced (m : Nat) (F : Set Block) : Prop := ∀ b ∈ F, b.order < m → b.buddy ∉ F

theorem Coalesced.mono {m : Nat} {F F' : Set Block} (hF : Coalesced m F) (hsub : F' ⊆ F) : Coalesced m F' :=
  fun b hb hord hbuddy => hF b (hsub hb) hord (hsub hbuddy)

theorem Coalesced.insert {m : Nat} {F : Set Block} {b : Block} (hF : Coalesced m F)
    (hb : b.Aligned) (halign : ∀ c ∈ F, c.Aligned) (hbuddy : b.order < m → b.buddy ∉ F) :
    Coalesced m (insert b F) := by
  rintro c (rfl | hc) hord (he | hmem)
  · exact Block.buddy_ne hb he
  · exact hbuddy hord hmem
  · have hbc : b.buddy = c := by rw [← he, Block.buddy_buddy (halign c hc)]
    rw [← he, Block.buddy_order] at hbuddy
    exact hbuddy hord (he ▸ hbc ▸ hc)
  · exact hF c hc hord hmem

namespace Tiling

variable {n m : Nat} {T T' : Set Block}

theorem exists_parent_ge (hT : Tiling n m T) (hco : Coalesced m T) (k : Nat) :
    ∀ b ∈ T, b.order = k → k < m → ∃ i ∈ b.parent, n ≤ i := by
  -- Otherwise the block that starts at the buddy is smaller and its parent does not stick out either.
  induction k using Nat.strong_induction_on with
  | _ k ih =>
    intro b hb hk hkm
    by_contra hin
    push Not at hin
    have halign := hT.aligned b hb
    have hbuddyIn : ∀ i ∈ b.buddy, i < n := fun i hi =>
      hin i ((Block.mem_parent halign).2 (Or.inr hi))
    obtain ⟨c, hc, hstart, hord⟩ := hT.exists_buddy hb (hbuddyIn _ (Block.start_mem _))
    rcases Nat.lt_or_eq_of_le hord with hlt | heq
    · obtain ⟨i, hi, hni⟩ := ih c.order (hk ▸ hlt) c hc rfl (by omega)
      have hcalign := hT.aligned c hc
      have hstartMem : c.start ∈ b.buddy := hstart ▸ Block.start_mem _
      have himem : i ∈ b.buddy := by
        refine Block.mem_of_mem_of_order_le (Block.parent_aligned hcalign)
          (Block.buddy_aligned halign) ((Block.mem_parent hcalign).2 (Or.inl c.start_mem))
          hstartMem ?_ hi
        rw [Block.parent_order, Block.buddy_order]
        omega
      exact absurd (hbuddyIn i himem) (Nat.not_lt.2 hni)
    · have hcb : c = b.buddy := by
        cases hbb : b.buddy with
        | mk start order =>
          have hbo := Block.buddy_order b
          rw [hbb] at hstart hbo
          cases c
          exact congrArg₂ Block.mk hstart (heq.trans hbo.symm)
      exact hco b hb (hk ▸ hkm) (hcb ▸ hc)

private theorem order_le_of_coalesced {b c : Block} {i : Nat} (hT : Tiling n m T)
    (hco : Coalesced m T) (hT' : Tiling n m T') (hb : b ∈ T) (hc : c ∈ T') (hib : i ∈ b)
    (hic : i ∈ c) : c.order ≤ b.order := by
  by_contra hlt
  have halign := hT.aligned b hb
  have hcm := hT'.order_le c hc
  obtain ⟨j, hj, hnj⟩ := hT.exists_parent_ge hco b.order b hb rfl (by omega)
  have hjc : j ∈ c := by
    refine Block.mem_of_mem_of_order_le (Block.parent_aligned halign) (hT'.aligned c hc)
      ((Block.mem_parent halign).2 (Or.inl hib)) hic ?_ hj
    rw [Block.parent_order]
    omega
  exact absurd (hT'.lt_of_mem c hc j hjc) (Nat.not_lt.2 hnj)

private theorem subset_of_coalesced (hT : Tiling n m T) (hco : Coalesced m T)
    (hT' : Tiling n m T') (hco' : Coalesced m T') : T ⊆ T' := by
  intro b hb
  obtain ⟨c, hc, hbc⟩ := hT'.cover _ (hT.start_lt hb)
  have hle := order_le_of_coalesced hT hco hT' hb hc b.start_mem hbc
  have hge := order_le_of_coalesced hT' hco' hT hc hb hbc b.start_mem
  have hstart : c.start = b.start := by
    refine Block.start_eq_of_mem (hT'.aligned c hc) hbc (hT.aligned b hb) ?_
    omega
  cases b
  cases c
  obtain rfl : _ = _ := hstart
  obtain rfl : _ = _ := Nat.le_antisymm hle hge
  exact hc

theorem eq_of_coalesced (hT : Tiling n m T) (hco : Coalesced m T) (hT' : Tiling n m T')
    (hco' : Coalesced m T') : T = T' :=
  (subset_of_coalesced hT hco hT' hco').antisymm (subset_of_coalesced hT' hco' hT hco)

/-- Places that could be one aligned block are in one block, if blocks are joined wherever they can. -/
theorem exists_order_ge {F : Set Block} (hT : Tiling n m T) (hF : F ⊆ T) (hco : Coalesced m F) {k : Nat} :
    ∀ {i : Nat}, k ≤ m → 2 ^ k ∣ i → (∀ j ∈ (⟨i, k⟩ : Block), ∃ c ∈ F, j ∈ c) →
    ∃ c ∈ F, k ≤ c.order ∧ i ∈ c := by
  induction k with
  | zero =>
    intro i _ _ hfree
    obtain ⟨c, hc, hic⟩ := hfree i (Block.start_mem ⟨i, 0⟩)
    exact ⟨c, hc, Nat.zero_le _, hic⟩
  | succ k ih =>
    intro i hk hdvd hfree
    have halign : (⟨i, k + 1⟩ : Block).Aligned := hdvd
    obtain ⟨hlow, hbuddy, hparent⟩ := Block.lower_half halign
    have hmem : ∀ j, j ∈ (⟨i, k + 1⟩ : Block) ↔ j ∈ (⟨i, k⟩ : Block) ∨ j ∈ (⟨i + 2 ^ k, k⟩ : Block) := by
      intro j
      rw [← hparent, ← hbuddy, Block.mem_parent hlow]
    have hup : (⟨i + 2 ^ k, k⟩ : Block).Aligned := hbuddy ▸ Block.buddy_aligned hlow
    -- each half is in one block: the same one, or they are two blocks that would have been joined
    obtain ⟨c, hc, hkc, hic⟩ := ih (by omega) hlow fun j hj => hfree j ((hmem j).2 (Or.inl hj))
    obtain ⟨d, hd, hkd, hid⟩ := ih (by omega) hup fun j hj => hfree j ((hmem j).2 (Or.inr hj))
    rcases Nat.lt_or_ge k d.order with hlt | hge
    · refine ⟨d, hd, hlt, ?_⟩
      exact Block.mem_of_mem_of_order_le halign (hT.aligned d (hF hd))
        ((hmem _).2 (Or.inr (Block.start_mem ⟨i + 2 ^ k, k⟩))) hid hlt (Block.start_mem ⟨i, k + 1⟩)
    rcases Nat.lt_or_ge k c.order with hlt | hge'
    · exact ⟨c, hc, hlt, hic⟩
    have hcstart := Block.start_eq_of_mem (hT.aligned c (hF hc)) hic hlow hge'
    have hdstart := Block.start_eq_of_mem (hT.aligned d (hF hd)) hid hup hge
    obtain ⟨start, order⟩ := c
    obtain ⟨start', order'⟩ := d
    obtain rfl : order = k := Nat.le_antisymm hge' hkc
    obtain rfl : order' = order := Nat.le_antisymm hge hkd
    obtain rfl : start = i := hcstart
    obtain rfl : start' = start + 2 ^ order' := hdstart
    exact absurd (hbuddy ▸ hd) (hco _ hc hk)

end Tiling

/-! ### Largest blocks first -/

/-- Cut `n` places from `start` on into blocks of an order below the first argument, each as large as
it can be. -/
def carve : Nat → Nat → Nat → List Block
  | 0, _, _ => []
  | k + 1, start, n =>
    (List.range (n / 2 ^ k)).map (fun j => ⟨start + j * 2 ^ k, k⟩) ++
      carve k (start + n / 2 ^ k * 2 ^ k) (n % 2 ^ k)

variable {k : Nat}

theorem mem_carve_succ {start n : Nat} {b : Block} :
    b ∈ carve (k + 1) start n ↔ (∃ j < n / 2 ^ k, b = ⟨start + j * 2 ^ k, k⟩) ∨
      b ∈ carve k (start + n / 2 ^ k * 2 ^ k) (n % 2 ^ k) := by
  rw [carve, List.mem_append, List.mem_map]
  refine or_congr_left ⟨?_, ?_⟩
  · rintro ⟨j, hj, rfl⟩
    exact ⟨j, List.mem_range.1 hj, rfl⟩
  · rintro ⟨j, hj, rfl⟩
    exact ⟨j, List.mem_range.2 hj, rfl⟩

theorem carve_within : ∀ {start n : Nat}, ∀ b ∈ carve k start n,
    b.order < k ∧ start ≤ b.start ∧ b.start + 2 ^ b.order ≤ start + n := by
  induction k with
  | zero => exact fun b hb => absurd hb List.not_mem_nil
  | succ k ih =>
    intro start n b hb
    have hdiv := Nat.div_add_mod' n (2 ^ k)
    rcases mem_carve_succ.1 hb with ⟨j, hj, rfl⟩ | hb
    · have hmul : (j + 1) * 2 ^ k ≤ n / 2 ^ k * 2 ^ k := Nat.mul_le_mul_right _ hj
      rw [Nat.succ_mul] at hmul
      refine ⟨Nat.lt_succ_self k, Nat.le_add_right _ _, ?_⟩
      dsimp only
      omega
    · obtain ⟨hord, hge, hle⟩ := ih b hb
      exact ⟨by omega, by omega, by omega⟩

theorem carve_cover : ∀ {start n i : Nat}, 0 < k → start ≤ i → i < start + n →
    ∃ b ∈ carve k start n, i ∈ b := by
  induction k with
  | zero => exact fun h => absurd h (Nat.lt_irrefl 0)
  | succ k ih =>
    intro start n i _ hge hlt
    have hdiv := Nat.div_add_mod' n (2 ^ k)
    have hpos := Nat.two_pow_pos k
    rcases Nat.lt_or_ge i (start + n / 2 ^ k * 2 ^ k) with hin | hout
    · have hoff := Nat.div_add_mod' (i - start) (2 ^ k)
      have hmod := Nat.mod_lt (i - start) hpos
      have hj : (i - start) / 2 ^ k < n / 2 ^ k := by
        rw [Nat.div_lt_iff_lt_mul hpos]
        omega
      refine ⟨⟨start + (i - start) / 2 ^ k * 2 ^ k, k⟩, mem_carve_succ.2 (Or.inl ⟨_, hj, rfl⟩), ?_⟩
      rw [Block.mem_def]
      dsimp only
      omega
    · have hk : 0 < k := by
        by_contra hk
        obtain rfl : k = 0 := by omega
        rw [Nat.pow_zero, Nat.div_one, Nat.mul_one] at hout
        omega
      obtain ⟨b, hb, hi⟩ := ih (n := n % 2 ^ k) hk hout (by omega)
      exact ⟨b, mem_carve_succ.2 (Or.inr hb), hi⟩

theorem carve_eq_of_mem : ∀ {start n i : Nat}, ∀ b ∈ carve k start n,
    ∀ c ∈ carve k start n, i ∈ b → i ∈ c → b = c := by
  induction k with
  | zero => exact fun b hb => absurd hb List.not_mem_nil
  | succ k ih =>
    intro start n i b hb c hc hib hic
    have hpos := Nat.two_pow_pos k
    -- A block of the first order ends where the blocks of the others begin.
    have hfirst : ∀ j < n / 2 ^ k, i ∈ (⟨start + j * 2 ^ k, k⟩ : Block) →
        i < start + n / 2 ^ k * 2 ^ k := by
      intro j hj hi
      have hmul : (j + 1) * 2 ^ k ≤ n / 2 ^ k * 2 ^ k := Nat.mul_le_mul_right _ hj
      rw [Nat.succ_mul] at hmul
      have hlt := (Block.mem_def.1 hi).2
      dsimp only at hlt
      omega
    have hrest : ∀ d ∈ carve k (start + n / 2 ^ k * 2 ^ k) (n % 2 ^ k), i ∈ d →
        start + n / 2 ^ k * 2 ^ k ≤ i := by
      intro d hd hi
      have hge := (carve_within d hd).2.1
      have hle := (Block.mem_def.1 hi).1
      omega
    rcases mem_carve_succ.1 hb with ⟨j, hj, rfl⟩ | hb <;>
      rcases mem_carve_succ.1 hc with ⟨l, hl, rfl⟩ | hc
    · have hjl : j = l := by
        have hb := Block.mem_def.1 hib
        have hc := Block.mem_def.1 hic
        dsimp only at hb hc
        by_contra hne
        rcases Nat.lt_or_gt_of_ne hne with hlt | hgt
        · have hmul : (j + 1) * 2 ^ k ≤ l * 2 ^ k := Nat.mul_le_mul_right _ hlt
          rw [Nat.succ_mul] at hmul
          omega
        · have hmul : (l + 1) * 2 ^ k ≤ j * 2 ^ k := Nat.mul_le_mul_right _ hgt
          rw [Nat.succ_mul] at hmul
          omega
      rw [hjl]
    · exact absurd (hfirst j hj hib) (Nat.not_lt.2 (hrest c hc hic))
    · exact absurd (hfirst l hl hic) (Nat.not_lt.2 (hrest b hb hib))
    · exact ih b hb c hc hib hic

/-- The blocks are aligned when the start is a multiple of every block size that fits. -/
theorem carve_aligned : ∀ {start n : Nat}, (∀ o < k, 2 ^ o ≤ n → 2 ^ o ∣ start) →
    ∀ b ∈ carve k start n, b.Aligned := by
  induction k with
  | zero => exact fun _ b hb => absurd hb List.not_mem_nil
  | succ k ih =>
    intro start n hdvd b hb
    rcases mem_carve_succ.1 hb with ⟨j, hj, rfl⟩ | hb
    · have hfit : 2 ^ k ≤ n := by
        by_contra hlt
        rw [Nat.div_eq_of_lt (Nat.not_le.1 hlt)] at hj
        exact absurd hj (Nat.not_lt_zero j)
      exact Nat.dvd_add (hdvd k (Nat.lt_succ_self k) hfit) (dvd_mul_left _ _)
    · refine ih ?_ b hb
      intro o ho hfit
      have hle : n % 2 ^ k ≤ n := Nat.mod_le n _
      refine Nat.dvd_add (hdvd o (by omega) (hfit.trans hle)) ?_
      exact (pow_dvd_pow 2 ho.le).trans (dvd_mul_left _ _)

theorem exists_carve_start {o : Nat} : ∀ {start n : Nat}, o < k → 2 ^ o ≤ n →
    ∃ j, o ≤ j ∧ (⟨start, j⟩ : Block) ∈ carve k start n := by
  induction k with
  | zero => exact fun h => absurd h (Nat.not_lt_zero o)
  | succ k ih =>
    intro start n ho hfit
    rcases Nat.lt_or_ge n (2 ^ k) with hlt | hge
    · have hok : o < k := by
        by_contra hok
        exact absurd (hfit.trans_lt hlt)
          (Nat.not_lt.2 (Nat.pow_le_pow_right Nat.two_pos (Nat.not_lt.1 hok)))
      obtain ⟨j, hj, hmem⟩ := @ih start n hok hfit
      refine ⟨j, hj, mem_carve_succ.2 (Or.inr ?_)⟩
      rwa [Nat.div_eq_of_lt hlt, Nat.mod_eq_of_lt hlt, Nat.zero_mul, Nat.add_zero]
    · refine ⟨k, Nat.lt_succ_iff.1 ho, mem_carve_succ.2 (Or.inl ⟨0, ?_, ?_⟩)⟩
      · exact Nat.div_pos hge (Nat.two_pow_pos k)
      · rw [Nat.zero_mul, Nat.add_zero]

/-- What is left after the largest blocks has at most one block of each order, and nothing behind it
that it could be joined with. -/
theorem carve_sticks_out : ∀ {start n : Nat}, n < 2 ^ k → 2 ^ k ∣ start →
    ∀ b ∈ carve k start n, 2 ^ (b.order + 1) ∣ b.start ∧
      start + n < b.start + 2 ^ (b.order + 1) := by
  induction k with
  | zero => exact fun _ _ b hb => absurd hb List.not_mem_nil
  | succ k ih =>
    intro start n hlt hdvd b hb
    have hdiv := Nat.div_add_mod' n (2 ^ k)
    have hpos := Nat.two_pow_pos k
    rcases mem_carve_succ.1 hb with ⟨j, hj, rfl⟩ | hb
    · have hone : n / 2 ^ k < 2 := by
        rw [Nat.div_lt_iff_lt_mul hpos, Nat.mul_comm, ← pow_succ]
        exact hlt
      obtain rfl : j = 0 := by omega
      rw [Nat.zero_mul, Nat.add_zero]
      exact ⟨hdvd, Nat.add_lt_add_left hlt start⟩
    · have hstart : 2 ^ k ∣ start + n / 2 ^ k * 2 ^ k :=
        Nat.dvd_add ((pow_dvd_pow 2 (Nat.le_succ k)).trans hdvd) (dvd_mul_left _ _)
      obtain ⟨hb1, hb2⟩ := ih (Nat.mod_lt n hpos) hstart b hb
      exact ⟨hb1, by omega⟩

theorem carve_tiling (n m : Nat) : Tiling n m {b | b ∈ carve (m + 1) 0 n} where
  aligned := carve_aligned fun _ _ _ => dvd_zero _
  order_le b hb := Nat.lt_succ_iff.1 (carve_within b hb).1
  lt_of_mem b hb i hi := by
    have hle := (carve_within b hb).2.2
    have hlt := (Block.mem_def.1 hi).2
    omega
  cover i hi := carve_cover (Nat.succ_pos m) (Nat.zero_le i) (by omega)
  eq_of_mem b hb c hc i hib hic := carve_eq_of_mem b hb c hc hib hic

theorem carve_coalesced (n m : Nat) : Coalesced m {b | b ∈ carve (m + 1) 0 n} := by
  intro b hb hord hbuddy
  rcases mem_carve_succ.1 hb with ⟨j, _, rfl⟩ | hb'
  · exact absurd hord (Nat.lt_irrefl m)
  -- The block is a lower half, so its buddy ends behind the last place.
  have hdiv := Nat.div_add_mod' n (2 ^ m)
  obtain ⟨hdvd, hout⟩ := carve_sticks_out (Nat.mod_lt n (Nat.two_pow_pos m))
    (by rw [Nat.zero_add]; exact dvd_mul_left _ _) b hb'
  obtain ⟨_, hup, _⟩ := Block.lower_half (p := b.start) (k := b.order) hdvd
  have hle := (carve_within _ hbuddy).2.2
  have hbb : b.buddy = ⟨b.start + 2 ^ b.order, b.order⟩ := hup
  rw [hbb] at hle
  dsimp only at hle
  rw [pow_succ] at hout
  omega

end Dyadic
