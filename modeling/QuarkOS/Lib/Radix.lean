import Mathlib.Algebra.Ring.Nat
import Mathlib.Data.List.Lex

/-!
# Numbers with a fixed number of digits

The digits of a number in a base, the one of highest weight first. Below the power of the base they are in
one-to-one correspondence with the numbers, and the lexicographic order is that of the numbers.
-/

namespace Radix

variable {n k m m' : Nat} {l : List Nat}

/-- The first digit is not reduced. -/
def digits (n : Nat) : Nat → Nat → List Nat
  | 0, _ => []
  | k + 1, m => m / n ^ k :: digits n k (m % n ^ k)

def value (n : Nat) : List Nat → Nat
  | [] => 0
  | d :: l => d * n ^ l.length + value n l

theorem length_digits (n k m : Nat) : (digits n k m).length = k := by
  induction k generalizing m with
  | zero => rfl
  | succ k ih => rw [digits, List.length_cons, ih]

theorem digits_lt (hn : 0 < n) (hm : m < n ^ k) : ∀ d ∈ digits n k m, d < n := by
  induction k generalizing m with
  | zero => simp [digits]
  | succ k ih =>
    have hpos : 0 < n ^ k := Nat.pow_pos hn
    intro d hd
    rcases List.mem_cons.1 hd with rfl | hd
    · rw [Nat.pow_succ, Nat.mul_comm] at hm
      exact (Nat.div_lt_iff_lt_mul hpos).2 hm
    · exact ih (Nat.mod_lt m hpos) d hd

theorem value_lt (h : ∀ d ∈ l, d < n) : value n l < n ^ l.length := by
  induction l with
  | nil => simp [value]
  | cons d l ih =>
    have hl := ih fun e he => h e (List.mem_cons_of_mem d he)
    have hd : (d + 1) * n ^ l.length ≤ n * n ^ l.length :=
      Nat.mul_le_mul_right _ (h d List.mem_cons_self)
    rw [value, List.length_cons, Nat.pow_succ, Nat.mul_comm _ n]
    rw [Nat.add_mul, Nat.one_mul] at hd
    omega

theorem digits_value (h : ∀ d ∈ l, d < n) : digits n l.length (value n l) = l := by
  induction l with
  | nil => rfl
  | cons d l ih =>
    have htail : ∀ e ∈ l, e < n := fun e he => h e (List.mem_cons_of_mem d he)
    have hlt := value_lt htail
    rw [List.length_cons, digits, value, Nat.mul_comm, Nat.mul_add_div (Nat.zero_lt_of_lt hlt),
      Nat.div_eq_of_lt hlt, Nat.mul_add_mod, Nat.mod_eq_of_lt hlt, ih htail, Nat.add_zero]

theorem digits_lex (hn : 0 < n) (hlt : m < m') (hm' : m' < n ^ k) :
    List.Lex (· < ·) (digits n k m) (digits n k m') := by
  induction k generalizing m m' with
  | zero =>
    rw [Nat.pow_zero] at hm'
    omega
  | succ k ih =>
    have hpos : 0 < n ^ k := Nat.pow_pos hn
    rcases Nat.lt_or_eq_of_le (Nat.div_le_div_right (c := n ^ k) hlt.le) with hdiv | hdiv
    · exact .rel hdiv
    · rw [digits, digits, hdiv]
      have hm := Nat.div_add_mod m (n ^ k)
      have hm' := Nat.div_add_mod m' (n ^ k)
      rw [hdiv] at hm
      exact .cons (ih (by omega) (Nat.mod_lt m' hpos))

end Radix
