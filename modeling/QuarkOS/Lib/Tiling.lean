import Mathlib.Algebra.Order.BigOperators.Group.List
import Mathlib.Algebra.Order.Ring.Nat
import Mathlib.Tactic.Common

/-!
# Rows of blocks

Blocks that lie one after the other from an offset on, each as long as its size. `Placed` says where a
block of the row starts; two blocks of a row lie apart.
-/

namespace Tiling

variable {α : Type*} {size : α → Nat}

/-- The length of a row. -/
def span (size : α → Nat) (l : List α) : Nat := (l.map size).sum

@[simp] theorem span_nil : span size [] = 0 := rfl

@[simp] theorem span_cons (b : α) (l : List α) : span size (b :: l) = size b + span size l := rfl

theorem span_append (l1 l2 : List α) : span size (l1 ++ l2) = span size l1 + span size l2 := by
  rw [span, List.map_append, List.sum_append, span, span]

theorem le_span_of_mem (size : α → Nat) {b : α} {l : List α} (h : b ∈ l) : size b ≤ span size l :=
  List.le_sum_of_mem (List.mem_map_of_mem h)

theorem dvd_span {n : Nat} {l : List α} (h : ∀ b ∈ l, n ∣ size b) : n ∣ span size l := by
  induction l with
  | nil => exact Nat.dvd_zero n
  | cons b l ih =>
    exact Nat.dvd_add (h b List.mem_cons_self) (ih fun c hc => h c (List.mem_cons_of_mem b hc))

theorem mul_length_le_span {n : Nat} {l : List α} (h : ∀ b ∈ l, n ≤ size b) :
    n * l.length ≤ span size l := by
  induction l with
  | nil => exact le_rfl
  | cons b l ih =>
    have hb := h b List.mem_cons_self
    have hl := ih fun c hc => h c (List.mem_cons_of_mem b hc)
    rw [span_cons, List.length_cons, Nat.mul_add, Nat.mul_one]
    omega

/-- In the row that starts at `off`, the block `c` starts at `a`. -/
def Placed (size : α → Nat) : Nat → List α → Nat → α → Prop
  | _, [], _, _ => False
  | off, b :: rest, a, c => a = off ∧ c = b ∨ Placed size (off + size b) rest a c

variable {l l1 l2 : List α} {off a a' : Nat} {b c c' : α}

theorem placed_append : Placed size off (l1 ++ l2) a c ↔
      Placed size off l1 a c ∨ Placed size (off + span size l1) l2 a c := by
  induction l1 generalizing off with
  | nil => exact (or_iff_right (b := Placed size off l2 a c) (a := False) id).symm
  | cons b l1 ih =>
    rw [List.cons_append, Placed, Placed, ih, or_assoc, span_cons, Nat.add_assoc]

theorem Placed.le (h : Placed size off l a c) : off ≤ a ∧ a + size c ≤ off + span size l := by
  induction l generalizing off with
  | nil => exact h.elim
  | cons b l ih =>
    rw [span_cons]
    rcases h with ⟨rfl, rfl⟩ | h
    · omega
    · have hle := ih h
      omega

theorem Placed.mem (h : Placed size off l a c) : c ∈ l := by
  induction l generalizing off with
  | nil => exact h.elim
  | cons b l ih =>
    rcases h with ⟨_, rfl⟩ | h
    · exact List.mem_cons_self
    · exact List.mem_cons_of_mem b (ih h)

theorem Placed.exists_append (h : Placed size off l a c) :
    ∃ l1 l2, l = l1 ++ c :: l2 ∧ a = off + span size l1 := by
  induction l generalizing off with
  | nil => exact h.elim
  | cons b l ih =>
    rcases h with ⟨rfl, rfl⟩ | h
    · exact ⟨[], l, rfl, rfl⟩
    · obtain ⟨l1, l2, rfl, rfl⟩ := ih h
      exact ⟨b :: l1, l2, rfl, by rw [span_cons, Nat.add_assoc]⟩

theorem Placed.replace {old new : List α} (h : Placed size off (l1 ++ (old ++ l2)) a c)
    (hnot : ¬Placed size (off + span size l1) old a c) (hspan : span size new = span size old) :
    Placed size off (l1 ++ (new ++ l2)) a c := by
  rw [placed_append, placed_append] at h ⊢
  rw [hspan]
  rcases h with h | h | h
  · exact Or.inl h
  · exact absurd h hnot
  · exact Or.inr (Or.inr h)

theorem Placed.apart (h : Placed size off l a c) (h' : Placed size off l a' c') (hne : a ≠ a') :
    a + size c ≤ a' ∨ a' + size c' ≤ a := by
  induction l generalizing off with
  | nil => exact h.elim
  | cons b l ih =>
    rcases h with ⟨rfl, rfl⟩ | h
    · rcases h' with ⟨rfl, rfl⟩ | h'
      · exact absurd rfl hne
      · exact Or.inl h'.le.1
    · rcases h' with ⟨rfl, rfl⟩ | h'
      · exact Or.inr h.le.1
      · exact ih h h'

theorem Placed.unique (hpos : ∀ b ∈ l, 0 < size b) (h : Placed size off l a c)
    (h' : Placed size off l a c') : c = c' := by
  induction l generalizing off with
  | nil => exact h.elim
  | cons b l ih =>
    have hb := hpos b List.mem_cons_self
    rcases h with ⟨rfl, rfl⟩ | h
    · rcases h' with ⟨_, rfl⟩ | h'
      · rfl
      · have hle := h'.le
        omega
    · rcases h' with ⟨rfl, rfl⟩ | h'
      · have hle := h.le
        omega
      · exact ih (fun d hd => hpos d (List.mem_cons_of_mem b hd)) h h'

end Tiling
