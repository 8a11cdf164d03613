import Mathlib.Data.List.Basic
import Mathlib.Logic.Function.Basic

/-!
# Links in the elements of a queue

A singly linked list whose links are a field of its elements: an element can be in it only once. `Chain` says
which elements it has, in their order.
-/

namespace Queue

open Function

variable {α : Type} {next next' : α → Option α} {start : Option α} {l : List α} {x : α}

/-- The links lead from `start` through the elements of a list to the end. -/
def Chain (next : α → Option α) : Option α → List α → Prop
  | start, [] => start = none
  | start, x :: l => start = some x ∧ Chain next (next x) l

theorem Chain.congr (h : Chain next start l) (heq : ∀ x ∈ l, next' x = next x) : Chain next' start l := by
  induction l generalizing start with
  | nil => exact h
  | cons x l ih =>
    refine ⟨h.1, ?_⟩
    rw [heq x List.mem_cons_self]
    exact ih h.2 fun y hy => heq y (List.mem_cons_of_mem x hy)

theorem Chain.unique {l' : List α} (h : Chain next start l) (h' : Chain next start l') : l = l' := by
  induction l generalizing start l' with
  | nil =>
    cases l' with
    | nil => rfl
    | cons y l' => cases h.symm.trans h'.1
  | cons x l ih =>
    cases l' with
    | nil => cases h.1.symm.trans h'
    | cons y l' =>
      obtain rfl := Option.some.inj (h.1.symm.trans h'.1)
      rw [ih h.2 h'.2]

theorem Chain.of_append {k : List α} (h : Chain next start (k ++ x :: l)) :
    Chain next (some x) (x :: l) := by
  induction k generalizing start with
  | nil => exact ⟨rfl, h.2⟩
  | cons y k ih => exact ih h.2

theorem Chain.nodup (h : Chain next start l) : l.Nodup := by
  induction l generalizing start with
  | nil => exact List.nodup_nil
  | cons x l ih =>
    refine List.nodup_cons.2 ⟨fun hx => ?_, ih h.2⟩
    obtain ⟨k, m, rfl⟩ := List.append_of_mem hx
    have hlong : Chain next (some x) (x :: (k ++ x :: m)) := ⟨rfl, h.2⟩
    have hlen := congrArg List.length (hlong.unique (Chain.of_append h.2))
    simp only [List.length_cons, List.length_append] at hlen
    omega

theorem Chain.concat [DecidableEq α] {t : α} (h : Chain next start (l ++ [t])) (hx : x ∉ l ++ [t]) :
    Chain (update (update next t (some x)) x none) start (l ++ [t] ++ [x]) := by
  have hnodup := h.nodup
  induction l generalizing start with
  | nil =>
    have hne : t ≠ x := fun heq => hx (heq ▸ List.mem_singleton_self t)
    refine ⟨h.1, ?_, ?_⟩
    · rw [update_of_ne hne, update_self]
    · exact update_self ..
  | cons y l ih =>
    have hyx : y ≠ x := fun heq => hx (heq ▸ List.mem_cons_self)
    have hyt : y ≠ t := by
      rintro rfl
      exact (List.nodup_cons.1 hnodup).1 (List.mem_append_right l (List.mem_singleton_self y))
    refine ⟨h.1, ?_⟩
    rw [update_of_ne hyx, update_of_ne hyt]
    exact ih h.2 (fun hmem => hx (List.mem_cons_of_mem y hmem)) (List.nodup_cons.1 hnodup).2

theorem Chain.unlink [DecidableEq α] {k m : List α} {p : α} (h : Chain next start (k ++ p :: x :: m)) :
    Chain (update next p (next x)) start (k ++ p :: m) := by
  have hnodup := h.nodup
  induction k generalizing start with
  | nil =>
    have hp : p ∉ m := fun hmem => (List.nodup_cons.1 hnodup).1 (List.mem_cons_of_mem x hmem)
    refine ⟨h.1, ?_⟩
    rw [update_self]
    refine h.2.2.congr fun y hy => update_of_ne ?_ ..
    rintro rfl
    exact hp hy
  | cons y k ih =>
    have hne : y ≠ p := by
      rintro rfl
      exact (List.nodup_cons.1 hnodup).1 (List.mem_append_right k List.mem_cons_self)
    refine ⟨h.1, ?_⟩
    rw [update_of_ne hne]
    exact ih h.2 (List.nodup_cons.1 hnodup).2

end Queue
