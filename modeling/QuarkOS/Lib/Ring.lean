import Mathlib.Data.Nat.ModEq
import Mathlib.Logic.Function.Basic

/-!
# Ring buffers without a count

A buffer of `n` cells with the cell to read next and the cell to write next, which are the same when the
buffer is empty. Writing does not look at the reader, so the element that would make `n` of them makes the
buffer empty.
-/

structure RingBuffer (α : Type) where
  buffer : Nat → α
  header : Nat
  tail : Nat

namespace RingBuffer

open Function

variable {α : Type} {n : Nat} {q : RingBuffer α} {l : List α}

def append (n : Nat) (q : RingBuffer α) (c : α) : RingBuffer α :=
  { q with buffer := update q.buffer q.tail c, tail := (q.tail + 1) % n }

def pop (n : Nat) (q : RingBuffer α) : Option α × RingBuffer α :=
  if q.header = q.tail then (none, q)
  else (some (q.buffer q.header), { q with header := (q.header + 1) % n })

/-- What an append does to the elements that wait. -/
def push (n : Nat) (l : List α) (c : α) : List α := if l.length + 1 = n then [] else l ++ [c]

/-- The elements that wait, the one to be read next at the front. -/
structure Holds (n : Nat) (q : RingBuffer α) (l : List α) : Prop where
  header : q.header < n
  tail : q.tail = (q.header + l.length) % n
  length : l.length < n
  cell : ∀ i, i < l.length → some (q.buffer ((q.header + i) % n)) = l[i]?

theorem index_ne {h i j : Nat} (hi : i < n) (hj : j < n) (hne : i ≠ j) : (h + i) % n ≠ (h + j) % n := by
  intro heq
  exact hne ((Nat.ModEq.add_left_cancel' h heq).eq_of_lt_of_lt hi hj)

theorem Holds.append (h : Holds n q l) (c : α) : Holds n (q.append n c) (push n l c) := by
  have hnext : (q.tail + 1) % n = (q.header + (l.length + 1)) % n := by
    rw [h.tail, Nat.mod_add_mod, Nat.add_assoc]
  unfold push
  split
  · rename_i hfull
    -- The tail has gone round to the header.
    refine ⟨h.header, ?_, Nat.zero_lt_of_lt h.header, fun i hi => absurd hi (Nat.not_lt_zero i)⟩
    change (q.tail + 1) % n = q.header % n
    rw [hnext, hfull, Nat.add_mod_right]
  · rename_i hroom
    have hlen := h.length
    refine ⟨h.header, ?_, by rw [List.length_append, List.length_singleton]; omega, fun i hi => ?_⟩
    · rw [List.length_append, List.length_singleton]
      exact hnext
    · change some (update q.buffer q.tail c ((q.header + i) % n)) = _
      rw [List.length_append, List.length_singleton] at hi
      by_cases heq : i = l.length
      · rw [heq, ← h.tail, update_self, List.getElem?_concat_length]
      · have hlt : i < l.length := by omega
        rw [h.tail, update_of_ne (index_ne (by omega) hlen heq), List.getElem?_append_left hlt]
        exact h.cell i hlt

theorem Holds.pop (h : Holds n q l) : (q.pop n).1 = l.head? ∧ Holds n (q.pop n).2 l.tail := by
  cases l with
  | nil =>
    have hempty : q.header = q.tail := by
      rw [h.tail, List.length_nil, Nat.add_zero, Nat.mod_eq_of_lt h.header]
    rw [RingBuffer.pop, if_pos hempty]
    exact ⟨rfl, h⟩
  | cons x l =>
    have hlen : l.length + 1 < n := h.length
    have hfirst := h.cell 0 (Nat.succ_pos _)
    have hne : q.header ≠ q.tail := by
      have hindex := index_ne (h := q.header) (Nat.zero_lt_of_lt hlen) hlen (Nat.succ_ne_zero _).symm
      rwa [Nat.add_zero, Nat.mod_eq_of_lt h.header, ← List.length_cons, ← h.tail] at hindex
    have hshift : ∀ i, ((q.header + 1) % n + i) % n = (q.header + (i + 1)) % n := by
      intro i
      rw [Nat.mod_add_mod, Nat.add_assoc, Nat.add_comm 1]
    rw [Nat.add_zero, Nat.mod_eq_of_lt h.header] at hfirst
    rw [RingBuffer.pop, if_neg hne]
    refine ⟨hfirst, Nat.mod_lt _ (Nat.zero_lt_of_lt hlen), ?_, Nat.lt_of_succ_lt hlen, fun i hi => ?_⟩
    · rw [List.tail_cons, hshift]
      exact h.tail
    · rw [List.tail_cons, hshift]
      exact h.cell (i + 1) (Nat.succ_lt_succ hi)

end RingBuffer
