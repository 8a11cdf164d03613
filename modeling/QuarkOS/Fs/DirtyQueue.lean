import Mathlib.Data.List.Nodup
import QuarkOS.Base.Prelude
import QuarkOS.Lib.Queue

/-!
# The dirty queue

`queue.c` with the dummy inside the queue. `lfQueue_get` moves the link of the dummy and never the tail, so
after the last removal the tail is a node that is not queued any more, and that may have been put again
since; `lfQueue_put` only follows the tail when the dummy has a link. The lock is left out: each function
holds it from its first to its last step.
-/

namespace QuarkOS

open Queue Function

/-- A place that a `lfq_node *` can point at: the `dummy` of the queue or the node in an element. -/
inductive LfqNode (α : Type) where
  | dummy
  | node (x : α)
deriving DecidableEq

/-- A `lf_queue` with the links of its dummy and of all nodes; `none` is the null pointer. -/
structure LfQueue (α : Type) where
  head : LfqNode α
  tail : LfqNode α
  next : LfqNode α → Option (LfqNode α)

namespace LfQueue

variable {α : Type} {q : LfQueue α} {l : List α} {x : α}

section

variable [DecidableEq α]

def nodeInit (q : LfQueue α) (x : α) : LfQueue α := { q with next := update q.next (.node x) none }

def init (q : LfQueue α) : LfQueue α :=
  { next := update q.next .dummy none, head := .dummy, tail := .dummy }

def put (q : LfQueue α) (x : α) : LfQueue α :=
  let next :=
    if q.next q.head = none then update q.next q.head (some (.node x))
    else update q.next q.tail (some (.node x))
  { q with next := update next (.node x) none, tail := .node x }

def get (q : LfQueue α) : Option (LfqNode α) × LfQueue α :=
  match q.next q.head with
  | none => (none, q)
  | some next => (some next, { q with next := update q.next q.head (q.next next) })

end

/-- The nodes of `l` hang on the dummy in their order, and the tail is the last of them if there is one. -/
structure Waiting (q : LfQueue α) (l : List α) : Prop where
  head : q.head = .dummy
  chain : Chain q.next (some .dummy) (.dummy :: l.map .node)
  tail : ∀ k t, l = k ++ [t] → q.tail = .node t

theorem Waiting.nodup (h : Waiting q l) : l.Nodup :=
  List.Nodup.of_map _ (List.nodup_cons.1 h.chain.nodup).2

theorem Waiting.next_dummy (h : Waiting q l) : q.next q.head = l.head?.map .node := by
  rw [h.head]
  cases l with
  | nil => exact h.chain.2
  | cons x l => exact h.chain.2.1

theorem node_not_mem (hx : x ∉ l) : LfqNode.node x ∉ LfqNode.dummy :: l.map .node := by
  simp [hx]

variable [DecidableEq α]

theorem Waiting.init (q : LfQueue α) : Waiting q.init [] := by
  have hnext : q.init.next .dummy = none := by simp [LfQueue.init]
  refine ⟨rfl, ⟨rfl, hnext⟩, fun k t h => ?_⟩
  simp at h

theorem Waiting.nodeInit (h : Waiting q l) (hx : x ∉ l) : Waiting (q.nodeInit x) l := by
  refine ⟨h.head, h.chain.congr fun y hy => update_of_ne ?_ .., h.tail⟩
  rintro rfl
  exact node_not_mem hx hy

theorem Waiting.put (h : Waiting q l) (hx : x ∉ l) : Waiting (q.put x) (l ++ [x]) := by
  refine ⟨h.head, ?_, fun k t ht => by rw [(List.append_singleton_inj.1 ht).2]; rfl⟩
  have hchain := h.chain
  have hnot := node_not_mem hx
  rw [LfQueue.put, h.next_dummy, List.map_append]
  -- Either way the link that is written belongs to the last node, the dummy counted.
  rcases List.eq_nil_or_concat' l with rfl | ⟨k, t, rfl⟩
  · rw [List.head?_nil, Option.map_none, if_pos rfl, h.head]
    exact Chain.concat (l := []) hchain hnot
  · rw [if_neg (by cases k <;> simp), h.tail k t rfl]
    rw [List.map_append] at hchain hnot ⊢
    exact Chain.concat (l := LfqNode.dummy :: k.map LfqNode.node) hchain hnot

theorem Waiting.get_nil (h : Waiting q []) : q.get = (none, q) := by
  rw [LfQueue.get, h.next_dummy]
  rfl

theorem Waiting.get_cons (h : Waiting q (x :: l)) : ∃ q', q.get = (some (.node x), q') ∧ Waiting q' l := by
  rw [LfQueue.get, h.next_dummy]
  refine ⟨_, rfl, h.head, ?_, fun k t ht => h.tail (x :: k) t (by rw [ht]; rfl)⟩
  dsimp only
  rw [h.head]
  exact Chain.unlink (k := []) h.chain

end LfQueue

/-- The nodes that have been put and returned so far, each in its order. A node is put, or initialised
again, only while it is not among those that were put and not returned. -/
inductive LfqRun {α : Type} [DecidableEq α] : LfQueue α → List α → List (LfqNode α) → Prop
  | init (q : LfQueue α) : LfqRun q.init [] []
  | nodeInit {q : LfQueue α} {puts : List α} {gets : List (LfqNode α)} {x : α} (hrun : LfqRun q puts gets)
      (hx : x ∉ puts.drop gets.length) : LfqRun (q.nodeInit x) puts gets
  | put {q : LfQueue α} {puts : List α} {gets : List (LfqNode α)} {x : α} (hrun : LfqRun q puts gets)
      (hx : x ∉ puts.drop gets.length) : LfqRun (q.put x) (puts ++ [x]) gets
  | get {q : LfQueue α} {puts : List α} {gets : List (LfqNode α)} (hrun : LfqRun q puts gets) :
      LfqRun q.get.2 puts (gets ++ q.get.1.toList)

variable {α : Type} [DecidableEq α] {q : LfQueue α}

theorem LfqRun.waiting {puts : List α} {gets : List (LfqNode α)} (hrun : LfqRun q puts gets) :
    ∃ done left, puts = done ++ left ∧ gets = done.map .node ∧ q.Waiting left := by
  induction hrun with
  | init q => exact ⟨[], [], rfl, rfl, .init q⟩
  | nodeInit _ hx ih =>
    obtain ⟨done, left, rfl, rfl, hq⟩ := ih
    rw [List.length_map, List.drop_left] at hx
    exact ⟨done, left, rfl, rfl, hq.nodeInit hx⟩
  | put _ hx ih =>
    obtain ⟨done, left, rfl, rfl, hq⟩ := ih
    rw [List.length_map, List.drop_left] at hx
    exact ⟨done, _, List.append_assoc .., rfl, hq.put hx⟩
  | get _ ih =>
    obtain ⟨done, left, rfl, rfl, hq⟩ := ih
    cases left with
    | nil =>
      rw [hq.get_nil]
      exact ⟨done, [], rfl, List.append_nil _, hq⟩
    | cons x left =>
      obtain ⟨q', hget, hq'⟩ := hq.get_cons
      rw [hget]
      refine ⟨done ++ [x], left, by simp, by simp, hq'⟩

/-- The returned nodes are the first of those that were put, in that order; the next `lfQueue_get` returns
the one after them, and null exactly when there is none. -/
theorem lfqRun_fifo {puts : List α} {gets : List (LfqNode α)} (hrun : LfqRun q puts gets) :
    gets <+: puts.map .node ∧ q.get.1 = (puts.map LfqNode.node)[gets.length]? ∧
      (q.get.1 = none ↔ gets = puts.map .node) := by
  obtain ⟨done, left, rfl, rfl, hq⟩ := hrun.waiting
  rw [List.map_append]
  refine ⟨List.prefix_append .., ?_, ?_⟩
  all_goals
    cases left with
    | nil =>
      rw [hq.get_nil]
      simp
    | cons x left =>
      obtain ⟨q', hget, _⟩ := hq.get_cons
      rw [hget]
      simp

/-- The queue runs empty, and the node that the tail is left at is put again, before another one. -/
theorem lfqRun_fifo_reused :
    ∃ q : LfQueue Nat, LfqRun q [0, 0, 1] [.node 0] ∧ q.get.1 = some (.node 0) := by
  let q0 : LfQueue Nat := ⟨.dummy, .dummy, fun _ => none⟩
  have hrun : LfqRun (((q0.init.put 0).get.2.put 0).put 1) [0, 0, 1] [.node 0] :=
    .put (.put (.get (.put (.init q0) (by decide))) (by decide)) (by decide)
  exact ⟨_, hrun, (lfqRun_fifo hrun).2.1⟩

end QuarkOS
