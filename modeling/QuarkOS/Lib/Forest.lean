import Mathlib.Data.List.Induction
import Mathlib.Data.List.Nodup
import Mathlib.Logic.Function.Basic
import Mathlib.Tactic.Common

/-!
# Trees of pointers

A forest is a family of trees that live in one store. The store gives the `j`-th pointer in a node,
`child b j`; the tree `i` starts at `root i` and is `height i` pointers deep, so that its leaves hold no
pointers; zero is the null pointer. A place is a tree and the list of pointers to follow from its root,
and `node` is what hangs there.

When no node hangs at two places, the store can be written to place by place: `graft` and `plant` say
that hanging a fresh node at an empty place changes what hangs there and nothing else.

A walk over a tree that stops at the first null pointer of every node meets the nodes of `postorder`; these
are all nodes of the tree exactly if it is `Solid`.
-/

namespace Forest

open Function

variable {ι : Type} {height : ι → Nat} {width : Nat} {root root' : ι → Nat}
  {child child' : Nat → Nat → Nat}

/-- The node at the end of a list of pointers. -/
def walk (child : Nat → Nat → Nat) : Nat → List Nat → Nat
  | b, [] => b
  | b, j :: js => if b = 0 then 0 else walk child (child b j) js

theorem walk_zero (js : List Nat) : walk child 0 js = 0 := by
  cases js with
  | nil => rfl
  | cons j js => rfl

theorem walk_concat (b : Nat) (js : List Nat) (j : Nat) :
    walk child b (js ++ [j]) = if walk child b js = 0 then 0 else child (walk child b js) j := by
  induction js generalizing b with
  | nil => rfl
  | cons k js ih =>
    rw [List.cons_append, walk, walk]
    split
    · rfl
    · exact ih (child b k)

def node (root : ι → Nat) (child : Nat → Nat → Nat) (p : ι × List Nat) : Nat :=
  walk child (root p.1) p.2

theorem node_concat (i : ι) (js : List Nat) (j : Nat) : node root child (i, js ++ [j]) =
      if node root child (i, js) = 0 then 0 else child (node root child (i, js)) j :=
  walk_concat (root i) js j

theorem walk_ne_zero_of_append {b : Nat} {js ks : List Nat} (h : walk child b (js ++ ks) ≠ 0) :
    walk child b js ≠ 0 := by
  induction js generalizing b with
  | nil =>
    rintro rfl
    exact h (walk_zero ks)
  | cons j js ih =>
    rw [List.cons_append, walk] at h
    rw [walk]
    split at h
    · exact absurd rfl h
    · rename_i hb
      rw [if_neg hb]
      exact ih h

def Place (height : ι → Nat) (width : Nat) (p : ι × List Nat) : Prop :=
  p.2.length ≤ height p.1 ∧ ∀ j ∈ p.2, j < width

theorem place_nil (i : ι) : Place height width (i, []) :=
  ⟨Nat.zero_le _, fun _ h => absurd h List.not_mem_nil⟩

theorem place_concat {i : ι} {js : List Nat} {j : Nat} : Place height width (i, js ++ [j]) ↔
      Place height width (i, js) ∧ js.length < height i ∧ j < width := by
  simp only [Place, List.length_append, List.length_singleton, List.mem_append, List.mem_singleton,
    or_imp, forall_and, forall_eq]
  constructor
  · rintro ⟨hlen, hjs, hj⟩
    exact ⟨⟨by omega, hjs⟩, by omega, hj⟩
  · rintro ⟨⟨_, hjs⟩, hlen, hj⟩
    exact ⟨by omega, hjs, hj⟩

theorem Place.of_append {i : ι} {js ks : List Nat} (h : Place height width (i, js ++ ks)) :
    Place height width (i, js) :=
  ⟨Nat.le_trans (List.sublist_append_left js ks).length_le h.1,
    fun j hj => h.2 j (List.mem_append_left ks hj)⟩

/-- Nodes with pointers keep them. -/
def SameInside (height : ι → Nat) (width : Nat) (root : ι → Nat) (child child' : Nat → Nat → Nat) :
    Prop :=
  ∀ p, Place height width p → p.2.length < height p.1 → node root child p ≠ 0 →
    ∀ j < width, child' (node root child p) j = child (node root child p) j

theorem node_eq_of_sameInside (h : SameInside height width root child child') {p : ι × List Nat}
    (hp : Place height width p) : node root child' p = node root child p := by
  obtain ⟨i, js⟩ := p
  induction js using List.reverseRecOn with
  | nil => rfl
  | append_singleton js j ih =>
    obtain ⟨hjs, hlen, hj⟩ := place_concat.1 hp
    rw [node_concat, node_concat, ih hjs]
    split
    · rfl
    · rename_i hne
      exact h (i, js) hjs hlen hne j hj

/-- No node hangs at two places. -/
def Apart (height : ι → Nat) (width : Nat) (nd : ι × List Nat → Nat) : Prop :=
  ∀ p q, Place height width p → Place height width q → nd p ≠ 0 → nd p = nd q → p = q

theorem Apart.update {nd nd' : ι × List Nat → Nat} {p : ι × List Nat} {f : Nat}
    (h : Apart height width nd) (hfresh : ∀ q, Place height width q → nd q ≠ f)
    (hself : nd' p = f) (hother : ∀ q, Place height width q → q ≠ p → nd' q = nd q) :
    Apart height width nd' := by
  intro q r hq hr hne heq
  by_cases hqp : q = p
  · by_cases hrp : r = p
    · rw [hqp, hrp]
    · rw [hother r hr hrp, hqp, hself] at heq
      exact absurd heq.symm (hfresh r hr)
  · rw [hother q hq hqp] at hne heq
    by_cases hrp : r = p
    · rw [hrp, hself] at heq
      exact absurd heq (hfresh q hq)
    · rw [hother r hr hrp] at heq
      exact h q r hq hr hne heq

theorem Apart.congr {nd nd' : ι × List Nat → Nat} (h : Apart height width nd)
    (heq : ∀ p, Place height width p → nd' p = nd p) : Apart height width nd' := by
  intro p q hp hq hne hpq
  rw [heq p hp] at hne hpq
  rw [heq q hq] at hpq
  exact h p q hp hq hne hpq

theorem graft [DecidableEq ι] {i : ι} {js : List Nat} {j f : Nat} (h : Apart height width (node root child))
    (hp : Place height width (i, js ++ [j])) (hparent : node root child (i, js) ≠ 0)
    (hempty : node root child (i, js ++ [j]) = 0)
    (hself : child' (node root child (i, js)) j = f)
    (hzero : js.length + 1 < height i → ∀ k < width, child' f k = 0)
    (hother : ∀ q, Place height width q → q.2.length < height q.1 → node root child q ≠ 0 →
      ∀ k < width, node root child q ≠ node root child (i, js) ∨ k ≠ j →
        child' (node root child q) k = child (node root child q) k)
    {q : ι × List Nat} (hq : Place height width q) :
    node root child' q = if q = (i, js ++ [j]) then f else node root child q := by
  obtain ⟨i', ks⟩ := q
  induction ks using List.reverseRecOn with
  | nil =>
    rw [if_neg]
    · rfl
    · intro heq
      exact absurd (congrArg (List.length ∘ Prod.snd) heq) (by simp)
  | append_singleton ks k ih =>
    obtain ⟨hks, hlen, hk⟩ := place_concat.1 hq
    have hjs := (place_concat.1 hp).1
    rw [node_concat, node_concat, ih hks]
    by_cases hnew : (i', ks) = (i, js ++ [j])
    · -- Below the new node.
      obtain ⟨rfl, rfl⟩ := Prod.mk.inj hnew
      have hne : (i', js ++ [j] ++ [k]) ≠ (i', js ++ [j]) := by
        intro heq
        exact absurd (congrArg (List.length ∘ Prod.snd) heq) (by simp)
      rw [if_pos rfl, if_neg hne, hempty, if_pos rfl]
      split
      · rfl
      · rw [List.length_append, List.length_singleton] at hlen
        exact hzero hlen k hk
    · rw [if_neg hnew]
      by_cases hsame : (i', ks) = (i, js)
      · obtain ⟨rfl, rfl⟩ := Prod.mk.inj hsame
        rw [if_neg hparent]
        by_cases hkj : k = j
        · subst hkj
          rw [if_pos rfl, hself]
        · have hne : (i', ks ++ [k]) ≠ (i', ks ++ [j]) := by
            intro heq
            have hlist := (Prod.mk.inj heq).2
            rw [List.append_cancel_left_eq] at hlist
            exact hkj (List.cons.inj hlist).1
          rw [if_neg hne, if_neg hparent]
          exact hother _ hks hlen hparent k hk (Or.inr hkj)
      · have hne : (i', ks ++ [k]) ≠ (i, js ++ [j]) := by
          intro heq
          obtain ⟨rfl, hlist⟩ := Prod.mk.inj heq
          rw [(List.append_inj' hlist rfl).1] at hsame
          exact hsame rfl
        rw [if_neg hne]
        split
        · rfl
        · rename_i hne'
          apply hother _ hks hlen hne' k hk
          left
          intro heq
          exact hsame (h _ _ hks hjs hne' heq)

theorem plant [DecidableEq ι] {i : ι} {f : Nat} (hempty : root i = 0)
    (hroot : root' = update root i f) (hzero : 0 < height i → ∀ k < width, child' f k = 0)
    (hother : SameInside height width root child child') {q : ι × List Nat}
    (hq : Place height width q) :
    node root' child' q = if q = (i, []) then f else node root child q := by
  obtain ⟨i', ks⟩ := q
  by_cases hi : i' = i
  · subst hi
    have hwalk : ∀ ks, node root child (i', ks) = 0 := by
      intro ks
      rw [node, hempty]
      exact walk_zero ks
    rw [hwalk]
    induction ks using List.reverseRecOn with
    | nil =>
      rw [if_pos rfl, node, walk, hroot, update_self]
    | append_singleton ks k ih =>
      obtain ⟨hks, hlen, hk⟩ := place_concat.1 hq
      rw [if_neg (by simp), node_concat, ih hks]
      split
      · rename_i heq
        obtain rfl := (Prod.mk.inj heq).2
        split
        · rfl
        · exact hzero hlen k hk
      · rw [if_pos rfl]
  · rw [if_neg (by simp [hi])]
    have hnode := node_eq_of_sameInside hother hq
    rw [← hnode, node, node, hroot, update_of_ne hi]

/-- The pointers of a node before its first null one. -/
def leading (child : Nat → Nat → Nat) (width b : Nat) : List Nat :=
  (List.range width).takeWhile fun j => child b j ≠ 0

/-- The nodes below `b` and then `b` itself, where the tree is `h` pointers deep. -/
def postorder (child : Nat → Nat → Nat) (width : Nat) : Nat → Nat → List Nat
  | 0, b => [b]
  | h + 1, b => (leading child width b).flatMap (fun j => postorder child width h (child b j)) ++ [b]

/-- The pointers to follow to the nodes of `postorder`. -/
def paths (child : Nat → Nat → Nat) (width : Nat) : Nat → Nat → List (List Nat)
  | 0, _ => [[]]
  | h + 1, b =>
    (leading child width b).flatMap (fun j => (paths child width h (child b j)).map (j :: ·)) ++ [[]]

/-- The pointers are leading ones all the way. -/
def Leads (child : Nat → Nat → Nat) (width : Nat) : Nat → List Nat → Prop
  | _, [] => True
  | b, j :: js => j ∈ leading child width b ∧ Leads child width (child b j) js

variable {b j h : Nat} {js : List Nat}

theorem mem_takeWhile_range' {p : Nat → Bool} {m n j : Nat} :
    j ∈ (List.range' m n).takeWhile p ↔ m ≤ j ∧ j < m + n ∧ ∀ k, m ≤ k → k ≤ j → p k = true := by
  induction n generalizing m with
  | zero =>
    simp only [List.range'_zero, List.takeWhile_nil, List.not_mem_nil, false_iff]
    omega
  | succ n ih =>
    rw [List.range'_succ, List.takeWhile_cons]
    split
    · rename_i hm
      rw [List.mem_cons, ih]
      constructor
      · rintro (rfl | ⟨hle, hlt, hall⟩)
        · refine ⟨Nat.le_refl _, by omega, fun k hk hk' => ?_⟩
          rwa [show k = j by omega]
        · refine ⟨by omega, by omega, fun k hk hk' => ?_⟩
          rcases Nat.eq_or_lt_of_le hk with rfl | hk
          · exact hm
          · exact hall k hk hk'
      · rintro ⟨hle, hlt, hall⟩
        rcases Nat.eq_or_lt_of_le hle with rfl | hle
        · exact .inl rfl
        · exact .inr ⟨hle, by omega, fun k hk hk' => hall k (by omega) hk'⟩
    · rename_i hm
      simp only [List.not_mem_nil, false_iff]
      exact fun ⟨hle, _, hall⟩ => hm (hall m (Nat.le_refl _) hle)

theorem mem_leading : j ∈ leading child width b ↔ j < width ∧ ∀ k ≤ j, child b k ≠ 0 := by
  rw [leading, List.range_eq_range', mem_takeWhile_range', Nat.zero_add]
  simp only [Nat.zero_le, true_and, forall_const, decide_eq_true_eq]

theorem ne_zero_of_mem_leading (hj : j ∈ leading child width b) : child b j ≠ 0 :=
  (mem_leading.1 hj).2 j (Nat.le_refl j)

theorem nodup_leading : (leading child width b).Nodup :=
  List.nodup_range.sublist (List.takeWhile_sublist _)

theorem postorder_eq (hb : b ≠ 0) :
    postorder child width h b = (paths child width h b).map (walk child b) := by
  induction h generalizing b with
  | zero => rfl
  | succ h ih =>
    rw [postorder, paths, List.map_append, List.map_flatMap]
    refine congrArg₂ (· ++ ·) (List.flatMap_congr fun j hj => ?_) rfl
    rw [ih (ne_zero_of_mem_leading hj), List.map_map]
    apply List.map_congr_left
    intro js _
    exact (if_neg hb).symm

theorem nodup_paths : (paths child width h b).Nodup := by
  induction h generalizing b with
  | zero => exact List.nodup_singleton _
  | succ h ih =>
    rw [paths, List.nodup_append]
    refine ⟨List.nodup_flatMap.2 ⟨fun j _ => ih.map List.cons_injective, ?_⟩, List.nodup_singleton _, ?_⟩
    · refine nodup_leading.imp fun hne js hjs hjs' => ?_
      obtain ⟨_, _, rfl⟩ := List.mem_map.1 hjs
      obtain ⟨_, _, heq⟩ := List.mem_map.1 hjs'
      exact hne (List.cons.inj heq).1.symm
    · rintro js hjs _ hnil rfl
      obtain ⟨j, _, hjs⟩ := List.mem_flatMap.1 hjs
      obtain ⟨_, _, rfl⟩ := List.mem_map.1 hjs
      exact absurd (List.mem_singleton.1 hnil) (List.cons_ne_nil _ _)

theorem mem_paths : js ∈ paths child width h b ↔ js.length ≤ h ∧ Leads child width b js := by
  induction h generalizing b js with
  | zero =>
    rw [paths, List.mem_singleton]
    constructor
    · rintro rfl
      exact ⟨Nat.le_refl _, trivial⟩
    · exact fun hjs => List.length_eq_zero_iff.1 (Nat.le_zero.1 hjs.1)
  | succ h ih =>
    rw [paths, List.mem_append, List.mem_flatMap, List.mem_singleton]
    constructor
    · rintro (⟨j, hj, hjs⟩ | rfl)
      · obtain ⟨ks, hks, rfl⟩ := List.mem_map.1 hjs
        obtain ⟨hlen, hleads⟩ := ih.1 hks
        exact ⟨Nat.succ_le_succ hlen, hj, hleads⟩
      · exact ⟨Nat.zero_le _, trivial⟩
    · rintro ⟨hlen, hleads⟩
      cases js with
      | nil => exact .inr rfl
      | cons j js =>
        refine .inl ⟨j, hleads.1, List.mem_map.2 ⟨js, ih.2 ⟨Nat.le_of_succ_le_succ hlen, hleads.2⟩, rfl⟩⟩

theorem Leads.walk_ne_zero (hleads : Leads child width b js) (hb : b ≠ 0) : walk child b js ≠ 0 := by
  induction js generalizing b with
  | nil => exact hb
  | cons j js ih =>
    rw [walk, if_neg hb]
    exact ih hleads.2 (ne_zero_of_mem_leading hleads.1)

theorem Leads.lt (hleads : Leads child width b js) : ∀ j ∈ js, j < width := by
  induction js generalizing b with
  | nil => exact fun _ hj => absurd hj List.not_mem_nil
  | cons k js ih =>
    intro j hj
    rcases List.mem_cons.1 hj with rfl | hj
    · exact (mem_leading.1 hleads.1).1
    · exact ih hleads.2 j hj

theorem leads_concat (hb : b ≠ 0) :
    Leads child width b (js ++ [j]) ↔ Leads child width b js ∧ j ∈ leading child width (walk child b js) := by
  induction js generalizing b with
  | nil => exact ⟨fun h => ⟨trivial, h.1⟩, fun h => ⟨h.2, trivial⟩⟩
  | cons k js ih =>
    rw [List.cons_append, Leads, Leads, walk, if_neg hb]
    constructor
    · rintro ⟨hk, hjs⟩
      have hne := ne_zero_of_mem_leading hk
      exact ⟨⟨hk, ((ih hne).1 hjs).1⟩, ((ih hne).1 hjs).2⟩
    · rintro ⟨⟨hk, hjs⟩, hj⟩
      have hne := ne_zero_of_mem_leading hk
      exact ⟨hk, (ih hne).2 ⟨hjs, hj⟩⟩

/-- No node has a pointer after a null one. -/
def Solid (height : ι → Nat) (width : Nat) (root : ι → Nat) (child : Nat → Nat → Nat) : Prop :=
  ∀ p, Place height width p → p.2.length < height p.1 → node root child p ≠ 0 →
    ∀ j k, j < k → k < width → child (node root child p) j = 0 → child (node root child p) k = 0

theorem leads_of_solid (hsolid : Solid height width root child) {i : ι}
    (hp : Place height width (i, js)) (hne : node root child (i, js) ≠ 0) :
    Leads child width (root i) js := by
  induction js using List.reverseRecOn with
  | nil => trivial
  | append_singleton js j ih =>
    obtain ⟨hjs, hlen, hj⟩ := place_concat.1 hp
    have hparent : node root child (i, js) ≠ 0 := walk_ne_zero_of_append hne
    have hroot : root i ≠ 0 := @walk_ne_zero_of_append child (root i) [] js hparent
    rw [node_concat, if_neg hparent] at hne
    refine (leads_concat hroot).2 ⟨ih hjs hparent, mem_leading.2 ⟨hj, fun k hk hzero => ?_⟩⟩
    rcases Nat.eq_or_lt_of_le hk with rfl | hk
    · exact hne hzero
    · exact hne (hsolid (i, js) hjs hlen hparent k j hk hj hzero)

/-- If every node is met along leading pointers, no node has a pointer after a null one. -/
theorem solid_of_leads (hleads : ∀ i js, Place height width (i, js) → node root child (i, js) ≠ 0 →
    Leads child width (root i) js) : Solid height width root child := by
  rintro ⟨i, js⟩ hp hlen hne j k hjk hk hzero
  by_contra hchild
  have hroot : root i ≠ 0 := @walk_ne_zero_of_append child (root i) [] js hne
  have hnode : node root child (i, js ++ [k]) ≠ 0 := by
    rw [node_concat, if_neg hne]
    exact hchild
  have hmem := ((leads_concat hroot).1 (hleads i (js ++ [k]) (place_concat.2 ⟨hp, hlen, hk⟩) hnode)).2
  exact (mem_leading.1 hmem).2 j (Nat.le_of_lt hjk) hzero

/-- The nodes of some of the trees, tree by tree. -/
def nodes (height : ι → Nat) (width : Nat) (root : ι → Nat) (child : Nat → Nat → Nat) (is : List ι) :
    List Nat :=
  is.flatMap fun i => if root i = 0 then [] else postorder child width (height i) (root i)

theorem nodes_eq (is : List ι) : nodes height width root child is = (is.flatMap fun i =>
    if root i = 0 then [] else (paths child width (height i) (root i)).map (i, ·)).map (node root child) := by
  rw [nodes, List.map_flatMap]
  refine List.flatMap_congr fun i _ => ?_
  split
  · rfl
  · rename_i hroot
    rw [postorder_eq hroot, List.map_map]
    rfl

theorem mem_nodes {is : List ι} : b ∈ nodes height width root child is ↔
    ∃ i ∈ is, ∃ js, root i ≠ 0 ∧ js.length ≤ height i ∧ Leads child width (root i) js ∧
      node root child (i, js) = b := by
  rw [nodes, List.mem_flatMap]
  refine exists_congr fun i => and_congr_right fun _ => ?_
  split
  · rename_i hroot
    exact ⟨fun h => absurd h List.not_mem_nil, fun ⟨_, hne, _⟩ => absurd hroot hne⟩
  · rename_i hroot
    rw [postorder_eq hroot, List.mem_map]
    refine exists_congr fun js => ?_
    rw [mem_paths, and_assoc]
    exact ⟨fun h => ⟨hroot, h⟩, fun h => h.2⟩

theorem nodup_nodes {is : List ι} (happart : Apart height width (node root child)) (his : is.Nodup) :
    (nodes height width root child is).Nodup := by
  rw [nodes_eq]
  have hmem : ∀ p ∈ is.flatMap (fun i =>
      if root i = 0 then [] else (paths child width (height i) (root i)).map (i, ·)),
      Place height width p ∧ node root child p ≠ 0 := by
    intro p hp
    obtain ⟨i, _, hp⟩ := List.mem_flatMap.1 hp
    split at hp
    · exact absurd hp List.not_mem_nil
    · rename_i hroot
      obtain ⟨js, hjs, rfl⟩ := List.mem_map.1 hp
      obtain ⟨hlen, hleads⟩ := mem_paths.1 hjs
      exact ⟨⟨hlen, hleads.lt⟩, hleads.walk_ne_zero hroot⟩
  refine List.Nodup.map_on (fun p hp q hq heq => ?_) (List.nodup_flatMap.2 ⟨fun i _ => ?_, ?_⟩)
  · exact happart p q (hmem p hp).1 (hmem q hq).1 (hmem p hp).2 heq
  · split
    · exact List.nodup_nil
    · exact nodup_paths.map fun _ _ h => (Prod.mk.inj h).2
  · refine his.imp fun hne p hp hq => ?_
    have hfst : ∀ i, p ∈ (if root i = 0 then [] else (paths child width (height i) (root i)).map (i, ·)) →
        p.1 = i := by
      intro i hp
      split at hp
      · exact absurd hp List.not_mem_nil
      · obtain ⟨_, _, rfl⟩ := List.mem_map.1 hp
        rfl
    exact hne ((hfst _ hp).symm.trans (hfst _ hq))

end Forest
