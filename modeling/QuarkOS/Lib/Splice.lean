import QuarkOS.Lib.CList
import Mathlib.Data.List.Induction
import Mathlib.Logic.Function.Iterate

/-!
# Splicing circular lists

A list whose last node does not lead back to its head yet is a `Path`. Whole lists are appended to a path
by a write at each seam, and two more writes close it.
-/

namespace CList

open Function

variable {α : Type*}

/-- The nodes `l` follow `a`, linked in both directions; where the last one leads to is not said. -/
def Path (h : Links α) : α → List α → Prop
  | _, [] => True
  | a, x :: l => h.next a = x ∧ h.prev x = a ∧ Path h x l

section

variable {h h' : Links α} {a b x q : α} {l l1 l2 : List α}

theorem path_append : Path h a (l1 ++ x :: l2) ↔
    Path h a l1 ∧ h.next (l1.getLastD a) = x ∧ h.prev x = l1.getLastD a ∧ Path h x l2 := by
  induction l1 generalizing a with
  | nil => exact (true_and _).symm.to_iff
  | cons y l1 ih => rw [List.cons_append, Path, Path, ih, List.getLastD_cons, and_assoc, and_assoc]

theorem seg_iff_path : Seg h a l b ↔ Path h a l ∧ h.next (l.getLastD a) = b ∧ h.prev b = l.getLastD a := by
  induction l generalizing a with
  | nil => exact (true_and _).symm.to_iff
  | cons y l ih => rw [Seg, Path, ih, List.getLastD_cons, and_assoc, and_assoc]

theorem Linked.prev_append (hl : Linked h a (l1 ++ x :: l2)) : h.prev x = l1.getLastD a :=
  (seg_iff_path.1 (seg_append.1 hl.1).1).2.2

theorem Linked.next_append (hl : Linked h a (l1 ++ x :: l2)) : h.next x = l2.headD a := by
  have hseg := (seg_append.1 hl.1).2
  cases l2 with
  | nil => exact hseg.1
  | cons y l2 => exact hseg.1

/-- The pointers lead from `a` to `x`. -/
def Reaches (h : Links α) (a x : α) : Prop := ∃ i, h.next^[i] a = x

theorem Linked.iterate_mem (hl : Linked h a l) (i : Nat) : h.next^[i] a ∈ a :: l := by
  induction i with
  | zero => exact List.mem_cons_self
  | succ i ih =>
    rw [iterate_succ_apply']
    exact hl.next_mem ih

theorem Linked.reaches_congr (hl : Linked h a l) (hnext : ∀ y ∈ a :: l, h'.next y = h.next y) :
    Reaches h' a x ↔ Reaches h a x := by
  have heq : ∀ i, h'.next^[i] a = h.next^[i] a := by
    intro i
    induction i with
    | zero => rfl
    | succ i ih => rw [iterate_succ_apply', iterate_succ_apply', ih, hnext _ (hl.iterate_mem i)]
  exact exists_congr fun i => by rw [heq]

/-- Apart from the head itself, the nodes of its list are those the pointers lead to. -/
theorem Linked.reaches_iff (hl : Linked h a l) (hne : x ≠ a) : Reaches h a x ↔ x ∈ l := by
  constructor
  · rintro ⟨i, rfl⟩
    exact (List.mem_cons.1 (hl.iterate_mem i)).resolve_left hne
  · intro hx
    obtain ⟨l1, l2, rfl⟩ := List.append_of_mem hx
    clear hx hne
    -- The node before `x` is reached first.
    induction l1 using List.reverseRecOn generalizing x l2 with
    | nil => exact ⟨1, hl.next_head⟩
    | append_singleton l1 y ih =>
      rw [List.append_assoc] at hl
      obtain ⟨i, hi⟩ := ih _ hl
      refine ⟨i + 1, ?_⟩
      rw [iterate_succ_apply', hi]
      exact hl.next_append

theorem getLastD_append (hne : l2 ≠ []) : (l1 ++ l2).getLastD a = l2.getLastD b := by
  obtain ⟨m, y, rfl⟩ := (List.eq_nil_or_concat l2).resolve_left hne
  rw [List.concat_eq_append, ← List.append_assoc, List.getLastD_concat, List.getLastD_concat]

/-- A path does not read the `next` field of its last node, nor the `prev` field of its first. -/
theorem Path.congr (hpath : Path h a l) (hnodup : (a :: l).Nodup)
    (hnext : ∀ y ∈ a :: l, y ≠ l.getLastD a → h'.next y = h.next y)
    (hprev : ∀ y ∈ l, h'.prev y = h.prev y) : Path h' a l := by
  induction l generalizing a with
  | nil => trivial
  | cons y l ih =>
    obtain ⟨hay, hya, hrest⟩ := hpath
    rw [List.getLastD_cons] at hnext
    have hne : a ≠ l.getLastD y := by
      intro heq
      exact (List.nodup_cons.1 hnodup).1 (heq ▸ List.getLastD_mem_cons)
    refine ⟨?_, ?_, ih hrest (List.nodup_cons.1 hnodup).2 ?_ ?_⟩
    · rw [hnext a List.mem_cons_self hne, hay]
    · rw [hprev y List.mem_cons_self, hya]
    · exact fun z hz => hnext z (List.mem_cons_of_mem a hz)
    · exact fun z hz => hprev z (List.mem_cons_of_mem y hz)

end

section

variable [DecidableEq α] {h : Links α} {a b x q : α} {l m : List α}

/-- The writes that append the list of `q` behind the node `tail`, and empty it. -/
def splice (h : Links α) (tail q : α) : Links α :=
  let hdr := h.next q
  let h := h.setPrev hdr tail
  let h := h.setNext tail hdr
  listHeaderInit h q

/-- The writes that let a path lead back to its head. -/
def close (h : Links α) (head tail : α) : Links α :=
  (h.setNext tail head).setPrev head tail

theorem splice_next (h : Links α) (tail q y : α) :
    (splice h tail q).next y = if y = q then q else if y = tail then h.next q else h.next y := rfl

theorem splice_prev (h : Links α) (tail q y : α) :
    (splice h tail q).prev y = if y = q then q else if y = h.next q then tail else h.prev y := rfl

theorem Path.splice (hpath : Path h a l) (hnodup : (a :: l).Nodup) (hq : Linked h q (x :: m))
    (hdisjoint : ∀ y ∈ a :: l, y ∉ q :: x :: m) :
    Path (splice h (l.getLastD a) q) a (l ++ x :: m) := by
  have hfirst : h.next q = x := hq.1.1
  have htail : l.getLastD a ∈ a :: l := List.getLastD_mem_cons
  have hqx : x ≠ q := fun heq => hq.head_notMem (heq ▸ List.mem_cons_self)
  rw [path_append]
  refine ⟨hpath.congr hnodup ?_ ?_, ?_, ?_, ?_⟩
  · intro y hy hne
    have hyq : y ≠ q := fun heq => hdisjoint y hy (heq ▸ List.mem_cons_self)
    rw [splice_next, if_neg hyq, if_neg hne]
  · intro y hy
    have hmem := hdisjoint y (List.mem_cons_of_mem a hy)
    have hyq : y ≠ q := fun heq => hmem (heq ▸ List.mem_cons_self)
    have hyx : y ≠ h.next q := by
      rw [hfirst]
      exact fun heq => hmem (heq ▸ List.mem_cons_of_mem q List.mem_cons_self)
    rw [splice_prev, if_neg hyq, if_neg hyx]
  · have hne : l.getLastD a ≠ q := fun heq => hdisjoint _ htail (heq ▸ List.mem_cons_self)
    rw [splice_next, if_neg hne, if_pos rfl, hfirst]
  · rw [splice_prev, if_neg hqx, if_pos hfirst.symm]
  · have hrest : Path h x m := (seg_iff_path.1 hq.1).1.2.2
    refine hrest.congr hq.nodup ?_ ?_
    · intro y hy _
      have hyq : y ≠ q := fun heq => hq.head_notMem (heq ▸ hy)
      have hyt : y ≠ l.getLastD a := fun heq => hdisjoint _ htail (heq ▸ List.mem_cons_of_mem q hy)
      rw [splice_next, if_neg hyq, if_neg hyt]
    · intro y hy
      have hyq : y ≠ q := fun heq => hq.head_notMem (heq ▸ List.mem_cons_of_mem x hy)
      have hyx : y ≠ h.next q := by
        rw [hfirst]
        exact fun heq => (List.nodup_cons.1 hq.nodup).1 (heq ▸ hy)
      rw [splice_prev, if_neg hyq, if_neg hyx]

theorem linked_splice (h : Links α) (tail q : α) : Linked (splice h tail q) q [] :=
  linked_listHeaderInit _ q

theorem Linked.splice_other {tail : α} (hb : Linked h b m) (htail : tail ∉ b :: m) (hq : q ∉ b :: m)
    (hfirst : h.next q ∉ b :: m) : Linked (splice h tail q) b m := by
  have hne : ∀ {y z : α}, y ∈ b :: m → z ∉ b :: m → y ≠ z := fun hy hz heq => hz (heq ▸ hy)
  refine hb.congr ?_ ?_
  · intro y hy
    rw [splice_next, if_neg (hne hy hq), if_neg (hne hy htail)]
  · intro y hy
    rw [splice_prev, if_neg (hne hy hq), if_neg (hne hy hfirst)]

theorem Path.close (hpath : Path h a l) (hnodup : (a :: l).Nodup) :
    Linked (close h a (l.getLastD a)) a l := by
  refine ⟨seg_iff_path.2 ⟨hpath.congr hnodup ?_ ?_, ?_, ?_⟩, hnodup⟩
  · intro y _ hne
    exact if_neg hne
  · intro y hy
    have hne : y ≠ a := fun heq => (List.nodup_cons.1 hnodup).1 (heq ▸ hy)
    exact if_neg hne
  · exact if_pos rfl
  · exact if_pos rfl

theorem Linked.close_other {tail : α} (hb : Linked h b m) (ha : a ∉ b :: m) (htail : tail ∉ b :: m) :
    Linked (close h a tail) b m := by
  have hne : ∀ {y z : α}, y ∈ b :: m → z ∉ b :: m → y ≠ z := fun hy hz heq => hz (heq ▸ hy)
  exact hb.congr (fun y hy => if_neg (hne hy htail)) fun y hy => if_neg (hne hy ha)

/-- The test `list_empty` at the node behind the head, which is the head only of an empty list. -/
theorem Linked.listEmpty_next_iff (hl : Linked h a l) : listEmpty h (h.next a) = true ↔ l = [] := by
  cases l with
  | nil =>
    have hnext : h.next a = a := hl.1.1
    rw [listEmpty, hnext, decide_eq_true hnext]
    exact iff_of_true rfl rfl
  | cons x l =>
    have hnext : h.next a = x := hl.1.1
    refine iff_of_false ?_ (List.cons_ne_nil x l)
    rw [listEmpty, hnext, decide_eq_true_iff]
    intro heq
    cases l with
    | nil =>
      have hback : h.next x = a := hl.1.2.2.1
      exact hl.head_notMem (hback.symm.trans heq ▸ List.mem_cons_self)
    | cons y l =>
      have hy : h.next x = y := hl.1.2.2.1
      exact (List.nodup_cons.1 hl.nodup).1 (hy.symm.trans heq ▸ List.mem_cons_self)

end

/-- Behind every head in `H` stands its list, except that the list of `top` is still open. -/
structure OpenLists (h : Links α) (H : Set α) (L : α → List α) (top : α) : Prop where
  path : Path h top (L top)
  nodup : (top :: L top).Nodup
  linked : ∀ a ∈ H, a ≠ top → Linked h a (L a)
  disjoint : ∀ a ∈ H, ∀ b ∈ H, a ≠ b → ∀ x ∈ a :: L a, x ∉ b :: L b

variable {h : Links α} {H : Set α} {L : α → List α} {top q : α}

theorem Lists.openAt (hL : Lists h H L) (htop : top ∈ H) : OpenLists h H L top where
  path := (seg_iff_path.1 (hL.linked top htop).1).1
  nodup := (hL.linked top htop).2
  linked := fun a ha _ => hL.linked a ha
  disjoint := hL.disjoint

variable [DecidableEq α]

/-- The lists after that of `q` has been appended to that of `top`. -/
def spliced (L : α → List α) (top q : α) : α → List α :=
  update (update L top (L top ++ L q)) q []

theorem spliced_top (hne : q ≠ top) : spliced L top q top = L top ++ L q := by
  rw [spliced, update_of_ne hne.symm, update_self]

theorem spliced_self : spliced L top q q = [] := update_self ..

theorem spliced_of_ne {a : α} (htop : a ≠ top) (hq : a ≠ q) : spliced L top q a = L a := by
  rw [spliced, update_of_ne hq, update_of_ne htop]

theorem spliced_of_nil (hnil : L q = []) : spliced L top q = L := by
  funext a
  by_cases hq : a = q
  · subst hq
    rw [spliced_self, hnil]
  · rw [spliced, update_of_ne hq, hnil, List.append_nil, update_eq_self]

/-- What is in a list after the splice was in it before, or has come from `q` to `top`. -/
theorem mem_spliced {a x : α} (hne : q ≠ top) (hx : x ∈ a :: spliced L top q a) :
    x ∈ a :: L a ∨ a = top ∧ x ∈ L q := by
  by_cases hq : a = q
  · subst hq
    rw [spliced_self, List.mem_singleton] at hx
    exact Or.inl (List.mem_cons.2 (Or.inl hx))
  · by_cases htop : a = top
    · subst htop
      rw [spliced_top hne, List.mem_cons, List.mem_append] at hx
      rcases hx with hx | hx | hx
      · exact Or.inl (List.mem_cons.2 (Or.inl hx))
      · exact Or.inl (List.mem_cons_of_mem a hx)
      · exact Or.inr ⟨rfl, hx⟩
    · rw [spliced_of_ne htop hq] at hx
      exact Or.inl hx

theorem OpenLists.splice (hL : OpenLists h H L top) (htop : top ∈ H) (hq : q ∈ H) (hne : q ≠ top)
    (hnil : L q ≠ []) :
    OpenLists (CList.splice h ((L top).getLastD top) q) H (spliced L top q) top := by
  obtain ⟨x, m, hqm⟩ := List.exists_cons_of_ne_nil hnil
  have hlinked := hL.linked q hq hne
  have hapart := hL.disjoint top htop q hq hne.symm
  have htail : (L top).getLastD top ∈ top :: L top := List.getLastD_mem_cons
  have hfirst : h.next q ∈ q :: L q := hlinked.next_mem List.mem_cons_self
  refine ⟨?_, ?_, ?_, ?_⟩
  · rw [spliced_top hne, hqm]
    rw [hqm] at hlinked hapart
    exact hL.path.splice hL.nodup hlinked hapart
  · rw [spliced_top hne, ← List.cons_append, List.nodup_append]
    refine ⟨hL.nodup, hlinked.nodup, ?_⟩
    intro y hy z hz heq
    exact hapart y hy (heq ▸ List.mem_cons_of_mem q hz)
  · intro a ha hatop
    by_cases haq : a = q
    · subst haq
      rw [spliced_self]
      exact linked_splice h _ a
    · rw [spliced_of_ne hatop haq]
      exact (hL.linked a ha hatop).splice_other (hL.disjoint top htop a ha (Ne.symm hatop) _ htail)
        (hL.disjoint q hq a ha (Ne.symm haq) q List.mem_cons_self)
        (hL.disjoint q hq a ha (Ne.symm haq) _ hfirst)
  · -- A node that has come from `q` to `top` is in no third list.
    have hmoved : ∀ a ∈ H, a ≠ top → ∀ y ∈ L q, y ∉ a :: spliced L top q a := by
      intro a ha hatop y hyq hya
      by_cases haq : a = q
      · subst haq
        rw [spliced_self, List.mem_singleton] at hya
        exact hlinked.head_notMem (hya ▸ hyq)
      · rw [spliced_of_ne hatop haq] at hya
        exact hL.disjoint q hq a ha (Ne.symm haq) y (List.mem_cons_of_mem q hyq) hya
    intro a ha b hb hab y hya hyb
    rcases mem_spliced hne hya with hya' | ⟨rfl, hya'⟩
    · rcases mem_spliced hne hyb with hyb' | ⟨rfl, hyb'⟩
      · exact hL.disjoint a ha b hb hab y hya' hyb'
      · exact hmoved a ha hab y hyb' hya
    · exact hmoved b hb hab.symm y hya' hyb

theorem OpenLists.close (hL : OpenLists h H L top) (htop : top ∈ H) :
    Lists (CList.close h top ((L top).getLastD top)) H L where
  linked := by
    intro a ha
    by_cases hatop : a = top
    · subst hatop
      exact hL.path.close hL.nodup
    · exact (hL.linked a ha hatop).close_other
        (hL.disjoint top htop a ha (Ne.symm hatop) top List.mem_cons_self)
        (hL.disjoint top htop a ha (Ne.symm hatop) _ List.getLastD_mem_cons)
  disjoint := hL.disjoint

end CList
