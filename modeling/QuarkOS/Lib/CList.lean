import Mathlib.Data.List.Basic
import Mathlib.Data.List.Nodup
import Mathlib.Tactic.Common

/-!
# Intrusive circular lists

A heap of list nodes is two functions, the `next` and the `prev` field of every node. A list is a
head node together with the nodes linked behind it: `Linked h head l` says that following `next`
from `head` visits exactly `l` and returns to `head`, and that `prev` undoes every one of these
steps. The operations are written field by field and are defined on every heap, so what they do to a
node that is linked nowhere, or in a list the caller did not mean, is what the field writes say.

What a client needs is how each operation moves a list, and that it leaves alone the lists that do
not share a node with it.
-/

namespace CList

open Function

variable {α : Type*}

/-- The two pointer fields of every list node. -/
structure Links (α : Type*) where
  next : α → α
  prev : α → α

/-! ### Segments -/

/-- The nodes `l` lie between `a` and `b`, linked in both directions. -/
def Seg (h : Links α) : α → List α → α → Prop
  | a, [], b => h.next a = b ∧ h.prev b = a
  | a, x :: l, b => h.next a = x ∧ h.prev x = a ∧ Seg h x l b

variable {h h' : Links α} {a x b y head : α} {l : List α}

theorem seg_append {l1 l2 : List α} : Seg h a (l1 ++ x :: l2) b ↔ Seg h a l1 x ∧ Seg h x l2 b := by
  induction l1 generalizing a with
  | nil => simp only [List.nil_append, Seg, and_assoc]
  | cons y l1 ih => simp only [List.cons_append, Seg, ih, and_assoc]

/-- A segment only reads the `next` field of what it leaves and the `prev` field of what it enters. -/
theorem Seg.congr (hseg : Seg h a l b) (hnext : ∀ y ∈ a :: l, h'.next y = h.next y)
    (hprev : ∀ y, y ∈ l ∨ y = b → h'.prev y = h.prev y) : Seg h' a l b := by
  induction l generalizing a with
  | nil =>
    refine ⟨?_, ?_⟩
    · rw [hnext a (by simp)]
      exact hseg.1
    · rw [hprev b (Or.inr rfl)]
      exact hseg.2
  | cons x l ih =>
    obtain ⟨hax, hxa, hrest⟩ := hseg
    refine ⟨?_, ?_, ih hrest ?_ ?_⟩
    · rw [hnext a (by simp), hax]
    · rw [hprev x (Or.inl (by simp)), hxa]
    · intro y hy
      exact hnext y (List.mem_cons_of_mem a hy)
    · intro y hy
      exact hprev y (hy.imp_left (List.mem_cons_of_mem x))

theorem Seg.next_mem (hseg : Seg h a l b) (hy : y ∈ a :: l) : h.next y ∈ l ∨ h.next y = b := by
  induction l generalizing a with
  | nil =>
    obtain rfl : y = a := by simpa using hy
    exact Or.inr hseg.1
  | cons x l ih =>
    obtain ⟨hax, _, hrest⟩ := hseg
    rcases List.mem_cons.1 hy with rfl | hy
    · exact Or.inl (by rw [hax]; simp)
    · exact (ih hrest hy).imp_left (List.mem_cons_of_mem x)

theorem Seg.prev_mem (hseg : Seg h a l b) (hy : y ∈ l ∨ y = b) : h.prev y ∈ a :: l := by
  induction l generalizing a with
  | nil =>
    obtain rfl : y = b := by simpa using hy
    rw [hseg.2]
    simp
  | cons x l ih =>
    obtain ⟨_, hxa, hrest⟩ := hseg
    rcases eq_or_ne y x with rfl | hyx
    · rw [hxa]
      simp
    · have hy' : y ∈ l ∨ y = b := by simpa [hyx] using hy
      exact List.mem_cons_of_mem a (ih hrest hy')

theorem Seg.retarget {p : α} (hseg : Seg h a l x)
    (hnodup : (a :: l).Nodup) (hp : h.prev x = p) (hpb : h'.next p = b) (hbp : h'.prev b = p)
    (hnext : ∀ y ∈ a :: l, y ≠ p → h'.next y = h.next y) (hprev : ∀ y ∈ l, h'.prev y = h.prev y) :
    Seg h' a l b := by
  induction l generalizing a with
  | nil =>
    obtain rfl : p = a := hp.symm.trans hseg.2
    exact ⟨hpb, hbp⟩
  | cons y l ih =>
    obtain ⟨hay, hya, hrest⟩ := hseg
    have hpmem : p ∈ y :: l := hp ▸ hrest.prev_mem (Or.inr rfl)
    have hne : a ≠ p := fun he => (List.nodup_cons.1 hnodup).1 (he ▸ hpmem)
    refine ⟨?_, ?_, ih hrest (List.nodup_cons.1 hnodup).2 ?_ ?_⟩
    · rw [hnext a (by simp) hne, hay]
    · rw [hprev y (by simp), hya]
    · intro z hz
      exact hnext z (List.mem_cons_of_mem a hz)
    · intro z hz
      exact hprev z (List.mem_cons_of_mem y hz)

/-! ### Lists -/

/-- The list with head node `head` holds exactly the nodes `l`, in this order. -/
def Linked (h : Links α) (head : α) (l : List α) : Prop :=
  Seg h head l head ∧ (head :: l).Nodup

section

variable (hl : Linked h head l)
include hl

theorem Linked.congr (hnext : ∀ y ∈ head :: l, h'.next y = h.next y)
    (hprev : ∀ y ∈ head :: l, h'.prev y = h.prev y) : Linked h' head l := by
  refine ⟨hl.1.congr hnext ?_, hl.2⟩
  rintro y (hy | rfl)
  · exact hprev y (List.mem_cons_of_mem head hy)
  · exact hprev y (by simp)

theorem Linked.next_mem (hy : y ∈ head :: l) : h.next y ∈ head :: l := by
  rcases hl.1.next_mem hy with hmem | heq
  · exact List.mem_cons_of_mem head hmem
  · rw [heq]
    simp

theorem Linked.prev_mem (hy : y ∈ head :: l) : h.prev y ∈ head :: l := by
  refine hl.1.prev_mem ?_
  rcases List.mem_cons.1 hy with rfl | hy
  · exact Or.inr rfl
  · exact Or.inl hy

theorem Linked.next_head : h.next head = l.headD head := by
  cases l with
  | nil => exact hl.1.1
  | cons x l => exact hl.1.1

theorem Linked.prev_head : h.prev head = l.getLastD head := by
  rcases List.eq_nil_or_concat l with rfl | ⟨l, x, rfl⟩
  · exact hl.1.2
  · have hlast : Seg h x [] head := (seg_append.1 (by simpa using hl.1)).2
    simpa using hlast.2

theorem Linked.nodup : l.Nodup :=
  (List.nodup_cons.1 hl.2).2

theorem Linked.head_notMem : head ∉ l :=
  (List.nodup_cons.1 hl.2).1

theorem Linked.prev_ne (hx : x ∈ l) : h.prev x ≠ x := by
  obtain ⟨l1, l2, rfl⟩ := List.append_of_mem hx
  intro he
  have hmem : h.prev x ∈ head :: l1 := (seg_append.1 hl.1).1.prev_mem (Or.inr rfl)
  rw [he] at hmem
  have hnodup : (head :: l1 ++ x :: l2).Nodup := hl.2
  exact (List.nodup_append.1 hnodup).2.2 x hmem x (by simp) rfl

theorem Linked.unique {l' : List α} (hl' : Linked h head l') : l = l' := by
  suffices hseg : ∀ (l l' : List α) (a : α), Seg h a l head → Seg h a l' head → head ∉ l →
      head ∉ l' → l = l' from hseg l l' head hl.1 hl'.1 hl.head_notMem hl'.head_notMem
  intro l
  induction l with
  | nil =>
    intro l' a hs hs' _ hnot'
    cases l' with
    | nil => rfl
    | cons y l' =>
      have hy : y = head := hs'.1.symm.trans hs.1
      exact absurd (by simp [hy]) hnot'
  | cons x l ih =>
    intro l' a hs hs' hnot hnot'
    cases l' with
    | nil =>
      have hx : x = head := hs.1.symm.trans hs'.1
      exact absurd (by simp [hx]) hnot
    | cons y l' =>
      obtain rfl : x = y := hs.1.symm.trans hs'.1
      rw [ih l' x hs.2.2 hs'.2.2 (fun hmem => hnot (List.mem_cons_of_mem x hmem))
        (fun hmem => hnot' (List.mem_cons_of_mem x hmem))]

end

/-! ### Operations -/

section Operations

variable [DecidableEq α]

def Links.setNext (h : Links α) (x y : α) : Links α :=
  { h with next := fun z => if z = x then y else h.next z }

def Links.setPrev (h : Links α) (x y : α) : Links α :=
  { h with prev := fun z => if z = x then y else h.prev z }

@[simp] theorem Links.setNext_next (h : Links α) (x y z : α) :
    (h.setNext x y).next z = if z = x then y else h.next z := rfl

@[simp] theorem Links.setNext_prev (h : Links α) (x y : α) : (h.setNext x y).prev = h.prev := rfl

@[simp] theorem Links.setPrev_next (h : Links α) (x y : α) : (h.setPrev x y).next = h.next := rfl

@[simp] theorem Links.setPrev_prev (h : Links α) (x y z : α) :
    (h.setPrev x y).prev z = if z = x then y else h.prev z := rfl

def listHeaderInit (h : Links α) (header : α) : Links α :=
  (h.setNext header header).setPrev header header

/-- The four writes stand in the order of the C text. -/
def listAdd (h : Links α) (new prev next : α) : Links α :=
  (((h.setPrev new prev).setNext new next).setPrev next new).setNext prev new

def listAddNext (h : Links α) (new target : α) : Links α :=
  listAdd h new target (h.next target)

def listAddPrev (h : Links α) (new target : α) : Links α :=
  listAdd h new (h.prev target) target

/-- The removed node keeps the values of its own fields. -/
def listDel (h : Links α) (x : α) : Links α :=
  let h' := h.setNext (h.prev x) (h.next x)
  h'.setPrev (h'.next x) (h'.prev x)

def listEmpty (h : Links α) (header : α) : Bool :=
  h.next header = header

variable {h : Links α} {head x : α} {l : List α}

theorem Linked.listEmpty_iff (hl : Linked h head l) : listEmpty h head = true ↔ l = [] := by
  rw [listEmpty, decide_eq_true_iff, hl.next_head]
  cases l with
  | nil => simp
  | cons y l =>
    have hne : y ≠ head := fun he => hl.head_notMem (by simp [he])
    simpa using hne

theorem linked_listHeaderInit (h : Links α) (head : α) : Linked (listHeaderInit h head) head [] := by
  refine ⟨⟨?_, ?_⟩, by simp⟩ <;> simp [listHeaderInit]

theorem Linked.listHeaderInit_other (hl : Linked h head l) (hx : x ∉ head :: l) :
    Linked (listHeaderInit h x) head l := by
  refine hl.congr ?_ ?_ <;> intro y hy <;>
    simp [listHeaderInit, show y ≠ x from fun he => hx (he ▸ hy)]

theorem listAdd_next (h : Links α) (new prev next y : α) : (listAdd h new prev next).next y =
      if y = prev then new else if y = new then next else h.next y := rfl

theorem listAdd_prev (h : Links α) (new prev next y : α) : (listAdd h new prev next).prev y =
      if y = next then new else if y = new then prev else h.prev y := rfl

variable {head' : α} {l' : List α}

theorem Linked.listAdd_other {prev next : α} (hl : Linked h head' l')
    (hx : x ∉ head' :: l') (hprev : prev ∉ head' :: l') (hnext : next ∉ head' :: l') :
    Linked (listAdd h x prev next) head' l' := by
  have hne : ∀ y ∈ head' :: l', ∀ z, z ∉ head' :: l' → y ≠ z := fun y hy z hz he => hz (he ▸ hy)
  refine hl.congr ?_ ?_ <;> intro y hy
  · rw [listAdd_next, if_neg (hne y hy _ hprev), if_neg (hne y hy _ hx)]
  · rw [listAdd_prev, if_neg (hne y hy _ hnext), if_neg (hne y hy _ hx)]

theorem Linked.listAddPrev (hl : Linked h head l) (hx : x ∉ head :: l) :
    Linked (listAddPrev h x head) head (l ++ [x]) := by
  have hnodup : (head :: (l ++ [x])).Nodup := by
    rw [← List.cons_append]
    exact hl.2.append (by simp) (by simpa using hx)
  have hxh : x ≠ head := fun he => hx (by simp [he])
  refine ⟨?_, hnodup⟩
  rw [CList.listAddPrev]
  rcases List.eq_nil_or_concat l with rfl | ⟨l, z, rfl⟩
  · have hprev : h.prev head = head := hl.1.2
    rw [hprev]
    simp [Seg, listAdd_next, listAdd_prev, hxh]
  · -- The last node is the predecessor of the head: only the pair they form is broken up.
    have hprev : h.prev head = z := by simpa using hl.prev_head
    have hzx : z ≠ x := fun he => hx (by simp [he])
    have hfront : Seg (listAdd h x z head) head (l.concat z) x := by
      refine hl.1.retarget hl.2 hprev ?_ ?_ ?_ ?_
      · rw [listAdd_next, if_pos rfl]
      · rw [listAdd_prev, if_neg hxh, if_pos rfl]
      · intro y hy hyz
        have hyx : y ≠ x := fun he => hx (he ▸ hy)
        rw [listAdd_next, if_neg hyz, if_neg hyx]
      · intro y hy
        have hyh : y ≠ head := fun he => hl.head_notMem (he ▸ hy)
        have hyx : y ≠ x := fun he => hx (he ▸ List.mem_cons_of_mem head hy)
        rw [listAdd_prev, if_neg hyh, if_neg hyx]
    have hback : Seg (listAdd h x z head) x [] head := by
      simp [Seg, listAdd_next, listAdd_prev, hzx.symm]
    rw [hprev]
    exact seg_append.2 ⟨hfront, hback⟩

theorem Linked.listAddPrev_other (hl : Linked h head l)
    (hl' : Linked h head' l') (hdisj : ∀ y ∈ head :: l, y ∉ head' :: l') (hx : x ∉ head' :: l') :
    Linked (CList.listAddPrev h x head) head' l' :=
  hl'.listAdd_other hx (hdisj _ (hl.prev_mem (by simp))) (hdisj _ (by simp))

theorem Linked.listAddNext (hl : Linked h head l) (hx : x ∉ head :: l) :
    Linked (listAddNext h x head) head (x :: l) := by
  have hxh : x ≠ head := fun he => hx (by simp [he])
  have hxl : x ∉ l := fun hmem => hx (by simp [hmem])
  refine ⟨?_, List.nodup_cons.2 ⟨?_, List.nodup_cons.2 ⟨hxl, hl.nodup⟩⟩⟩
  · rw [CList.listAddNext, hl.next_head]
    cases l with
    | nil => simp [Seg, listAdd_next, listAdd_prev, hxh]
    | cons y l =>
      have hyx : y ≠ x := fun he => hxl (by simp [he])
      have hyh : y ≠ head := fun he => hl.head_notMem (by simp [he])
      have hnot : ∀ z ∈ y :: l, z ≠ head ∧ z ≠ x := by
        intro z hz
        refine ⟨fun he => hl.head_notMem (he ▸ hz), fun he => hxl (he ▸ hz)⟩
      refine ⟨?_, ?_, ?_, ?_, ?_⟩
      · simp [listAdd_next]
      · simp [listAdd_prev, hyx.symm]
      · simp [listAdd_next, hxh]
      · simp [listAdd_prev]
      · refine hl.1.2.2.congr ?_ ?_
        · intro z hz
          rw [listAdd_next, if_neg (hnot z hz).1, if_neg (hnot z hz).2]
        · intro z hz
          have hzy : z ≠ y := by
            rcases hz with hz | rfl
            · rintro rfl
              exact (List.nodup_cons.1 hl.nodup).1 hz
            · exact hyh.symm
          have hzx : z ≠ x := by
            rcases hz with hz | rfl
            · exact (hnot z (List.mem_cons_of_mem y hz)).2
            · exact hxh.symm
          rw [listAdd_prev, List.headD_cons, if_neg hzy, if_neg hzx]
  · simpa [hxh.symm] using hl.head_notMem

theorem Linked.listAddNext_other (hl : Linked h head l)
    (hl' : Linked h head' l') (hdisj : ∀ y ∈ head :: l, y ∉ head' :: l') (hx : x ∉ head' :: l') :
    Linked (CList.listAddNext h x head) head' l' :=
  hl'.listAdd_other hx (hdisj _ (by simp)) (hdisj _ (hl.next_mem (by simp)))

theorem listDel_next (h : Links α) (x y : α) :
    (listDel h x).next y = if y = h.prev x then h.next x else h.next y := by
  simp [listDel]

/-- A node that is not its own neighbour keeps its fields under the first write of `listDel`, so the
second one still sees what the first one read. -/
theorem listDel_prev (hne : h.prev x ≠ x) (y : α) :
    (listDel h x).prev y = if y = h.next x then h.prev x else h.prev y := by
  simp [listDel, hne.symm]

theorem Linked.listDel {l1 l2 : List α} (hl : Linked h head (l1 ++ x :: l2)) :
    Linked (listDel h x) head (l1 ++ l2) := by
  obtain ⟨hfront, hback⟩ := seg_append.1 hl.1
  have hne : h.prev x ≠ x := hl.prev_ne (by simp)
  have hnodup : (head :: l1 ++ x :: l2).Nodup := hl.2
  have hsub : (head :: (l1 ++ l2)).Nodup := hnodup.sublist (by simp)
  have hfrontNodup : (head :: l1).Nodup := hnodup.sublist (by simp)
  obtain ⟨_, hbackNodup, hcross⟩ := List.nodup_append.1 hnodup
  have hprevMem : h.prev x ∈ head :: l1 := hfront.prev_mem (Or.inr rfl)
  refine ⟨?_, hsub⟩
  -- The front part now ends at the successor of `x`; what follows that successor is untouched.
  have hfrontTo : Seg (CList.listDel h x) head l1 (h.next x) := by
    refine hfront.retarget hfrontNodup rfl ?_ ?_ ?_ ?_
    · rw [listDel_next, if_pos rfl]
    · rw [listDel_prev hne, if_pos rfl]
    · intro y _ hy
      rw [listDel_next, if_neg hy]
    · intro y hy
      rw [listDel_prev hne, if_neg]
      rintro rfl
      rcases hback.next_mem (y := x) (by simp) with hmem | heq
      · exact hcross _ (List.mem_cons_of_mem head hy) _ (List.mem_cons_of_mem x hmem) rfl
      · exact (List.nodup_cons.1 hfrontNodup).1 (heq ▸ hy)
  cases l2 with
  | nil =>
    have hnext : h.next x = head := hback.1
    rw [hnext] at hfrontTo
    simpa using hfrontTo
  | cons y l2 =>
    have hnext : h.next x = y := hback.1
    rw [hnext] at hfrontTo
    refine seg_append.2 ⟨hfrontTo, hback.2.2.congr ?_ ?_⟩
    · intro z hz
      rw [listDel_next, if_neg]
      rintro rfl
      exact hcross _ hprevMem _ (List.mem_cons_of_mem x hz) rfl
    · intro z hz
      rw [listDel_prev hne, hnext, if_neg]
      rintro rfl
      rcases hz with hz | rfl
      · exact (List.nodup_cons.1 (List.nodup_cons.1 hbackNodup).2).1 hz
      · exact hcross z (by simp) z (by simp) rfl

theorem Linked.listDel_other (hl : Linked h head l) (hx : x ∈ l)
    (hl' : Linked h head' l') (hdisj : ∀ y ∈ head :: l, y ∉ head' :: l') :
    Linked (CList.listDel h x) head' l' := by
  have hne := hl.prev_ne hx
  have hmem : x ∈ head :: l := List.mem_cons_of_mem head hx
  refine hl'.congr ?_ ?_ <;> intro y hy
  · rw [listDel_next, if_neg]
    rintro rfl
    exact hdisj _ (hl.prev_mem hmem) hy
  · rw [listDel_prev hne, if_neg]
    rintro rfl
    exact hdisj _ (hl.next_mem hmem) hy

theorem Linked.listDel_erase (hl : Linked h head l) (hx : x ∈ l) :
    Linked (CList.listDel h x) head (l.erase x) := by
  obtain ⟨l1, l2, rfl⟩ := List.append_of_mem hx
  have hnot : x ∉ l1 := by
    intro hmem
    exact (List.nodup_append.1 hl.nodup).2.2 x hmem x (by simp) rfl
  rw [List.erase_append_right _ hnot, List.erase_cons_head]
  exact hl.listDel

end Operations

/-! ### Several lists in one heap -/

/-- Behind every head node in `H` stands its list, and no node is in two of them. -/
structure Lists (h : Links α) (H : Set α) (L : α → List α) : Prop where
  linked : ∀ a ∈ H, Linked h a (L a)
  disjoint : ∀ a ∈ H, ∀ b ∈ H, a ≠ b → ∀ x ∈ a :: L a, x ∉ b :: L b

namespace Lists

variable {h : Links α} {H : Set α} {L : α → List α} {a b x : α}

theorem head_eq_of_mem (hL : Lists h H L) (ha : a ∈ H) (hb : b ∈ H) (hxa : x ∈ L a)
    (hxb : x ∈ L b) : a = b := by
  by_contra hne
  exact hL.disjoint a ha b hb hne x (List.mem_cons_of_mem a hxa) (List.mem_cons_of_mem b hxb)

variable [DecidableEq α]

/-- One list takes a new node at either end. -/
private theorem add {h' : Links α} {l : List α} (hL : Lists h H L) (ha : a ∈ H)
    (hx : ∀ b ∈ H, x ∉ b :: L b) (hlinked : Linked h' a l) (hmem : ∀ y, y ∈ l ↔ y = x ∨ y ∈ L a)
    (hother : ∀ b ∈ H, b ≠ a → Linked h' b (L b)) :
    Lists h' H (update L a l) := by
  have hcons : ∀ y, y ∈ a :: l ↔ y = x ∨ y ∈ a :: L a := by
    intro y
    rw [List.mem_cons, List.mem_cons, hmem]
    tauto
  refine ⟨?_, ?_⟩
  · intro b hb
    rcases eq_or_ne b a with rfl | hne
    · rwa [update_self]
    · rw [update_of_ne hne]
      exact hother b hb hne
  · intro b hb c hc hne y hyb hyc
    rcases eq_or_ne b a with rfl | hba
    · rw [update_self, hcons] at hyb
      rw [update_of_ne hne.symm] at hyc
      rcases hyb with rfl | hyb
      · exact hx c hc hyc
      · exact hL.disjoint b hb c hc hne y hyb hyc
    · rw [update_of_ne hba] at hyb
      rcases eq_or_ne c a with rfl | hca
      · rw [update_self, hcons] at hyc
        rcases hyc with rfl | hyc
        · exact hx b hb hyb
        · exact hL.disjoint b hb c hc hne y hyb hyc
      · rw [update_of_ne hca] at hyc
        exact hL.disjoint b hb c hc hne y hyb hyc

theorem addPrev (hL : Lists h H L) (ha : a ∈ H) (hx : ∀ b ∈ H, x ∉ b :: L b) :
    Lists (listAddPrev h x a) H (update L a (L a ++ [x])) := by
  refine hL.add ha hx ((hL.linked a ha).listAddPrev (hx a ha)) ?_ ?_
  · intro y
    rw [List.mem_append, List.mem_singleton, or_comm]
  · intro b hb hne
    exact (hL.linked a ha).listAddPrev_other (hL.linked b hb)
      (fun y hy => hL.disjoint a ha b hb hne.symm y hy) (hx b hb)

theorem addNext (hL : Lists h H L) (ha : a ∈ H) (hx : ∀ b ∈ H, x ∉ b :: L b) :
    Lists (listAddNext h x a) H (update L a (x :: L a)) := by
  refine hL.add ha hx ((hL.linked a ha).listAddNext (hx a ha)) ?_ ?_
  · intro y
    rw [List.mem_cons]
  · intro b hb hne
    exact (hL.linked a ha).listAddNext_other (hL.linked b hb)
      (fun y hy => hL.disjoint a ha b hb hne.symm y hy) (hx b hb)

theorem mem_of_mem_erase {y : α} (hy : y ∈ b :: update L a ((L a).erase x) b) : y ∈ b :: L b := by
  rcases eq_or_ne b a with rfl | hne
  · rw [update_self] at hy
    rcases List.mem_cons.1 hy with rfl | hy
    · simp
    · exact List.mem_cons_of_mem b (List.mem_of_mem_erase hy)
  · rwa [update_of_ne hne] at hy

theorem notMem_erase (hL : Lists h H L) (ha : a ∈ H) (hx : x ∈ L a) :
    ∀ b ∈ H, x ∉ b :: update L a ((L a).erase x) b := by
  intro b hb hmem
  rcases eq_or_ne b a with rfl | hne
  · rw [update_self] at hmem
    rcases List.mem_cons.1 hmem with rfl | hmem
    · exact (hL.linked x hb).head_notMem hx
    · exact (hL.linked b hb).nodup.not_mem_erase hmem
  · exact hL.disjoint a ha b hb hne.symm x (List.mem_cons_of_mem a hx) (mem_of_mem_erase hmem)

theorem del (hL : Lists h H L) (ha : a ∈ H) (hx : x ∈ L a) :
    Lists (listDel h x) H (update L a ((L a).erase x)) := by
  refine ⟨?_, ?_⟩
  · intro b hb
    rcases eq_or_ne b a with rfl | hne
    · rw [update_self]
      exact (hL.linked b ha).listDel_erase hx
    · rw [update_of_ne hne]
      exact (hL.linked a ha).listDel_other hx (hL.linked b hb)
        (fun y hy => hL.disjoint a ha b hb hne.symm y hy)
  · intro b hb c hc hne y hyb hyc
    exact hL.disjoint b hb c hc hne y (mem_of_mem_erase hyb) (mem_of_mem_erase hyc)

theorem headerInit (hL : Lists h H L) (hx : ∀ b ∈ H, x ∉ b :: L b) : Lists (listHeaderInit h x) H L :=
  ⟨fun a ha => (hL.linked a ha).listHeaderInit_other (hx a ha), hL.disjoint⟩

theorem headerInit_insert (hL : Lists h H L) (hx : ∀ b ∈ H, x ∉ b :: L b) (hnil : L x = []) :
    Lists (listHeaderInit h x) (insert x H) L := by
  have hself : ∀ y ∈ x :: L x, y = x := by
    intro y hy
    rw [hnil] at hy
    exact List.mem_singleton.1 hy
  refine ⟨?_, ?_⟩
  · rintro a (rfl | ha)
    · rw [hnil]
      exact linked_listHeaderInit h a
    · exact (hL.headerInit hx).linked a ha
  · rintro a (rfl | ha) b (rfl | hb) hne y hya hyb
    · exact hne rfl
    · exact hx b hb (hself y hya ▸ hyb)
    · exact hx a ha (hself y hyb ▸ hya)
    · exact hL.disjoint a ha b hb hne y hya hyb

end Lists

end CList
