import QuarkOS.Lib.Bytes
import Mathlib.Data.List.Perm.Subperm

/-!
# Free lists in free memory

An area of `cap` bytes is cut into slots of `size` bytes. The free slots form a list that is kept in
the slots themselves: the first word of a free slot is the address of the next one, and zero ends the
list. An address is `base` plus the offset of a slot.
-/

namespace FreeList

open Bytes

variable {base cap size c o o' n : Nat} {b b' : Area} {l : List Nat}

def IsSlot (cap size o : Nat) : Prop := ∃ i < cap / size, o = i * size

theorem IsSlot.le (h : IsSlot cap size o) : o + size ≤ cap := by
  obtain ⟨i, hi, rfl⟩ := h
  have hle : (i + 1) * size ≤ cap / size * size := Nat.mul_le_mul_right size hi
  have hcap := Nat.div_mul_le_self cap size
  rw [Nat.succ_mul] at hle
  omega

theorem IsSlot.lt (h : IsSlot cap size o) (hsize : 4 ≤ size) : o < cap := by
  have hle := h.le
  omega

theorem IsSlot.apart (h : IsSlot cap size o) (h' : IsSlot cap size o') (hne : o ≠ o') :
    o + size ≤ o' ∨ o' + size ≤ o := by
  obtain ⟨i, _, rfl⟩ := h
  obtain ⟨j, _, rfl⟩ := h'
  rcases lt_trichotomy i j with hlt | rfl | hlt
  · have hle : (i + 1) * size ≤ j * size := Nat.mul_le_mul_right size hlt
    rw [Nat.succ_mul] at hle
    exact Or.inl hle
  · exact absurd rfl hne
  · have hle : (j + 1) * size ≤ i * size := Nat.mul_le_mul_right size hlt
    rw [Nat.succ_mul] at hle
    exact Or.inr hle

theorem length_le_of_slots (hnodup : l.Nodup) (hslot : ∀ o ∈ l, IsSlot cap size o) :
    l.length ≤ cap / size := by
  have hsub : l ⊆ (List.range (cap / size)).map (· * size) := by
    intro o ho
    obtain ⟨i, hi, rfl⟩ := hslot o ho
    exact List.mem_map.2 ⟨i, List.mem_range.2 hi, rfl⟩
  have hle := (hnodup.subperm hsub).length_le
  rwa [List.length_map, List.length_range] at hle

/-- From the address `c` on the slots at the offsets `l` follow one another. -/
def Threaded (base : Nat) (b : Area) : Nat → List Nat → Prop
  | c, [] => c = 0
  | c, o :: l => c = base + o ∧ Threaded base b (load b o 4) l

theorem Threaded.congr (ht : Threaded base b c l) (h : ∀ o ∈ l, load b' o 4 = load b o 4) :
    Threaded base b' c l := by
  induction l generalizing c with
  | nil => exact ht
  | cons o l ih =>
    refine ⟨ht.1, ?_⟩
    rw [h o List.mem_cons_self]
    exact ih ht.2 fun o' ho' => h o' (List.mem_cons_of_mem o ho')

/-- The free slots are those at the offsets `l`. -/
structure FreeSlots (base cap size : Nat) (b : Area) (c : Nat) (l : List Nat) : Prop where
  threaded : Threaded base b c l
  nodup : l.Nodup
  slot : ∀ o ∈ l, IsSlot cap size o

theorem FreeSlots.eq_zero_iff (h : FreeSlots base cap size b c l) (hbase : 0 < base) : c = 0 ↔ l = [] := by
  cases l with
  | nil => exact iff_of_true h.threaded rfl
  | cons o l =>
    refine iff_of_false ?_ (List.cons_ne_nil o l)
    rw [h.threaded.1]
    omega

theorem FreeSlots.length_lt (h : FreeSlots base cap size b c l) (ho : IsSlot cap size o)
    (hout : o ∉ l) : l.length < cap / size := by
  refine length_le_of_slots (l := o :: l) (List.nodup_cons.2 ⟨hout, h.nodup⟩) ?_
  intro x hx
  rcases List.mem_cons.1 hx with rfl | hx
  · exact ho
  · exact h.slot x hx

theorem FreeSlots.pop (h : FreeSlots base cap size b c (o :: l)) :
    c = base + o ∧ FreeSlots base cap size b (load b o 4) l ∧ o ∉ l :=
  ⟨h.threaded.1, ⟨h.threaded.2, (List.nodup_cons.1 h.nodup).2,
    fun x hx => h.slot x (List.mem_cons_of_mem o hx)⟩, (List.nodup_cons.1 h.nodup).1⟩

theorem FreeSlots.congr (h : FreeSlots base cap size b c l) (hsize : 4 ≤ size)
    (ho : IsSlot cap size o) (hout : o ∉ l) (hsame : ∀ i, i < o ∨ o + size ≤ i → b' i = b i) :
    FreeSlots base cap size b' c l := by
  refine ⟨h.threaded.congr fun x hx => ?_, h.nodup, h.slot⟩
  have hne : x ≠ o := fun he => hout (he ▸ hx)
  apply load_congr
  intro i hle hlt
  apply hsame
  rcases (h.slot x hx).apart ho hne with hbelow | habove <;> omega

theorem FreeSlots.push (h : FreeSlots base cap size b c l) (hsize : 4 ≤ size) (hc : c < 2 ^ 32)
    (ho : IsSlot cap size o) (hout : o ∉ l) :
    FreeSlots base cap size (store b o 4 c) (base + o) (o :: l) := by
  have hrest : FreeSlots base cap size (store b o 4 c) c l :=
    h.congr hsize ho hout fun i hi => store_of_not_mem (by omega)
  refine ⟨⟨rfl, ?_⟩, List.nodup_cons.2 ⟨hout, h.nodup⟩, ?_⟩
  · have hload : load (store b o 4 c) o 4 = c := load_store.trans (Nat.mod_eq_of_lt hc)
    rw [hload]
    exact hrest.threaded
  · intro x hx
    rcases List.mem_cons.1 hx with rfl | hx
    · exact ho
    · exact h.slot x hx

def slotRun (size : Nat) : Nat → Nat → List Nat
  | 0, _ => []
  | n + 1, o => o :: slotRun size n (o + size)

theorem length_slotRun (size n o : Nat) : (slotRun size n o).length = n := by
  induction n generalizing o with
  | zero => rfl
  | succ n ih => rw [slotRun, List.length_cons, ih]

theorem mem_slotRun {x : Nat} (h : x ∈ slotRun size n o) : ∃ i < n, x = o + i * size := by
  induction n generalizing o with
  | zero => exact absurd h List.not_mem_nil
  | succ n ih =>
    rcases List.mem_cons.1 h with rfl | h
    · exact ⟨0, Nat.succ_pos n, by omega⟩
    · obtain ⟨i, hi, rfl⟩ := ih h
      refine ⟨i + 1, Nat.succ_lt_succ hi, ?_⟩
      rw [Nat.succ_mul]
      omega

theorem nodup_slotRun (hsize : 0 < size) (n o : Nat) : (slotRun size n o).Nodup := by
  induction n generalizing o with
  | zero => exact List.nodup_nil
  | succ n ih =>
    refine List.nodup_cons.2 ⟨fun h => ?_, ih _⟩
    obtain ⟨i, _, he⟩ := mem_slotRun h
    omega

/-- Link the `n + 1` slots from the offset `o` on. -/
def thread (base size : Nat) : Nat → Area → Nat → Area
  | 0, b, o => store b o 4 0
  | n + 1, b, o => thread base size n (store b o 4 (base + (o + size))) (o + size)

theorem thread_of_lt (n : Nat) : ∀ {b : Area} {o i : Nat}, i < o → thread base size n b o i = b i := by
  induction n with
  | zero =>
    intro b o i hi
    exact store_of_not_mem (Or.inl hi)
  | succ n ih =>
    intro b o i hi
    rw [thread, ih (by omega), store_of_not_mem (Or.inl hi)]

theorem threaded_thread (hsize : 4 ≤ size) (n : Nat) : ∀ {b : Area} {o : Nat},
    base + (o + n * size) < 2 ^ 32 →
    Threaded base (thread base size n b o) (base + o) (slotRun size (n + 1) o) := by
  induction n with
  | zero =>
    intro b o _
    exact ⟨rfl, load_store⟩
  | succ n ih =>
    intro b o hlt
    rw [Nat.succ_mul] at hlt
    refine ⟨rfl, ?_⟩
    have hload : load (thread base size (n + 1) b o) o 4 = base + (o + size) := by
      have hfirst : load (thread base size (n + 1) b o) o 4 =
          load (store b o 4 (base + (o + size))) o 4 :=
        load_congr fun i _ hi => thread_of_lt n (by omega)
      rw [hfirst, load_store]
      exact Nat.mod_eq_of_lt (by omega)
    rw [hload]
    exact ih (by omega)

theorem freeSlots_thread (hsize : 4 ≤ size) (hn : n + 1 = cap / size) (hcap : base + cap < 2 ^ 32) :
    FreeSlots base cap size (thread base size n b 0) base (slotRun size (n + 1) 0) := by
  have hle := Nat.div_mul_le_self cap size
  rw [← hn, Nat.succ_mul] at hle
  refine ⟨threaded_thread hsize n (by omega), nodup_slotRun (by omega) _ _, ?_⟩
  intro x hx
  obtain ⟨i, hi, rfl⟩ := mem_slotRun hx
  exact ⟨i, hn ▸ hi, Nat.zero_add _⟩

end FreeList
