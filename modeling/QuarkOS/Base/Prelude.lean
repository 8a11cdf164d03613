import Mathlib.Algebra.Order.Ring.Nat
import Mathlib.Data.Nat.Bits
import Mathlib.Data.Nat.Log
import Mathlib.Tactic.Common

/-!
# What every kernel module uses

A kernel function is a function on an explicit state that either returns or ends in a `Fault`. The
machine integers of the source are natural numbers, reduced where the C type would wrap; the bits of
a flag word are a `BitVec`.
-/

namespace QuarkOS

/-- What keeps a kernel function from returning. -/
inductive Fault
  /-- A failed `assertk`: the kernel prints the place and halts. -/
  | assertk
  /-- The `assertk` that finds no free block in the page allocator. -/
  | outOfMemory
  /-- A call of `error`: the kernel prints the message and halts. -/
  | error
  /-- A busy wait nobody will end. -/
  | spin
  /-- An access to an address that is not mapped. -/
  | pageFault
  /-- The C text has no defined behaviour. -/
  | undefined
deriving DecidableEq, Repr

def assertk (condition : Bool) : Except Fault Unit :=
  if condition then .ok () else .error .assertk

@[simp] theorem assertk_true : assertk true = .ok () := rfl

@[simp] theorem assertk_false : assertk false = .error .assertk := rfl

variable {α β : Type} {P : α → Prop}

theorem assertk_bind (condition : Bool) (f : Unit → Except Fault α) :
    (assertk condition >>= f) = if condition then f () else .error .assertk := by
  cases condition <;> rfl

theorem assertk_eq_ok {condition : Bool} {u : Unit} (h : assertk condition = .ok u) : condition = true := by
  cases condition with
  | true => rfl
  | false => cases h

/-! ### Results -/

@[simp] theorem ok_bind (a : α) (f : α → Except Fault β) : (Except.ok a >>= f) = f a := rfl

@[simp] theorem error_bind (e : Fault) (f : α → Except Fault β) :
    ((Except.error e : Except Fault α) >>= f) = .error e := rfl

theorem bind_eq_ok {x : Except Fault α} {f : α → Except Fault β} {b : β}
    (h : (x >>= f) = .ok b) : ∃ a, x = .ok a ∧ f a = .ok b := by
  cases x with
  | error e => cases h
  | ok a => exact ⟨a, rfl, h⟩

theorem bind_ok_iff {x : Except Fault α} {f : α → Except Fault β} {b : β} :
    (x >>= f) = .ok b ↔ ∃ a, x = .ok a ∧ f a = .ok b := by
  refine ⟨bind_eq_ok, ?_⟩
  rintro ⟨a, rfl, h⟩
  exact h

theorem exists_ok {x : Except Fault α} (h : x.isOk = true) : ∃ a, x = .ok a := by
  cases x with
  | error e => cases h
  | ok a => exact ⟨a, rfl⟩

theorem of_assertk {p : Prop} [Decidable p] (h : assertk p = .ok ()) : p :=
  of_decide_eq_true (assertk_eq_ok h)

theorem assertk_pos {p : Prop} [Decidable p] (h : p) (f : Unit → Except Fault α) :
    (assertk p >>= f) = f () := by
  rw [decide_eq_true h]
  rfl

/-- The computation ends in this fault. -/
def faults {α : Type} (x : Except Fault α) (fault : Fault) : Bool :=
  match x with
  | .error e => e = fault
  | .ok _ => false

theorem eq_error_of_faults {x : Except Fault α} {fault : Fault} (h : faults x fault = true) :
    x = .error fault := by
  cases x with
  | error e => rw [of_decide_eq_true h]
  | ok a => cases h

/-- What the computation returns passes the test. -/
def passes {α : Type} (x : Except Fault α) (test : α → Bool) : Bool :=
  match x with
  | .error _ => false
  | .ok a => test a

theorem exists_of_passes {x : Except Fault α} (test : α → Bool) (h : passes x test = true) :
    ∃ a, x = .ok a ∧ test a = true := by
  cases x with
  | error e => cases h
  | ok a => exact ⟨a, rfl, h⟩

/-- The computation has defined behaviour, and what it returns has the property `Q`. -/
def Defined {α : Type} (x : Except Fault α) (Q : α → Prop) : Prop :=
  x ≠ .error .undefined ∧ ∀ a, x = .ok a → Q a

theorem Defined.ok {a : α} {Q : α → Prop} (h : Q a) : Defined (.ok a) Q :=
  ⟨nofun, fun _ heq => Except.ok.inj heq ▸ h⟩

theorem Defined.error {e : Fault} {Q : α → Prop} (h : e ≠ .undefined) :
    Defined (.error e : Except Fault α) Q :=
  ⟨fun heq => h (Except.error.inj heq), nofun⟩

theorem Defined.bind {x : Except Fault α} {f : α → Except Fault β}
    {Q : β → Prop} (hx : Defined x P) (hf : ∀ a, P a → Defined (f a) Q) : Defined (x >>= f) Q := by
  cases x with
  | error e => exact ⟨fun h => hx.1 (by cases h; rfl), nofun⟩
  | ok a => exact hf a (hx.2 a rfl)

theorem Defined.mono {x : Except Fault α} {Q : α → Prop} (hx : Defined x P)
    (h : ∀ a, P a → Q a) : Defined x Q :=
  ⟨hx.1, fun a ha => h a (hx.2 a ha)⟩

theorem Defined.self {x : Except Fault α} (hx : Defined x P) : Defined x fun a => x = .ok a ∧ P a :=
  ⟨hx.1, fun a ha => ⟨ha, hx.2 a ha⟩⟩

theorem Defined.assertk {condition : Bool} {Q : Unit → Prop} (h : condition = true → Q ()) :
    Defined (assertk condition) Q := by
  cases condition with
  | true => exact .ok (h rfl)
  | false => exact .error (by decide)

/-! ### Locks

The functions below run on one CPU without being interrupted, so a lock that is held when it is asked
for stays held. -/

def spinlockInit : Bool := false

def spinlockLock (flag : Bool) : Except Fault Bool :=
  if flag then .error .spin else .ok true

def spinlockUnlock : Bool := false

structure RwLock where
  lock : Bool
  writelock : Bool
  readers : Nat
deriving DecidableEq, Repr

def rwlockInit : RwLock := { lock := spinlockInit, writelock := spinlockInit, readers := 0 }

def wlockLock (lk : RwLock) : Except Fault RwLock := do
  let writelock ← spinlockLock lk.writelock
  .ok { lk with writelock }

def wlockUnlock (lk : RwLock) : RwLock := { lk with writelock := spinlockUnlock }

/-! ### Sizes and addresses -/

def pageSize : Nat := 4096

/-- `PAGE_CEIL` of the source: the address of the page an address lies in. -/
def pageCeil (addr : Nat) : Nat := addr / 4096 * 4096

/-- `PAGE_FLOOR` of the source: the next page boundary, computed in 32 bits. -/
def pageFloor (s : Nat) : Nat := (s + 4095) % 2 ^ 32 / 4096 * 4096

def kernelStart : Nat := 0xc0000000

/-- A power of two, or zero, is itself; everything else is smeared to the right and incremented. -/
def fixSize (size : Nat) : Nat :=
  let size := size % 2 ^ 32
  if size &&& (size - 1) = 0 then size
  else
    let size := size ||| size >>> 1
    let size := size ||| size >>> 2
    let size := size ||| size >>> 4
    let size := size ||| size >>> 8
    let size := size ||| size >>> 16
    (size + 1) % 2 ^ 32

/-- The source shifts its 16-bit argument down to one and does not return for zero. -/
def log2 (val : Nat) : Except Fault Nat :=
  if val % 2 ^ 16 = 0 then .error .spin else .ok (Nat.log2 (val % 2 ^ 16))

theorem log2_two_pow {k : Nat} (hk : k < 16) : log2 (2 ^ k) = .ok k := by
  have hlt : 2 ^ k < 2 ^ 16 := Nat.pow_lt_pow_right (by decide) hk
  have hpos : 2 ^ k ≠ 0 := (Nat.two_pow_pos k).ne'
  rw [log2, Nat.mod_eq_of_lt hlt, if_neg hpos, Nat.log2_two_pow]

/-! ### `fixSize` gives powers of two -/

/-- A bit of `y` is set when one of the `r` bits of `x` from there on is. -/
private def Smeared (x r y : Nat) : Prop :=
  ∀ i, y.testBit i = true ↔ ∃ j, i ≤ j ∧ j < i + r ∧ x.testBit j = true

private theorem Smeared.double {x r y : Nat} (h : Smeared x r y) : Smeared x (r + r) (y ||| y >>> r) := by
  intro i
  rw [Nat.testBit_or, Nat.testBit_shiftRight, Bool.or_eq_true, h i, h (r + i)]
  constructor
  · rintro (⟨j, hle, hlt, hj⟩ | ⟨j, hle, hlt, hj⟩)
    · exact ⟨j, hle, by omega, hj⟩
    · exact ⟨j, by omega, by omega, hj⟩
  · rintro ⟨j, hle, hlt, hj⟩
    rcases Nat.lt_or_ge j (i + r) with hlow | hhigh
    · exact Or.inl ⟨j, hle, hlow, hj⟩
    · exact Or.inr ⟨j, by omega, by omega, hj⟩

private theorem Smeared.eq_two_pow_sub_one {x y : Nat} (h : Smeared x 32 y) (hx : x ≠ 0)
    (hlt : x < 2 ^ 32) : y = 2 ^ (Nat.log2 x + 1) - 1 := by
  have hlog : Nat.log2 x < 32 := (Nat.log2_lt hx).2 hlt
  apply Nat.eq_of_testBit_eq
  intro i
  rw [Nat.testBit_two_pow_sub_one, Bool.eq_iff_iff, h i, decide_eq_true_iff]
  constructor
  · rintro ⟨j, hle, _, hj⟩
    have hpow : 2 ^ j ≤ x := Nat.ge_two_pow_of_testBit hj
    have hjlog : j ≤ Nat.log2 x := (Nat.le_log2 hx).2 hpow
    omega
  · intro hi
    exact ⟨Nat.log2 x, by omega, by omega, Nat.testBit_log2 hx⟩

/-- A power of two stays; from everything else only the highest bit counts. -/
private theorem fixSize_eq {n : Nat} (hn : n % 2 ^ 32 ≠ 0) : (∃ k, n % 2 ^ 32 = 2 ^ k ∧ fixSize n = 2 ^ k) ∨
      (∀ k, n % 2 ^ 32 ≠ 2 ^ k) ∧ fixSize n = 2 ^ (Nat.log2 (n % 2 ^ 32) + 1) % 2 ^ 32 := by
  have hlt : n % 2 ^ 32 < 2 ^ 32 := Nat.mod_lt _ (by decide)
  unfold fixSize
  generalize n % 2 ^ 32 = x at hlt hn
  dsimp only
  split
  · rename_i hand
    obtain ⟨k, hk⟩ := (Nat.and_sub_one_eq_zero_iff_isPowerOfTwo hn).1 hand
    exact Or.inl ⟨k, hk, hk⟩
  · rename_i hand
    refine Or.inr ⟨fun k hk => hand ((Nat.and_sub_one_eq_zero_iff_isPowerOfTwo hn).2 ⟨k, hk⟩), ?_⟩
    have hone : Smeared x 1 x := by
      intro i
      constructor
      · intro hi
        exact ⟨i, le_rfl, by omega, hi⟩
      · rintro ⟨j, hle, hlt, hj⟩
        obtain rfl : j = i := by omega
        exact hj
    have hsmear := hone.double.double.double.double.double
    rw [hsmear.eq_two_pow_sub_one hn hlt, Nat.sub_add_cancel (Nat.one_le_two_pow)]

theorem fixSize_cases (n : Nat) : fixSize n = 0 ∨ ∃ k, k < 32 ∧ fixSize n = 2 ^ k := by
  have hlt : n % 2 ^ 32 < 2 ^ 32 := Nat.mod_lt _ (by decide)
  by_cases hn : n % 2 ^ 32 = 0
  · left
    rw [fixSize, hn]
    rfl
  · obtain ⟨k, hk, he⟩ | ⟨_, he⟩ := fixSize_eq hn
    · rw [hk] at hlt
      exact Or.inr ⟨k, (Nat.pow_lt_pow_iff_right (by decide)).1 hlt, he⟩
    · rw [he]
      rcases Nat.lt_or_ge (Nat.log2 (n % 2 ^ 32) + 1) 32 with hk | hk
      · exact Or.inr ⟨_, hk, Nat.mod_eq_of_lt (Nat.pow_lt_pow_right (by decide) hk)⟩
      · have hlog : Nat.log2 (n % 2 ^ 32) < 32 := (Nat.log2_lt hn).2 hlt
        left
        have hexp : Nat.log2 (n % 2 ^ 32) + 1 = 32 := by omega
        rw [hexp, Nat.mod_self]

theorem fixSize_spec {n : Nat} (hpos : 0 < n) (hle : n ≤ 2 ^ 31) :
    ∃ k, fixSize n = 2 ^ k ∧ n ≤ 2 ^ k ∧ ∀ j, n ≤ 2 ^ j → k ≤ j := by
  have hmod : n % 2 ^ 32 = n := Nat.mod_eq_of_lt (by omega)
  have hn : n % 2 ^ 32 ≠ 0 := by omega
  obtain ⟨k, hk, he⟩ | ⟨hne, he⟩ := fixSize_eq hn
  · rw [hmod] at hk
    refine ⟨k, he, hk.le, fun j hj => ?_⟩
    rw [hk] at hj
    exact (Nat.pow_le_pow_iff_right (by decide)).1 hj
  · rw [hmod] at he hne hn
    have hlt : ∀ j, n ≤ 2 ^ j → Nat.log2 n < j := fun j hj => (Nat.log2_lt hn).2 (hj.lt_of_ne (hne j))
    have hlog := hlt 31 hle
    rw [Nat.mod_eq_of_lt (Nat.pow_lt_pow_right (by decide) (by omega))] at he
    exact ⟨_, he, Nat.lt_log2_self.le, hlt⟩

theorem fixSize_two_pow {k : Nat} (hk : k ≤ 31) : fixSize (2 ^ k) = 2 ^ k := by
  have hle : 2 ^ k ≤ 2 ^ 31 := Nat.pow_le_pow_right (by decide) hk
  obtain ⟨j, hj, hlow, hleast⟩ := fixSize_spec (Nat.two_pow_pos k) hle
  have hjk : j ≤ k := hleast k le_rfl
  have hkj : k ≤ j := (Nat.pow_le_pow_iff_right (by decide)).1 hlow
  rw [hj, Nat.le_antisymm hjk hkj]

end QuarkOS
