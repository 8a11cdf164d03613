import Mathlib.Data.Set.Card
import QuarkOS.Base.Prelude

/-!
# The read-write lock

`rwlock.h` for any number of threads and any order of their steps: each `test_and_set`, each change of
`readers`, each test of it and each store that gives a lock back is one step. The first reader takes
`writelock` for all readers and the last one gives it back, which may be another thread.

The invariant counts the threads between the two changes of `readers`, and says from the places of the
threads alone who has which of the two spin locks.
-/

namespace QuarkOS

open Function

inductive RwPc
  | outside
  /-- In `rlock_lock`, at `spinlock_lock(&lk->lock)`. -/
  | rlockEnter
  | rlockCount
  | rlockTest
  /-- At `spinlock_lock(&lk->writelock)`. -/
  | rlockWait
  | rlockLeave
  | reading
  /-- In `rlock_unlock`, at `spinlock_lock(&lk->lock)`. -/
  | runlockEnter
  | runlockCount
  | runlockTest
  /-- At `spinlock_unlock(&lk->writelock)`. -/
  | runlockOpen
  | runlockLeave
  | wlockWait
  | writing
  /-- In `wlock_unlock`, at the store. -/
  | wunlock
deriving DecidableEq, Repr

namespace RwPc

instance : Fintype RwPc where
  elems := {.outside, .rlockEnter, .rlockCount, .rlockTest, .rlockWait, .rlockLeave, .reading,
    .runlockEnter, .runlockCount, .runlockTest, .runlockOpen, .runlockLeave, .wlockWait, .writing,
    .wunlock}
  complete := by
    intro pc
    cases pc <;> decide

/-- The next step of a call; `none` outside the four functions and while a `test_and_set` fails. -/
def next (lk : RwLock) : RwPc → Option (RwLock × RwPc)
  | .rlockEnter => if lk.lock then none else some ({ lk with lock := true }, .rlockCount)
  | .rlockCount => some ({ lk with readers := (lk.readers + 1) % 2 ^ 16 }, .rlockTest)
  | .rlockTest => some (lk, if lk.readers = 1 then .rlockWait else .rlockLeave)
  | .rlockWait => if lk.writelock then none else some ({ lk with writelock := true }, .rlockLeave)
  | .rlockLeave => some ({ lk with lock := false }, .reading)
  | .runlockEnter => if lk.lock then none else some ({ lk with lock := true }, .runlockCount)
  | .runlockCount => some ({ lk with readers := (lk.readers + (2 ^ 16 - 1)) % 2 ^ 16 }, .runlockTest)
  | .runlockTest => some (lk, if lk.readers = 0 then .runlockOpen else .runlockLeave)
  | .runlockOpen => some ({ lk with writelock := false }, .runlockLeave)
  | .runlockLeave => some ({ lk with lock := false }, .outside)
  | .wlockWait => if lk.writelock then none else some ({ lk with writelock := true }, .writing)
  | .wunlock => some ({ lk with writelock := false }, .outside)
  | .outside | .reading | .writing => none

/-- The thread has `lock`. -/
def owns : RwPc → Bool
  | .rlockCount | .rlockTest | .rlockWait | .rlockLeave => true
  | .runlockCount | .runlockTest | .runlockOpen | .runlockLeave => true
  | _ => false

/-- The thread has incremented `readers` and not decremented it. -/
def counted : RwPc → Bool
  | .rlockTest | .rlockWait | .rlockLeave | .reading | .runlockEnter | .runlockCount => true
  | _ => false

/-- The thread has a share in the `writelock` that the readers have. -/
def shares : RwPc → Bool
  | .rlockLeave | .reading | .runlockEnter | .runlockCount | .runlockTest | .runlockOpen => true
  | _ => false

/-- The thread is between `wlock_lock` and the store of `wlock_unlock`. -/
def writes : RwPc → Bool
  | .writing | .wunlock => true
  | _ => false

/-- The thread is between `rlock_lock` and the decrement of `rlock_unlock`. -/
def reads : RwPc → Bool
  | .reading | .runlockEnter | .runlockCount => true
  | _ => false

/-- Two threads may be at these places at a time. -/
def compatible (a b : RwPc) : Bool :=
  !(a.owns && b.owns) &&
  !(a.writes && (b.writes || b.shares)) && !(b.writes && a.shares) &&
  !(a = .rlockWait && b.counted) && !(b = .rlockWait && a.counted) &&
  !(a = .runlockOpen && b.counted) && !(b = .runlockOpen && a.counted)

theorem compatible_comm : ∀ a b : RwPc, compatible a b = compatible b a := by
  decide

end RwPc

/-- The calls, each from the place where it may be made. -/
inductive RwCall : RwPc → RwPc → Prop
  | rlockLock : RwCall .outside .rlockEnter
  | rlockUnlock : RwCall .reading .runlockEnter
  | wlockLock : RwCall .outside .wlockWait
  | wlockUnlock : RwCall .writing .wunlock

structure RwWorld where
  lk : RwLock
  pc : Nat → RwPc

namespace RwWorld

def start : RwWorld := { lk := rwlockInit, pc := fun _ => .outside }

inductive Step (w : RwWorld) : RwWorld → Prop
  | call {t : Nat} {pc : RwPc} (hcall : RwCall (w.pc t) pc) :
      Step w { w with pc := update w.pc t pc }
  | next {t : Nat} {lk : RwLock} {pc : RwPc} (hnext : (w.pc t).next w.lk = some (lk, pc)) :
      Step w { lk, pc := update w.pc t pc }

/-- The threads that `readers` counts. -/
def readers (w : RwWorld) : Set Nat := {t | (w.pc t).counted = true}

/-- The states reached with fewer than 65536 readers at a time. -/
inductive RwRun : RwWorld → Prop
  | start : RwRun start
  | step {w w' : RwWorld} : RwRun w → w.Step w' → w'.readers.ncard < 2 ^ 16 → RwRun w'

/-- The thread has `writelock`, or a share in it. -/
def holds (pc : RwPc) : Bool := pc.shares || pc.writes

structure Inv (w : RwWorld) : Prop where
  compatible : ∀ t t', t ≠ t' → (w.pc t).compatible (w.pc t') = true
  lock_iff : w.lk.lock = true ↔ ∃ t, (w.pc t).owns = true
  writelock_iff : w.lk.writelock = true ↔ ∃ t, holds (w.pc t) = true
  finite : w.readers.Finite
  count : w.lk.readers = w.readers.ncard

variable {w w' : RwWorld} {t : Nat} {lk : RwLock} {a pc : RwPc}

theorem Inv.other (h : w.Inv) (hpc : w.pc t = a) : ∀ t' ≠ t, a.compatible (w.pc t') = true := by
  intro t' hne
  rw [← hpc]
  exact h.compatible t t' (Ne.symm hne)

theorem exists_update_iff (p : RwPc → Bool) : (∃ t', p (update w.pc t pc t') = true) ↔
      p pc = true ∨ ∃ t' ≠ t, p (w.pc t') = true := by
  constructor
  · rintro ⟨t', ht'⟩
    by_cases heq : t' = t
    · subst heq
      rw [update_self] at ht'
      exact Or.inl ht'
    · rw [update_of_ne heq] at ht'
      exact Or.inr ⟨t', heq, ht'⟩
  · rintro (hpc | ⟨t', hne, ht'⟩)
    · exact ⟨t, by rw [update_self, hpc]⟩
    · exact ⟨t', by rw [update_of_ne hne, ht']⟩

theorem exists_iff (p : RwPc → Bool) :
    (∃ t', p (w.pc t') = true) ↔ p (w.pc t) = true ∨ ∃ t' ≠ t, p (w.pc t') = true := by
  have h : (∃ t', p (update w.pc t (w.pc t) t') = true) ↔ _ := exists_update_iff p
  rwa [update_eq_self] at h

theorem readers_update : readers { lk, pc := update w.pc t pc } =
      if pc.counted then insert t w.readers else w.readers \ {t} := by
  ext t'
  by_cases heq : t' = t
  · subst heq
    cases hpc : pc.counted <;> simp [readers, hpc]
  · cases hpc : pc.counted <;> simp [readers, heq]

theorem Inv.move (h : w.Inv) (hcompatible : ∀ t' ≠ t, pc.compatible (w.pc t') = true)
    (hlock : lk.lock = true ↔ pc.owns = true ∨ ∃ t' ≠ t, (w.pc t').owns = true)
    (hwritelock : lk.writelock = true ↔ holds pc = true ∨ ∃ t' ≠ t, holds (w.pc t') = true)
    (hcount : lk.readers = (readers { lk, pc := update w.pc t pc }).ncard) :
    Inv { lk, pc := update w.pc t pc } where
  compatible := by
    intro t1 t2 hne
    dsimp only
    by_cases h1 : t1 = t
    · subst h1
      rw [update_self, update_of_ne (Ne.symm hne)]
      exact hcompatible t2 (Ne.symm hne)
    · rw [update_of_ne h1]
      by_cases h2 : t2 = t
      · subst h2
        rw [update_self, RwPc.compatible_comm]
        exact hcompatible t1 hne
      · rw [update_of_ne h2]
        exact h.compatible t1 t2 hne
  lock_iff := hlock.trans (exists_update_iff RwPc.owns).symm
  writelock_iff := hwritelock.trans (exists_update_iff holds).symm
  finite := by
    rw [readers_update]
    split
    · exact h.finite.insert t
    · exact h.finite.sdiff
  count := hcount

theorem Inv.lock_keep (h : w.Inv) (howns : pc.owns = (w.pc t).owns) :
    w.lk.lock = true ↔ pc.owns = true ∨ ∃ t' ≠ t, (w.pc t').owns = true := by
  rw [howns, ← exists_iff RwPc.owns]
  exact h.lock_iff

theorem Inv.writelock_keep (h : w.Inv) (hholds : holds pc = holds (w.pc t)) :
    w.lk.writelock = true ↔ holds pc = true ∨ ∃ t' ≠ t, holds (w.pc t') = true := by
  rw [hholds, ← exists_iff holds]
  exact h.writelock_iff

theorem readers_keep (hcounted : pc.counted = (w.pc t).counted) :
    readers { lk, pc := update w.pc t pc } = w.readers := by
  rw [readers_update, hcounted]
  split
  · rename_i hmem
    exact Set.insert_eq_of_mem hmem
  · rename_i hmem
    exact Set.sdiff_singleton_eq_self hmem

section

variable (h : w.Inv)
include h

theorem Inv.count_keep (hcounted : pc.counted = (w.pc t).counted)
    (hreaders : lk.readers = w.lk.readers) :
    lk.readers = (readers { lk, pc := update w.pc t pc }).ncard := by
  rw [readers_keep hcounted, hreaders, h.count]

theorem Inv.others_counted (hone : w.lk.readers = 1) (ht : (w.pc t).counted = true) :
    ∀ t' ≠ t, (w.pc t').counted = false := by
  intro t' hne
  by_contra hcounted
  rw [h.count, Set.ncard_eq_one] at hone
  obtain ⟨a, ha⟩ := hone
  have hmem : t ∈ w.readers := ht
  have hmem' : t' ∈ w.readers := Bool.eq_true_of_not_eq_false hcounted
  rw [ha] at hmem hmem'
  exact hne (hmem'.trans hmem.symm)

theorem Inv.exists_counted (hsome : w.lk.readers ≠ 0) : ∃ t, (w.pc t).counted = true := by
  rw [h.count] at hsome
  exact Set.nonempty_of_ncard_ne_zero hsome

theorem Inv.exists_other_counted (ht : (w.pc t).counted = true)
    (hmore : w.lk.readers ≠ 1) : ∃ t' ≠ t, (w.pc t').counted = true := by
  by_contra hnone
  push Not at hnone
  apply hmore
  rw [h.count, Set.ncard_eq_one]
  refine ⟨t, Set.eq_singleton_iff_unique_mem.2 ⟨ht, ?_⟩⟩
  intro t' ht'
  by_contra hne
  exact hnone t' hne ht'

theorem Inv.quiet (hpc : w.pc t = a)
    (hcompatible : ∀ t' ≠ t, pc.compatible (w.pc t') = true) (howns : pc.owns = a.owns)
    (hholds : holds pc = holds a) (hcounted : pc.counted = a.counted) :
    Inv { w with pc := update w.pc t pc } := by
  subst hpc
  exact h.move hcompatible (h.lock_keep howns) (h.writelock_keep hholds) (h.count_keep hcounted rfl)

theorem Inv.call (hcall : RwCall (w.pc t) pc) : Inv { w with pc := update w.pc t pc } := by
  obtain ⟨a, hpc⟩ : ∃ a, w.pc t = a := ⟨_, rfl⟩
  have hother := h.other hpc
  rw [hpc] at hcall
  have hkeep : ∀ b, a.compatible b = true → pc.compatible b = true := by
    cases hcall <;> decide
  have hclass : pc.owns = a.owns ∧ holds pc = holds a ∧ pc.counted = a.counted := by
    cases hcall <;> decide
  exact h.quiet hpc (fun t' hne => hkeep _ (hother t' hne)) hclass.1 hclass.2.1 hclass.2.2

theorem Inv.takeLock (hpc : w.pc t = a) (hlock : ¬w.lk.lock = true)
    (hcompatible : ∀ b, a.compatible b = true → b.owns = false → pc.compatible b = true)
    (howns : pc.owns = true) (hholds : holds pc = holds a) (hcounted : pc.counted = a.counted) :
    Inv { lk := { w.lk with lock := true }, pc := update w.pc t pc } := by
  have hfree : ∀ t', (w.pc t').owns = false := by
    intro t'
    by_contra howns
    exact hlock (h.lock_iff.2 ⟨t', Bool.eq_true_of_not_eq_false howns⟩)
  have hother := h.other hpc
  subst hpc
  exact h.move (fun t' hne => hcompatible _ (hother t' hne) (hfree t'))
    (iff_of_true rfl (Or.inl howns)) (h.writelock_keep hholds) (h.count_keep hcounted rfl)

theorem Inv.takeWrite (hpc : w.pc t = a) (hlock : ¬w.lk.writelock = true)
    (hcompatible : ∀ b, a.compatible b = true → holds b = false → pc.compatible b = true)
    (howns : pc.owns = a.owns) (hholds : holds pc = true) (hcounted : pc.counted = a.counted) :
    Inv { lk := { w.lk with writelock := true }, pc := update w.pc t pc } := by
  have hopen : ∀ t', holds (w.pc t') = false := by
    intro t'
    by_contra hholds
    exact hlock (h.writelock_iff.2 ⟨t', Bool.eq_true_of_not_eq_false hholds⟩)
  have hother := h.other hpc
  subst hpc
  exact h.move (fun t' hne => hcompatible _ (hother t' hne) (hopen t')) (h.lock_keep howns)
    (iff_of_true rfl (Or.inl hholds)) (h.count_keep hcounted rfl)

end

theorem given_iff {p : RwPc → Bool} (hpc : p pc = false) (hother : ∀ t' ≠ t, p (w.pc t') = false) :
    false = true ↔ p pc = true ∨ ∃ t' ≠ t, p (w.pc t') = true := by
  refine iff_of_false Bool.false_ne_true ?_
  rintro (hself | ⟨t', hne, ht'⟩)
  · cases hpc.symm.trans hself
  · cases (hother t' hne).symm.trans ht'

section

variable (h : w.Inv)
include h

theorem Inv.giveLock (hpc : w.pc t = a)
    (hcompatible : ∀ b, a.compatible b = true → pc.compatible b = true ∧ b.owns = false)
    (howns : pc.owns = false) (hholds : holds pc = holds a) (hcounted : pc.counted = a.counted) :
    Inv { lk := { w.lk with lock := false }, pc := update w.pc t pc } := by
  have hother := fun t' hne => hcompatible _ (h.other hpc t' hne)
  subst hpc
  exact h.move (fun t' hne => (hother t' hne).1) (given_iff howns fun t' hne => (hother t' hne).2)
    (h.writelock_keep hholds) (h.count_keep hcounted rfl)

theorem Inv.giveWrite (hpc : w.pc t = a)
    (hcompatible : ∀ b, a.compatible b = true → pc.compatible b = true ∧ holds b = false)
    (howns : pc.owns = a.owns) (hholds : holds pc = false) (hcounted : pc.counted = a.counted) :
    Inv { lk := { w.lk with writelock := false }, pc := update w.pc t pc } := by
  have hother := fun t' hne => hcompatible _ (h.other hpc t' hne)
  subst hpc
  exact h.move (fun t' hne => (hother t' hne).1) (h.lock_keep howns)
    (given_iff hholds fun t' hne => (hother t' hne).2) (h.count_keep hcounted rfl)

theorem Inv.recount {n : Nat} (hpc : w.pc t = a)
    (hcompatible : ∀ b, a.compatible b = true → pc.compatible b = true) (howns : pc.owns = a.owns)
    (hholds : holds pc = holds a)
    (hcount : n = (readers { lk := { w.lk with readers := n }, pc := update w.pc t pc }).ncard) :
    Inv { lk := { w.lk with readers := n }, pc := update w.pc t pc } := by
  have hother := h.other hpc
  subst hpc
  exact h.move (fun t' hne => hcompatible _ (hother t' hne)) (h.lock_keep howns)
    (h.writelock_keep hholds) hcount

theorem Inv.increment (hpc : w.pc t = .rlockCount)
    (hfew : (readers { lk, pc := update w.pc t .rlockTest }).ncard < 2 ^ 16) :
    Inv { lk := { w.lk with readers := (w.lk.readers + 1) % 2 ^ 16 }, pc := update w.pc t .rlockTest } := by
  have hmem : t ∉ w.readers := by
    intro hmem
    have hcounted : (w.pc t).counted = true := hmem
    rw [hpc] at hcounted
    cases hcounted
  have hcard : ∀ lk, (readers { lk, pc := update w.pc t .rlockTest }).ncard = w.lk.readers + 1 := by
    intro lk
    have hcounted : RwPc.counted .rlockTest = true := rfl
    rw [readers_update, if_pos hcounted, Set.ncard_insert_of_notMem hmem h.finite, h.count]
  refine h.recount hpc (by decide) rfl rfl ?_
  rw [hcard] at hfew ⊢
  exact Nat.mod_eq_of_lt hfew

theorem Inv.decrement (hpc : w.pc t = .runlockCount)
    (hfew : (readers { lk, pc := update w.pc t .runlockTest }).ncard < 2 ^ 16) :
    Inv { lk := { w.lk with readers := (w.lk.readers + (2 ^ 16 - 1)) % 2 ^ 16 }
          pc := update w.pc t .runlockTest } := by
  have hmem : t ∈ w.readers := by
    have hcounted : (w.pc t).counted = true := by
      rw [hpc]
      rfl
    exact hcounted
  have hcard : ∀ lk, (readers { lk, pc := update w.pc t .runlockTest }).ncard + 1 = w.lk.readers := by
    intro lk
    have hcounted : ¬RwPc.counted .runlockTest = true := Bool.false_ne_true
    rw [readers_update, if_neg hcounted, h.count]
    exact Set.ncard_sdiff_singleton_add_one hmem h.finite
  refine h.recount hpc (by decide) rfl rfl ?_
  have hone := hcard lk
  have hnew := hcard { w.lk with readers := (w.lk.readers + (2 ^ 16 - 1)) % 2 ^ 16 }
  omega

/-- The first reader goes on to take `writelock`; any other finds that the readers have it. -/
theorem Inv.rlockTest (hpc : w.pc t = .rlockTest)
    (hnext : pc = if w.lk.readers = 1 then .rlockWait else .rlockLeave) :
    Inv { w with pc := update w.pc t pc } := by
  have hother := h.other hpc
  have hcounted : (w.pc t).counted = true := by
    rw [hpc]
    rfl
  split at hnext
  · rename_i hone
    subst hnext
    have hclass : ∀ b : RwPc, RwPc.compatible .rlockTest b = true → b.counted = false →
        RwPc.compatible .rlockWait b = true := by decide
    exact h.quiet hpc (fun t' hne => hclass _ (hother t' hne) (h.others_counted hone hcounted t' hne))
      rfl rfl rfl
  · rename_i hmore
    subst hnext
    obtain ⟨t1, hne1, hcounted1⟩ := h.exists_other_counted hcounted hmore
    have hshares : ∀ b : RwPc, RwPc.compatible .rlockTest b = true → b.counted = true →
        b.shares = true ∧ holds b = true ∧ RwPc.compatible .rlockLeave b = true := by decide
    have hwriter : ∀ b c : RwPc, b.compatible c = true → c.shares = true →
        RwPc.compatible .rlockTest b = true → RwPc.compatible .rlockLeave b = true := by decide
    obtain ⟨hshares1, hholds1, hleave1⟩ := hshares _ (hother t1 hne1) hcounted1
    refine h.move ?_ (h.lock_keep (by rw [hpc]; rfl)) ?_ (h.count_keep (by rw [hpc]; rfl) rfl)
    · intro t' hne
      by_cases heq : t' = t1
      · rw [heq]
        exact hleave1
      · exact hwriter _ _ (h.compatible t' t1 heq) hshares1 (hother t' hne)
    · exact iff_of_true (h.writelock_iff.2 ⟨t1, hholds1⟩) (Or.inl rfl)

/-- The last reader goes on to give `writelock` back; any other leaves it to a reader. -/
theorem Inv.runlockTest (hpc : w.pc t = .runlockTest)
    (hnext : pc = if w.lk.readers = 0 then .runlockOpen else .runlockLeave) :
    Inv { w with pc := update w.pc t pc } := by
  have hother := h.other hpc
  split at hnext
  · rename_i hzero
    subst hnext
    have hclass : ∀ b : RwPc, RwPc.compatible .runlockTest b = true → b.counted = false →
        RwPc.compatible .runlockOpen b = true := by decide
    refine h.quiet hpc (fun t' hne => hclass _ (hother t' hne) ?_) rfl rfl rfl
    rw [h.count, Set.ncard_eq_zero h.finite] at hzero
    exact Bool.eq_false_of_not_eq_true (Set.eq_empty_iff_forall_notMem.1 hzero t')
  · rename_i hsome
    subst hnext
    obtain ⟨t1, hcounted1⟩ := h.exists_counted hsome
    have hne1 : t1 ≠ t := by
      rintro rfl
      rw [hpc] at hcounted1
      cases hcounted1
    have hclass : ∀ b : RwPc, RwPc.compatible .runlockTest b = true →
        RwPc.compatible .runlockLeave b = true := by decide
    have hshares : ∀ b : RwPc, RwPc.compatible .runlockTest b = true → b.counted = true →
        holds b = true := by decide
    have hholds1 := hshares _ (hother t1 hne1) hcounted1
    exact h.move (fun t' hne => hclass _ (hother t' hne)) (h.lock_keep (by rw [hpc]; rfl))
      (iff_of_true (h.writelock_iff.2 ⟨t1, hholds1⟩) (Or.inr ⟨t1, hne1, hholds1⟩))
      (h.count_keep (by rw [hpc]; rfl) rfl)

theorem Inv.next (hnext : (w.pc t).next w.lk = some (lk, pc))
    (hfew : (readers { lk, pc := update w.pc t pc }).ncard < 2 ^ 16) :
    Inv { lk, pc := update w.pc t pc } := by
  obtain ⟨a, hpc⟩ : ∃ a, w.pc t = a := ⟨_, rfl⟩
  rw [hpc] at hnext
  cases a with
  | outside | reading | writing => cases hnext
  | rlockEnter | runlockEnter =>
    rw [RwPc.next] at hnext
    split at hnext
    · cases hnext
    · rename_i hlock
      cases hnext
      exact h.takeLock hpc hlock (by decide) rfl rfl rfl
  | rlockCount =>
    cases hnext
    exact h.increment hpc hfew
  | rlockTest =>
    cases hnext
    exact h.rlockTest hpc rfl
  | rlockWait | wlockWait =>
    rw [RwPc.next] at hnext
    split at hnext
    · cases hnext
    · rename_i hlock
      cases hnext
      exact h.takeWrite hpc hlock (by decide) rfl rfl rfl
  | rlockLeave | runlockLeave =>
    cases hnext
    exact h.giveLock hpc (by decide) rfl rfl rfl
  | runlockCount =>
    cases hnext
    exact h.decrement hpc hfew
  | runlockTest =>
    cases hnext
    exact h.runlockTest hpc rfl
  | runlockOpen | wunlock =>
    cases hnext
    exact h.giveWrite hpc (by decide) rfl rfl rfl

end

theorem readers_start : start.readers = ∅ :=
  Set.eq_empty_of_forall_notMem fun _ => Bool.false_ne_true

theorem inv_start : start.Inv := by
  constructor
  · intro _ _ _
    rfl
  · exact iff_of_false Bool.false_ne_true fun ⟨_, howns⟩ => Bool.false_ne_true howns
  · exact iff_of_false Bool.false_ne_true fun ⟨_, hholds⟩ => Bool.false_ne_true hholds
  · rw [readers_start]
    exact Set.finite_empty
  · rw [readers_start, Set.ncard_empty]
    rfl

theorem RwRun.inv (hrun : RwRun w) : w.Inv := by
  induction hrun with
  | start => exact inv_start
  | step _ hstep hfew ih =>
    cases hstep with
    | call hcall => exact ih.call hcall
    | next hnext => exact ih.next hnext hfew

/-- A thread that has the lock for writing has it alone, and `readers` is the number of threads that
have incremented and not decremented it. -/
theorem rwRun_exclusive (hrun : RwRun w) :
    (∀ t t', (w.pc t).writes = true → t' ≠ t →
      (w.pc t').writes = false ∧ (w.pc t').reads = false) ∧
    w.readers.Finite ∧ w.lk.readers = w.readers.ncard := by
  have hinv := hrun.inv
  refine ⟨?_, hinv.finite, hinv.count⟩
  intro t t' hwrites hne
  have hclass : ∀ a b : RwPc, a.compatible b = true → a.writes = true →
      b.writes = false ∧ b.reads = false := by decide
  exact hclass _ _ (hinv.compatible t t' (Ne.symm hne)) hwrites

theorem few_readers (h : ∀ t, w.pc (t + 2) = .outside) : w.readers.ncard < 2 ^ 16 := by
  have hsub : w.readers ⊆ {0, 1} := by
    intro t ht
    match t, ht with
    | 0, _ => exact Set.mem_insert 0 {1}
    | 1, _ => exact Set.mem_insert_of_mem 0 rfl
    | t + 2, ht =>
      exact absurd ht (by simp [readers, h t, RwPc.counted])
  have hle := Set.ncard_le_ncard hsub (Set.toFinite _)
  rw [Set.ncard_pair (by decide)] at hle
  omega

/-- Thread 1 waits to write while thread 0 reads, and writes when thread 0 has given the lock back. -/
theorem rwRun_exclusive_readerWriter : ∃ w w', RwRun w ∧ (w.pc 0).reads = true ∧
    (w.pc 1).next w.lk = none ∧ w.readers.ncard = 1 ∧
    RwRun w' ∧ (w'.pc 1).writes = true ∧ (w'.pc 0).reads = false := by
  have henter := RwRun.start.step (.call (t := 0) .rlockLock) (few_readers fun _ => rfl)
  have hcount := henter.step (.next (t := 0) rfl) (few_readers fun _ => rfl)
  have htest := hcount.step (.next (t := 0) rfl) (few_readers fun _ => rfl)
  have hwait := htest.step (.next (t := 0) rfl) (few_readers fun _ => rfl)
  have hleave := hwait.step (.next (t := 0) rfl) (few_readers fun _ => rfl)
  have hreading := hleave.step (.next (t := 0) rfl) (few_readers fun _ => rfl)
  have hboth := hreading.step (.call (t := 1) .wlockLock) (few_readers fun _ => rfl)
  have henter' := hboth.step (.call (t := 0) .rlockUnlock) (few_readers fun _ => rfl)
  have hcount' := henter'.step (.next (t := 0) rfl) (few_readers fun _ => rfl)
  have htest' := hcount'.step (.next (t := 0) (show RwPc.next _ .runlockCount =
    some ({ rwlockInit with lock := true, writelock := true }, .runlockTest) from rfl))
    (few_readers fun _ => rfl)
  have hopen := htest'.step (.next (t := 0) rfl) (few_readers fun _ => rfl)
  have hfree := hopen.step (.next (t := 0) rfl) (few_readers fun _ => rfl)
  have hwriting := hfree.step (.next (t := 1) rfl) (few_readers fun _ => rfl)
  exact ⟨_, _, hboth, rfl, rfl, (rwRun_exclusive hboth).2.2.symm, hwriting, rfl,
    ((rwRun_exclusive hwriting).1 1 0 rfl (by decide)).2⟩

end RwWorld

end QuarkOS
