import Mathlib.Data.Bool.Basic
import QuarkOS.Task.Tcb

/-!
# The sleeping mutex

`thread_mutex.c` with the parts of `task_sleep` and `task_wakeup` it runs through, for any number of
threads and any order of their atomic sections. A thread that finds the mutex taken gives the spin lock
back before it joins the list of sleepers, and `thread_mutex_unlock` passes the head of that list to
`task_wakeup` where a task of the list is meant: `tcb_entry` does not find a task there. The mutex works
as long as it is given back only when no thread waits for it.
-/

namespace QuarkOS

open Function

/-- Where a thread is. `entering` and `testing` say whether it has slept before. -/
inductive MutexPc
  | outside
  /-- In front of `spinlock_lock`. -/
  | entering (woken : Bool)
  /-- At `while (lock->locked)`, with the spin lock. -/
  | testing (woken : Bool)
  /-- In `task_sleep`, after it has given the spin lock back. -/
  | leaving
  /-- In `task_sleep`, on the list of sleepers. -/
  | linked
  /-- In `task_sleep`, `TASK_SLEEPING` is stored. -/
  | asleep
  | holding
  /-- At `assertk(lock->locked)`, with the spin lock. -/
  | unlocking
  /-- In front of `task_wakeup`, with the spin lock. -/
  | waking
deriving DecidableEq, Repr

structure MutexWorld where
  locked : Bool
  /-- The thread that has the spin lock of the mutex. -/
  lock : Option Nat
  sleep : List Nat
  state : Nat → TaskState
  pc : Nat → MutexPc

inductive MutexEvent
  | lock (t : Nat)
  | acquire (t : Nat)
  | test (t : Nat)
  | join (t : Nat)
  | suspend (t : Nat)
  | resume (t : Nat)
  | unlock (t : Nat)
  | release (t : Nat)
  | wake (t : Nat)
deriving DecidableEq, Repr

namespace MutexWorld

def goto (w : MutexWorld) (t : Nat) (pc : MutexPc) : MutexWorld :=
  { w with pc := update w.pc t pc }

def setState (w : MutexWorld) (t : Nat) (state : TaskState) : MutexWorld :=
  { w with state := update w.state t state }

def taskWakeup (w : MutexWorld) (node : ListNode) : Except Fault MutexWorld := do
  let task ← tcbEntry node
  if w.state task ≠ .running then
    .ok { w.setState task .running with sleep := w.sleep.erase task }
  else .ok w

/-- One atomic section; `none` when the thread is not there, or waits for the spin lock. -/
def step (w : MutexWorld) : MutexEvent → Except Fault (Option MutexWorld)
  | .lock t =>
    if w.pc t = .outside then .ok (some (w.goto t (.entering false))) else .ok none
  | .acquire t =>
    match w.pc t, w.lock with
    | .entering woken, none => .ok (some ({ w with lock := some t }.goto t (.testing woken)))
    | _, _ => .ok none
  | .test t =>
    match w.pc t with
    | .testing _ =>
      if w.locked then .ok (some ({ w with lock := none }.goto t .leaving))
      else .ok (some ({ w with locked := true, lock := none }.goto t .holding))
    | _ => .ok none
  | .join t =>
    if w.pc t = .leaving then .ok (some ({ w with sleep := t :: w.sleep }.goto t .linked))
    else .ok none
  | .suspend t =>
    if w.pc t = .linked then .ok (some ((w.setState t .sleeping).goto t .asleep)) else .ok none
  | .resume t =>
    if w.pc t = .asleep ∧ w.state t = .running then .ok (some (w.goto t (.entering true)))
    else .ok none
  | .unlock t =>
    match w.pc t, w.lock with
    | .holding, none => .ok (some ({ w with lock := some t }.goto t .unlocking))
    | _, _ => .ok none
  | .release t =>
    if w.pc t = .unlocking then do
      assertk w.locked
      let w := { w with locked := false }
      if w.sleep = [] then .ok (some ({ w with lock := none }.goto t .outside))
      else .ok (some (w.goto t .waking))
    else .ok none
  | .wake t =>
    if w.pc t = .waking then do
      let w ← w.taskWakeup .head
      .ok (some ({ w with lock := none }.goto t .outside))
    else .ok none

end MutexWorld

/-- The thread has the mutex. -/
def MutexPc.owns : MutexPc → Bool
  | .holding | .unlocking => true
  | _ => false

/-- The thread has found the mutex taken and has not gone on to test it again. -/
def MutexPc.waits : MutexPc → Bool
  | .leaving | .linked | .asleep => true
  | _ => false

/-- The thread has the spin lock. -/
def MutexPc.spins : MutexPc → Bool
  | .testing _ | .unlocking | .waking => true
  | _ => false

/-- The thread has been woken and is on its way to test the mutex again. -/
def MutexWorld.Retries (w : MutexWorld) (t : Nat) : Prop :=
  w.pc t = .entering true ∨ w.pc t = .testing true ∨ w.pc t = .asleep ∧ w.state t = .running

/-- Between `w` and `w'` one thread of the list has become runnable. -/
def WokeOne (w w' : MutexWorld) : Prop :=
  ∃ t ∈ w.sleep, w.state t = .sleeping ∧ w'.state = update w.state t .running

structure MutexOk (w : MutexWorld) : Prop where
  exclusive : ∀ t t', (w.pc t).owns = true → (w.pc t').owns = true → t = t'
  unlock : ∀ t, w.pc t = .unlocking → ∃ w1, w.step (.release t) = .ok (some w1) ∧
    (w.sleep ≠ [] → ∃ w2, w1.step (.wake t) = .ok (some w2) ∧ WokeOne w1 w2)
  noLostWakeup : w.locked = false → ∀ t, w.pc t = .asleep → w.state t = .sleeping →
    ∃ t', w.Retries t'

inductive MutexRun (C : MutexWorld → MutexEvent → Prop) (w0 : MutexWorld) : MutexWorld → Prop
  | start : MutexRun C w0 w0
  | step {w w' : MutexWorld} (hrun : MutexRun C w0 w) (ev : MutexEvent) (hcond : C w ev)
      (hstep : w.step ev = .ok (some w')) : MutexRun C w0 w'

/-- The mutex is given back only when no thread waits for it. -/
def Uncontended (w : MutexWorld) : MutexEvent → Prop
  | .unlock _ => ∀ t, (w.pc t).waits = false
  | _ => True

variable {w w' w0 : MutexWorld} {t t' : Nat} {ev : MutexEvent} {pc : MutexPc}

/-- What a step that is taken does. -/
inductive MutexMove (w : MutexWorld) : MutexEvent → MutexWorld → Prop
  | lock {t : Nat} (hpc : w.pc t = .outside) : MutexMove w (.lock t) (w.goto t (.entering false))
  | acquire {t : Nat} {woken : Bool} (hpc : w.pc t = .entering woken) (hlock : w.lock = none) :
      MutexMove w (.acquire t) ({ w with lock := some t }.goto t (.testing woken))
  | found {t : Nat} {woken : Bool} (hpc : w.pc t = .testing woken) (hlocked : w.locked = true) :
      MutexMove w (.test t) ({ w with lock := none }.goto t .leaving)
  | take {t : Nat} {woken : Bool} (hpc : w.pc t = .testing woken) (hlocked : w.locked = false) :
      MutexMove w (.test t) ({ w with locked := true, lock := none }.goto t .holding)
  | join {t : Nat} (hpc : w.pc t = .leaving) :
      MutexMove w (.join t) ({ w with sleep := t :: w.sleep }.goto t .linked)
  | suspend {t : Nat} (hpc : w.pc t = .linked) :
      MutexMove w (.suspend t) ((w.setState t .sleeping).goto t .asleep)
  | resume {t : Nat} (hpc : w.pc t = .asleep) (hstate : w.state t = .running) :
      MutexMove w (.resume t) (w.goto t (.entering true))
  | unlock {t : Nat} (hpc : w.pc t = .holding) (hlock : w.lock = none) :
      MutexMove w (.unlock t) ({ w with lock := some t }.goto t .unlocking)
  | release {t : Nat} (hpc : w.pc t = .unlocking) (hlocked : w.locked = true)
      (hsleep : w.sleep = []) :
      MutexMove w (.release t) ({ w with locked := false, lock := none }.goto t .outside)
  | waiters {t : Nat} (hpc : w.pc t = .unlocking) (hlocked : w.locked = true)
      (hsleep : w.sleep ≠ []) :
      MutexMove w (.release t) ({ w with locked := false }.goto t .waking)

theorem MutexMove.of_step (h : w.step ev = .ok (some w')) : MutexMove w ev w' := by
  cases ev with
  | lock t =>
    rw [MutexWorld.step] at h
    split at h
    · rename_i hpc
      cases h
      exact .lock hpc
    · cases h
  | acquire t =>
    rw [MutexWorld.step] at h
    split at h
    · rename_i woken hpc hlock
      cases h
      exact .acquire hpc hlock
    · cases h
  | test t =>
    rw [MutexWorld.step] at h
    split at h
    · rename_i woken hpc
      split at h
      · rename_i hlocked
        cases h
        exact .found hpc hlocked
      · rename_i hlocked
        cases h
        exact .take hpc (Bool.eq_false_of_not_eq_true hlocked)
    · cases h
  | join t =>
    rw [MutexWorld.step] at h
    split at h
    · rename_i hpc
      cases h
      exact .join hpc
    · cases h
  | suspend t =>
    rw [MutexWorld.step] at h
    split at h
    · rename_i hpc
      cases h
      exact .suspend hpc
    · cases h
  | resume t =>
    rw [MutexWorld.step] at h
    split at h
    · rename_i hpc
      cases h
      exact .resume hpc.1 hpc.2
    · cases h
  | unlock t =>
    rw [MutexWorld.step] at h
    split at h
    · rename_i hpc hlock
      cases h
      exact .unlock hpc hlock
    · cases h
  | release t =>
    rw [MutexWorld.step] at h
    split at h
    · rename_i hpc
      obtain ⟨_, hlocked, h⟩ := bind_eq_ok h
      dsimp only at h
      split at h
      · rename_i hsleep
        cases h
        exact .release hpc (assertk_eq_ok hlocked) hsleep
      · rename_i hsleep
        cases h
        exact .waiters hpc (assertk_eq_ok hlocked) hsleep
    · cases h
  | wake t =>
    -- `task_wakeup` fails for the head of the list.
    rw [MutexWorld.step] at h
    split at h
    · cases h
    · cases h

@[simp] theorem pc_goto_self : (w.goto t pc).pc t = pc := update_self ..

theorem pc_goto_of_ne (h : t' ≠ t) : (w.goto t pc).pc t' = w.pc t' := update_of_ne h ..

/-! ### Mutual exclusion

The spin lock is with one thread, and the flag `locked` is set exactly while a thread owns the mutex.
This holds in every run. -/

structure MutexInv (w : MutexWorld) : Prop where
  lock_iff : ∀ t, w.lock = some t ↔ (w.pc t).spins = true
  locked_of_owns : ∀ t, (w.pc t).owns = true → w.locked = true
  exclusive : ∀ t t', (w.pc t).owns = true → (w.pc t').owns = true → t = t'

namespace MutexInv

section

variable (h : MutexInv w)
include h

theorem others (howns : (w.pc t).owns = true) : ∀ t' ≠ t, (w.pc t').owns = false := by
  intro t' ht
  by_contra howns'
  exact ht (h.exclusive t' t (Bool.eq_true_of_not_eq_false howns') howns)

/-- One thread moves. -/
theorem move (hpc : w'.pc = update w.pc t pc) (hself : w'.lock = some t ↔ pc.spins = true)
    (hother : ∀ t' ≠ t, w'.lock = some t' ↔ w.lock = some t')
    (howns : pc.owns = true → w'.locked = true ∧ ∀ t' ≠ t, (w.pc t').owns = false)
    (hlocked : ∀ t' ≠ t, (w.pc t').owns = true → w'.locked = true) : MutexInv w' := by
  have hpcSelf : w'.pc t = pc := by rw [hpc, update_self]
  have hpcOther : ∀ t' ≠ t, w'.pc t' = w.pc t' := fun t' ht => by rw [hpc, update_of_ne ht]
  refine ⟨fun t' => ?_, fun t' ht' => ?_, fun t1 t2 h1 h2 => ?_⟩
  · by_cases ht : t' = t
    · rw [ht, hpcSelf]
      exact hself
    · rw [hpcOther t' ht, hother t' ht]
      exact h.lock_iff t'
  · by_cases ht : t' = t
    · rw [ht, hpcSelf] at ht'
      exact (howns ht').1
    · rw [hpcOther t' ht] at ht'
      exact hlocked t' ht ht'
  · have hsole : ∀ t' ≠ t, (w'.pc t').owns = true → pc.owns = true → False := by
      intro t' ht ht' hp
      rw [hpcOther t' ht, (howns hp).2 t' ht] at ht'
      cases ht'
    by_cases ht1 : t1 = t <;> by_cases ht2 : t2 = t
    · rw [ht1, ht2]
    · rw [ht1, hpcSelf] at h1
      exact (hsole t2 ht2 h2 h1).elim
    · rw [ht2, hpcSelf] at h2
      exact (hsole t1 ht1 h1 h2).elim
    · rw [hpcOther t1 ht1] at h1
      rw [hpcOther t2 ht2] at h2
      exact h.exclusive t1 t2 h1 h2

theorem keep (hpc : w'.pc = update w.pc t pc) (hlock : w'.lock = w.lock)
    (hlocked : w'.locked = w.locked) (hspins : pc.spins = (w.pc t).spins) (howns : pc.owns = (w.pc t).owns) :
    MutexInv w' := by
  refine h.move hpc ?_ (fun t' _ => by rw [hlock]) (fun hp => ?_) fun t' _ ht' => ?_
  · rw [hlock, hspins]
    exact h.lock_iff t
  · rw [howns] at hp
    exact ⟨hlocked.trans (h.locked_of_owns t hp), h.others hp⟩
  · exact hlocked.trans (h.locked_of_owns t' ht')

theorem acquire (hlock : w.lock = none) (hspins : pc.spins = true)
    (howns : pc.owns = (w.pc t).owns) : MutexInv ({ w with lock := some t }.goto t pc) := by
  refine h.move rfl (iff_of_true rfl hspins) (fun t' ht => ?_) (fun hp => ?_) fun t' _ => h.locked_of_owns t'
  · rw [hlock]
    exact iff_of_false (fun heq => ht (Option.some.inj heq).symm) nofun
  · rw [howns] at hp
    exact ⟨h.locked_of_owns t hp, h.others hp⟩

theorem giveBack {locked : Bool} (hspins : (w.pc t).spins = true)
    (hpc : pc.spins = false) (howns : pc.owns = true → locked = true ∧ ∀ t' ≠ t, (w.pc t').owns = false)
    (hothers : ∀ t' ≠ t, (w.pc t').owns = true → locked = true) :
    MutexInv ({ w with locked, lock := none }.goto t pc) := by
  have hlock := (h.lock_iff t).2 hspins
  refine h.move rfl ?_ (fun t' ht => ?_) howns hothers
  · rw [hpc]
    exact iff_of_false nofun nofun
  · exact iff_of_false nofun fun heq => ht (Option.some.inj (heq.symm.trans hlock))

theorem step (hmove : MutexMove w ev w') : MutexInv w' := by
  cases hmove with
  | lock hpc | join hpc | suspend hpc | resume hpc =>
    exact h.keep rfl rfl rfl (by rw [hpc]; rfl) (by rw [hpc]; rfl)
  | acquire hpc hlock | unlock hpc hlock => exact h.acquire hlock rfl (by rw [hpc]; rfl)
  | found hpc hlocked =>
    exact h.giveBack (by rw [hpc]; rfl) rfl nofun fun _ _ _ => hlocked
  | take hpc hlocked =>
    refine h.giveBack (by rw [hpc]; rfl) rfl (fun _ => ⟨rfl, fun t' _ => ?_⟩) fun _ _ _ => rfl
    by_contra howns
    rw [h.locked_of_owns t' (Bool.eq_true_of_not_eq_false howns)] at hlocked
    cases hlocked
  | release hpc hlocked hsleep =>
    rename_i t
    refine h.giveBack (by rw [hpc]; rfl) rfl nofun fun t' ht' howns => ?_
    exact absurd (h.exclusive t' t howns (by rw [hpc]; rfl)) ht'
  | waiters hpc hlocked hsleep =>
    rename_i t
    refine h.move rfl ?_ (fun _ _ => Iff.rfl) nofun fun t' ht' howns => ?_
    · exact (h.lock_iff t).trans (by rw [hpc]; rfl)
    · exact absurd (h.exclusive t' t howns (by rw [hpc]; rfl)) ht'

end

end MutexInv

/-- The mutex is free and no thread is about to use it. -/
structure MutexStart (w : MutexWorld) : Prop where
  unlocked : w.locked = false
  free : w.lock = none
  sleep : w.sleep = []
  outside : ∀ t, w.pc t = .outside

theorem MutexStart.inv (h : MutexStart w) : MutexInv w := by
  refine ⟨fun t => ?_, fun t ht => ?_, fun t t' ht => ?_⟩
  · rw [h.free, h.outside t]
    exact iff_of_false nofun nofun
  · rw [h.outside t] at ht
    cases ht
  · rw [h.outside t] at ht
    cases ht

/-- Threads wait only while the mutex is taken, and not while it is given back. -/
structure Calm (w : MutexWorld) : Prop extends MutexInv w where
  mem_sleep : ∀ t, t ∈ w.sleep → (w.pc t).waits = true
  locked_of_waits : ∀ t, (w.pc t).waits = true → w.locked = true
  unlocking : ∀ t, w.pc t = .unlocking → ∀ t', (w.pc t').waits = false
  sleeping : ∀ t, w.pc t = .asleep → w.state t = .sleeping

namespace Calm

theorem sleep_eq_nil (h : Calm w) (hcalm : ∀ t, (w.pc t).waits = false) : w.sleep = [] := by
  apply List.eq_nil_iff_forall_not_mem.2
  intro t ht
  have := h.mem_sleep t ht
  rw [hcalm t] at this
  cases this

theorem goto (h : Calm w) (hinv : MutexInv w') (hsleep : w'.sleep = w.sleep)
    (hlocked : w'.locked = w.locked) (hwaits : ∀ t, (w'.pc t).waits = (w.pc t).waits)
    (hunlocking : ∀ t, w'.pc t = .unlocking → ∀ t', (w.pc t').waits = false)
    (hsleeping : ∀ t, w'.pc t = .asleep → w'.state t = .sleeping) : Calm w' where
  toMutexInv := hinv
  mem_sleep := by
    intro t ht
    rw [hwaits]
    exact h.mem_sleep t (hsleep ▸ ht)
  locked_of_waits := by
    intro t ht
    rw [hwaits] at ht
    rw [hlocked]
    exact h.locked_of_waits t ht
  unlocking := by
    intro t ht t'
    rw [hwaits]
    exact hunlocking t ht t'
  sleeping := hsleeping

theorem waits_goto (hwaits : pc.waits = (w.pc t).waits) (t' : Nat) :
    ((w.goto t pc).pc t').waits = (w.pc t').waits := by
  by_cases ht : t' = t
  · subst ht
    rw [pc_goto_self]
    exact hwaits
  · rw [pc_goto_of_ne ht]

theorem unlocking_goto (h : Calm w) (hpc : pc ≠ .unlocking) (t1 : Nat)
    (ht1 : (w.goto t pc).pc t1 = .unlocking) : ∀ t', (w.pc t').waits = false := by
  by_cases ht : t1 = t
  · subst ht
    rw [pc_goto_self] at ht1
    exact absurd ht1 hpc
  · rw [pc_goto_of_ne ht] at ht1
    exact h.unlocking t1 ht1

theorem sleeping_goto (h : Calm w) (hpc : pc ≠ .asleep) (t1 : Nat)
    (ht1 : (w.goto t pc).pc t1 = .asleep) : w.state t1 = .sleeping := by
  by_cases ht : t1 = t
  · subst ht
    rw [pc_goto_self] at ht1
    exact absurd ht1 hpc
  · rw [pc_goto_of_ne ht] at ht1
    exact h.sleeping t1 ht1

theorem step (h : Calm w) (hcond : Uncontended w ev) (hmove : MutexMove w ev w') : Calm w' := by
  have hinv := h.toMutexInv.step hmove
  cases hmove with
  | lock hpc | acquire hpc =>
    exact h.goto hinv rfl rfl (waits_goto (by rw [hpc]; rfl)) (h.unlocking_goto nofun)
      (h.sleeping_goto nofun)
  | found hpc hlocked =>
    -- The thread has the spin lock, so no other one is in `thread_mutex_unlock`.
    rename_i t woken
    have hspins := (h.lock_iff t).2 (by rw [hpc]; rfl)
    have hunlocking : ∀ t', w.pc t' ≠ .unlocking := by
      intro t' ht'
      have := (h.lock_iff t').2 (by rw [ht']; rfl)
      rw [Option.some.inj (this.symm.trans hspins), hpc] at ht'
      cases ht'
    refine ⟨hinv, fun t' ht' => ?_, fun _ _ => hlocked, fun t' ht' => ?_, h.sleeping_goto nofun⟩
    · by_cases ht : t' = t
      · rw [ht, pc_goto_self]
        rfl
      · rw [pc_goto_of_ne ht]
        exact h.mem_sleep t' ht'
    · by_cases ht : t' = t
      · rw [ht, pc_goto_self] at ht'
        cases ht'
      · rw [pc_goto_of_ne ht] at ht'
        exact absurd ht' (hunlocking t')
  | take hpc hlocked =>
    have hcalm : ∀ t', (w.pc t').waits = false := by
      intro t'
      by_contra hwaits
      rw [h.locked_of_waits t' (Bool.eq_true_of_not_eq_false hwaits)] at hlocked
      cases hlocked
    refine ⟨hinv, fun t' ht' => ?_, fun _ _ => rfl, fun t' ht' => ?_, h.sleeping_goto nofun⟩
    · change t' ∈ w.sleep at ht'
      rw [h.sleep_eq_nil hcalm] at ht'
      exact absurd ht' List.not_mem_nil
    · intro t1
      rw [waits_goto (by rw [hpc]; rfl)]
      exact hcalm t1
  | join hpc =>
    rename_i t
    have hsame : ∀ t', ((({ w with sleep := t :: w.sleep } : MutexWorld).goto t .linked).pc t').waits =
        (w.pc t').waits :=
      waits_goto (by rw [hpc]; rfl)
    refine ⟨hinv, fun t' ht' => ?_, fun t' ht' => ?_, fun t' ht' t1 => ?_,
      h.sleeping_goto (show MutexPc.linked ≠ .asleep from nofun)⟩
    · rw [hsame]
      rcases List.mem_cons.1 ht' with rfl | hold
      · rw [hpc]
        rfl
      · exact h.mem_sleep t' hold
    · rw [hsame] at ht'
      exact h.locked_of_waits t' ht'
    · rw [hsame]
      exact h.unlocking_goto (show MutexPc.linked ≠ .unlocking from nofun) t' ht' t1
  | suspend hpc =>
    rename_i t
    refine h.goto hinv rfl rfl (waits_goto (w := w.setState t .sleeping) ?_)
      (h.unlocking_goto (show MutexPc.asleep ≠ .unlocking from nofun)) fun t' ht' => ?_
    · change _ = (w.pc t).waits
      rw [hpc]
      rfl
    · change update w.state t .sleeping t' = .sleeping
      by_cases ht : t' = t
      · rw [ht, update_self]
      · rw [pc_goto_of_ne ht] at ht'
        rw [update_of_ne ht]
        exact h.sleeping t' ht'
  | resume hpc hstate =>
    -- Nothing wakes a thread that sleeps on the mutex.
    rw [h.sleeping _ hpc] at hstate
    cases hstate
  | unlock hpc hlock =>
    exact h.goto hinv rfl rfl (waits_goto (by rw [hpc]; rfl)) (fun _ _ => hcond)
      (h.sleeping_goto nofun)
  | release hpc hlocked hsleep =>
    rename_i t
    have hcalm : ∀ t', (({ w with locked := false, lock := none }.goto t .outside).pc t').waits =
        false := by
      intro t'
      rw [waits_goto (by rw [hpc]; rfl)]
      exact h.unlocking t hpc t'
    refine ⟨hinv, fun t' ht' => ?_, fun t' ht' => ?_, fun _ _ => hcalm, h.sleeping_goto nofun⟩
    · change t' ∈ w.sleep at ht'
      rw [hsleep] at ht'
      exact absurd ht' List.not_mem_nil
    · rw [hcalm t'] at ht'
      cases ht'
  | waiters hpc hlocked hsleep =>
    rename_i t
    exact absurd (h.sleep_eq_nil (h.unlocking t hpc)) hsleep

end Calm

theorem MutexStart.calm (h : MutexStart w) : Calm w where
  toMutexInv := h.inv
  mem_sleep := by
    rw [h.sleep]
    exact fun _ ht => absurd ht List.not_mem_nil
  locked_of_waits := by
    intro t ht
    rw [h.outside t] at ht
    cases ht
  unlocking := by
    intro t ht
    rw [h.outside t] at ht
    cases ht
  sleeping := by
    intro t ht
    rw [h.outside t] at ht
    cases ht

theorem Calm.mutexOk (h : Calm w) : MutexOk w where
  exclusive := h.exclusive
  unlock := by
    intro t ht
    have hsleep := h.sleep_eq_nil (h.unlocking t ht)
    refine ⟨{ w with locked := false, lock := none }.goto t .outside, ?_, fun hne => absurd hsleep hne⟩
    rw [MutexWorld.step, if_pos ht, h.locked_of_owns t (by rw [ht]; rfl), assertk_true, ok_bind]
    exact if_pos hsleep
  noLostWakeup := by
    intro hlocked t ht
    rw [h.locked_of_waits t (by rw [ht]; rfl)] at hlocked
    cases hlocked

/-- The mutex works in every run where it is given back only when no thread waits for it. -/
theorem mutexRun_mutexOk (hstart : MutexStart w0) (hrun : MutexRun Uncontended w0 w) : MutexOk w := by
  have hcalm : Calm w := by
    induction hrun with
    | start => exact hstart.calm
    | step _ ev hcond hstep ih => exact ih.step hcond (.of_step hstep)
  exact hcalm.mutexOk

def freeMutex : MutexWorld where
  locked := false
  lock := none
  sleep := []
  state := fun _ => .running
  pc := fun _ => .outside

theorem freeMutex_start : MutexStart freeMutex := ⟨rfl, rfl, rfl, fun _ => rfl⟩

/-- Thread 1 waits for the spin lock while thread 0 takes the mutex and gives it back; then thread 1
has the mutex and thread 0 sleeps. -/
theorem mutexRun_mutexOk_twoThreads : ∃ w, MutexRun Uncontended freeMutex w ∧ w.locked = true ∧
    w.pc 1 = .holding ∧ w.pc 0 = .asleep ∧ w.sleep = [0] ∧ w.state 0 = .sleeping ∧ MutexOk w := by
  have hstart : MutexRun Uncontended freeMutex freeMutex := .start
  have hlock := (hstart.step (.lock 0) trivial rfl).step (.acquire 0) trivial rfl
  have htaken := (hlock.step (.lock 1) trivial rfl).step (.test 0) trivial rfl
  have hunlock := htaken.step (.unlock 0)
    (fun t => match t with | 0 => rfl | 1 => rfl | _ + 2 => rfl) rfl
  have hreleased := hunlock.step (.release 0) trivial rfl
  have hsecond := (hreleased.step (.acquire 1) trivial rfl).step (.test 1) trivial rfl
  have hagain := (hsecond.step (.lock 0) trivial rfl).step (.acquire 0) trivial rfl
  have hjoined := (hagain.step (.test 0) trivial rfl).step (.join 0) trivial rfl
  have hrun := hjoined.step (.suspend 0) trivial rfl
  exact ⟨_, hrun, rfl, rfl, rfl, rfl, rfl, mutexRun_mutexOk freeMutex_start hrun⟩

/-- With a sleeper, `thread_mutex_unlock` fails in `task_wakeup`. With a thread that has given the spin
lock back and has not joined the list, it wakes nobody, and that thread sleeps on a free mutex. -/
theorem contended_not_mutexOk :
    (∃ w w1, MutexRun (fun _ _ => True) freeMutex w ∧ w.step (.release 0) = .ok (some w1) ∧
      w1.step (.wake 0) = .error .assertk ∧ ¬ MutexOk w) ∧
    ∃ w, MutexRun (fun _ _ => True) freeMutex w ∧ w.locked = false ∧ w.sleep = [1] ∧
      w.state 1 = .sleeping ∧ ¬ MutexOk w := by
  have hstart : MutexRun (fun _ _ => True) freeMutex freeMutex := .start
  have hlock := hstart.step (.lock 0) trivial rfl
  have htaken := (hlock.step (.acquire 0) trivial rfl).step (.test 0) trivial rfl
  have hsecond := (htaken.step (.lock 1) trivial rfl).step (.acquire 1) trivial rfl
  have hleaving := hsecond.step (.test 1) trivial rfl
  constructor
  · have hasleep := (hleaving.step (.join 1) trivial rfl).step (.suspend 1) trivial rfl
    have hunlocking := hasleep.step (.unlock 0) trivial rfl
    refine ⟨_, _, hunlocking, rfl, rfl, fun hok => ?_⟩
    obtain ⟨w1, hrelease, hwake⟩ := hok.unlock 0 rfl
    cases hrelease
    obtain ⟨w2, hwake, _⟩ := hwake nofun
    cases hwake
  · have hreleased := (hleaving.step (.unlock 0) trivial rfl).step (.release 0) trivial rfl
    have hasleep := (hreleased.step (.join 1) trivial rfl).step (.suspend 1) trivial rfl
    refine ⟨_, hasleep, rfl, rfl, rfl, fun hok => ?_⟩
    obtain ⟨t, hretries⟩ := hok.noLostWakeup rfl 1 rfl rfl
    match t, hretries with
    | 0, hretries => rcases hretries with h | h | h <;> cases h; contradiction
    | 1, hretries => rcases hretries with h | h | h <;> cases h; contradiction
    | _ + 2, hretries => rcases hretries with h | h | h <;> cases h; contradiction

end QuarkOS
