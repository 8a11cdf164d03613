import Mathlib.Data.List.Nodup
import QuarkOS.Task.Tcb

/-!
# Process ids

`alloc_pid` and `free_pid` of `fork.c` with their callers: `kernel_clone`, `task_exit` and the pass of
the cleaner over `finish_list`. The table leads from a process id to a task structure. `alloc_pid`
answers 0 when the table is full, which is the process id of the first task, and `kernel_clone` takes
the answer as it is.

A task is named by the page its structure and its stack are on. The idle tasks, for which `task_exit`
does not return, are not told apart.
-/

namespace QuarkOS

open Function

@[ext]
structure TaskTable where
  /-- `taskMap.map`. -/
  map : Nat → Option Nat
  /-- The task structures in memory. -/
  tcb : Nat → Option Tcb
  /-- `finish_list`. -/
  finish : List Nat
  initTask : Nat

namespace TaskTable

section

variable (s : TaskTable)

def setMap (pid : Nat) (task : Option Nat) : TaskTable :=
  { s with map := update s.map pid task }

def setTcb (task : Nat) (tcb : Option Tcb) : TaskTable :=
  { s with tcb := update s.tcb task tcb }

def read (task : Nat) : Except Fault Tcb :=
  match s.tcb task with
  | some tcb => .ok tcb
  | none => .error .undefined

def allocPid (task : Nat) : Nat × TaskTable :=
  match (List.range taskNum).find? fun i => s.map i = none with
  | some i => (i, s.setMap i (some task))
  | none => (0, s)

def freePid (pid : Nat) : Except Fault TaskTable := do
  assertk (pid ≠ 0 ∧ s.map pid ≠ none)
  .ok (s.setMap pid none)

/-- `task` is what `kmalloc` gives for the structure and the stack. -/
def kernelClone (cur task : Nat) : Except Fault TaskTable := do
  assertk (task ≠ 0)
  let parent ← s.read cur
  let (pid, s) := s.allocPid task
  .ok (s.setTcb task (some
    { pid
      state := .running
      priority := parent.priority
      timerSlice := timeSliceLength }))

def taskExit (cur : Nat) : Except Fault TaskTable := do
  let tcb ← s.read cur
  let s := if cur ≠ s.initTask then { s with finish := cur :: s.finish } else s
  .ok (s.setTcb cur (some { tcb with state := .zombie }))

/-- What the cleaner does with one task of `finish_list`. -/
def cleanTask (task : Nat) : Except Fault TaskTable := do
  let tcb ← s.read task
  assertk (tcb.state = .zombie)
  let s ← s.freePid tcb.pid
  .ok (s.setTcb task none)

/-- One round of the cleaner. -/
def cleanerWorker : Except Fault TaskTable := do
  let s ← s.finish.foldlM cleanTask s
  .ok { s with finish := [] }

end

/-- The table is zeroed before the first task enters itself. -/
def taskInit1 (cur : Nat) : TaskTable :=
  let s : TaskTable :=
    { map := fun _ => none
      tcb := fun _ => none
      finish := []
      initTask := cur }
  let (pid, s) := s.allocPid cur
  s.setTcb cur (some
    { pid
      state := .running
      priority := taskMaxPriority
      timerSlice := timeSliceLength })

inductive TaskOp
  | clone (cur task : Nat)
  | exit (cur : Nat)
  | clean
deriving DecidableEq, Repr

def exec (s : TaskTable) : TaskOp → Except Fault TaskTable
  | .clone cur task => s.kernelClone cur task
  | .exit cur => s.taskExit cur
  | .clean => s.cleanerWorker

def Running (s : TaskTable) (task : Nat) : Prop :=
  ∃ tcb, s.tcb task = some tcb ∧ tcb.state = .running

/-- A running task makes the call, and `kmalloc` gives memory that is not in use. -/
def Enabled (s : TaskTable) : TaskOp → Prop
  | .clone cur task => s.Running cur ∧ s.tcb task = none
  | .exit cur => s.Running cur
  | .clean => True

/-- The tables reached by calls before each of which `C` holds. -/
inductive TaskRun (C : TaskTable → TaskOp → Prop) : TaskTable → Prop
  | start (cur : Nat) : TaskRun C (taskInit1 cur)
  | step {s s' : TaskTable} {op : TaskOp} :
      TaskRun C s → s.Enabled op → C s op → s.exec op = .ok s' → TaskRun C s'

/-- Each task has a place of the table to itself. -/
def Owned (s : TaskTable) : Prop :=
  ∀ task tcb, s.tcb task = some tcb → s.map tcb.pid = some task

structure Wf (s : TaskTable) : Prop where
  owned : s.Owned
  used : ∀ pid task, s.map pid = some task → ∃ tcb, s.tcb task = some tcb ∧ tcb.pid = pid
  init : s.map 0 = some s.initTask
  finished : ∀ task ∈ s.finish, ∃ tcb, s.tcb task = some tcb ∧ tcb.state = .zombie
  nodup : s.finish.Nodup
  init_notMem : s.initTask ∉ s.finish

def HasSlot (s : TaskTable) : Prop := ∃ i < taskNum, s.map i = none

variable {s s' : TaskTable} {cur task pid : Nat} {tcb : Tcb}

@[simp] theorem setTcb_map (s : TaskTable) (task : Nat) (tcb : Option Tcb) :
    (s.setTcb task tcb).map = s.map := rfl

@[simp] theorem setTcb_tcb (s : TaskTable) (task : Nat) (tcb : Option Tcb) :
    (s.setTcb task tcb).tcb = update s.tcb task tcb := rfl

@[simp] theorem setMap_map (s : TaskTable) (pid : Nat) (task : Option Nat) :
    (s.setMap pid task).map = update s.map pid task := rfl

@[simp] theorem setMap_tcb (s : TaskTable) (pid : Nat) (task : Option Nat) :
    (s.setMap pid task).tcb = s.tcb := rfl

theorem read_eq_ok (hread : s.read task = .ok tcb) : s.tcb task = some tcb := by
  rw [read] at hread
  split at hread
  · rename_i htcb
    cases hread
    exact htcb
  · cases hread

theorem read_of_some (htcb : s.tcb task = some tcb) : s.read task = .ok tcb := by
  rw [read, htcb]

theorem Owned.inj {task' : Nat} {tcb' : Tcb} (hown : s.Owned) (htask : s.tcb task = some tcb)
    (htask' : s.tcb task' = some tcb') (hpid : tcb.pid = tcb'.pid) : task = task' := by
  have hslot := hown task tcb htask
  rw [hpid, hown task' tcb' htask'] at hslot
  exact (Option.some.inj hslot).symm

theorem HasSlot.allocPid (hslot : s.HasSlot) (task : Nat) :
    ∃ i, s.map i = none ∧ s.allocPid task = (i, s.setMap i (some task)) := by
  obtain ⟨i, hi, hfree⟩ := hslot
  unfold TaskTable.allocPid
  split
  · rename_i j hfind
    have hpred := List.find?_some hfind
    exact ⟨j, of_decide_eq_true hpred, rfl⟩
  · rename_i hfind
    exact absurd (decide_eq_true hfree) (List.find?_eq_none.1 hfind i (List.mem_range.2 hi))

theorem allocPid_of_full (hfull : ¬s.HasSlot) (task : Nat) : s.allocPid task = (0, s) := by
  have hfind : (List.range taskNum).find? (fun i => decide (s.map i = none)) = none := by
    rw [List.find?_eq_none]
    intro i hi hfree
    exact hfull ⟨i, List.mem_range.1 hi, of_decide_eq_true hfree⟩
  unfold TaskTable.allocPid
  rw [hfind]

theorem allocPid_eq {i : Nat} (hi : i < taskNum) (hfree : s.map i = none)
    (hused : ∀ j < i, s.map j ≠ none) (task : Nat) :
    s.allocPid task = (i, s.setMap i (some task)) := by
  have hfind : (List.range taskNum).find? (fun i => decide (s.map i = none)) = some i := by
    rw [List.find?_range_eq_some]
    refine ⟨decide_eq_true hfree, List.mem_range.2 hi, ?_⟩
    intro j hj
    rw [decide_eq_false (hused j hj)]
    rfl
  unfold TaskTable.allocPid
  rw [hfind]

/-- The first task has process id 0. -/
def firstTcb : Tcb :=
  { pid := 0
    state := .running
    priority := taskMaxPriority
    timerSlice := timeSliceLength }

theorem taskInit1_eq (cur : Nat) : taskInit1 cur =
    { map := update (fun _ => none) 0 (some cur)
      tcb := update (fun _ => none) cur (some firstTcb)
      finish := []
      initTask := cur } := by
  have halloc : TaskTable.allocPid ⟨fun _ => none, fun _ => none, [], cur⟩ cur = (0, _) :=
    allocPid_eq (by decide) rfl (fun j hj => absurd hj (Nat.not_lt_zero j)) cur
  unfold taskInit1
  dsimp only
  rw [halloc]
  rfl

theorem wf_taskInit1 (cur : Nat) : (taskInit1 cur).Wf := by
  rw [taskInit1_eq]
  constructor
  case owned =>
    intro task tcb htcb
    dsimp only at htcb ⊢
    rw [update_apply] at htcb
    split at htcb
    · rename_i heq
      cases htcb
      rw [heq]
      exact update_self ..
    · cases htcb
  case used =>
    intro pid task hmap
    dsimp only at hmap ⊢
    rw [update_apply] at hmap
    split at hmap
    · rename_i heq
      cases hmap
      exact ⟨_, update_self .., heq.symm⟩
    · cases hmap
  case init =>
    dsimp only
    rw [update_self]
  case finished => exact nofun
  case nodup => exact List.nodup_nil
  case init_notMem => exact List.not_mem_nil

theorem kernelClone_of_alloc {parent : Tcb} {s1 : TaskTable} (htask : task ≠ 0)
    (hcur : s.tcb cur = some parent) (halloc : s.allocPid task = (pid, s1)) :
    s.kernelClone cur task = .ok (s1.setTcb task (some
      { pid
        state := .running
        priority := parent.priority
        timerSlice := timeSliceLength })) := by
  rw [kernelClone, assertk_pos htask, read_of_some hcur, ok_bind, halloc]

theorem kernelClone_eq (hslot : s.HasSlot) (hclone : s.kernelClone cur task = .ok s') :
    ∃ i tcb, s.map i = none ∧ tcb.pid = i ∧
      s' = (s.setMap i (some task)).setTcb task (some tcb) := by
  obtain ⟨_, _, hclone⟩ := bind_eq_ok hclone
  obtain ⟨parent, _, hclone⟩ := bind_eq_ok hclone
  obtain ⟨i, hfree, halloc⟩ := hslot.allocPid task
  rw [halloc] at hclone
  cases hclone
  exact ⟨i, _, hfree, rfl, rfl⟩

theorem Wf.clone (hwf : s.Wf) (hnew : s.tcb task = none) (hslot : s.HasSlot)
    (hclone : s.kernelClone cur task = .ok s') : s'.Wf := by
  obtain ⟨i, tcb, hfree, hpid, rfl⟩ := kernelClone_eq hslot hclone
  have hother : ∀ t tcb', s.tcb t = some tcb' → t ≠ task ∧ tcb'.pid ≠ i := by
    intro t tcb' ht
    refine ⟨?_, ?_⟩
    · rintro rfl
      exact absurd (hnew.symm.trans ht) nofun
    · rintro rfl
      exact absurd (hfree.symm.trans (hwf.owned t tcb' ht)) nofun
  constructor
  case owned =>
    intro t tcb' ht
    rw [setTcb_tcb, setMap_tcb, update_apply] at ht
    rw [setTcb_map, setMap_map]
    split at ht
    · rename_i heq
      cases ht
      rw [heq, hpid, update_self]
    · rw [update_of_ne (hother t tcb' ht).2]
      exact hwf.owned t tcb' ht
  case used =>
    intro pid t hmap
    rw [setTcb_map, setMap_map, update_apply] at hmap
    rw [setTcb_tcb, setMap_tcb]
    split at hmap
    · rename_i heq
      cases hmap
      exact ⟨tcb, update_self .., hpid.trans heq.symm⟩
    · obtain ⟨tcb', ht, hpid'⟩ := hwf.used pid t hmap
      exact ⟨tcb', by rw [update_of_ne (hother t tcb' ht).1, ht], hpid'⟩
  case init =>
    rw [setTcb_map, setMap_map, update_of_ne]
    · exact hwf.init
    · rintro rfl
      exact absurd (hfree.symm.trans hwf.init) nofun
  case finished =>
    intro t ht
    obtain ⟨tcb', htcb', hzombie⟩ := hwf.finished t ht
    rw [setTcb_tcb, setMap_tcb]
    exact ⟨tcb', by rw [update_of_ne (hother t tcb' htcb').1, htcb'], hzombie⟩
  case nodup => exact hwf.nodup
  case init_notMem => exact hwf.init_notMem

theorem Wf.zombie (hwf : s.Wf) (htcb : s.tcb cur = some tcb) :
    (s.setTcb cur (some { tcb with state := .zombie })).Wf := by
  constructor
  case owned =>
    intro t tcb' ht
    rw [setTcb_tcb, update_apply] at ht
    split at ht
    · rename_i heq
      cases ht
      rw [heq]
      exact hwf.owned cur tcb htcb
    · exact hwf.owned t tcb' ht
  case used =>
    intro pid t hmap
    obtain ⟨tcb', ht, hpid⟩ := hwf.used pid t hmap
    rw [setTcb_tcb, update_apply]
    split
    · rename_i heq
      subst heq
      cases htcb.symm.trans ht
      exact ⟨_, rfl, hpid⟩
    · exact ⟨tcb', ht, hpid⟩
  case init => exact hwf.init
  case finished =>
    intro t ht
    obtain ⟨tcb', ht', hzombie⟩ := hwf.finished t ht
    rw [setTcb_tcb, update_apply]
    split
    · exact ⟨_, rfl, rfl⟩
    · exact ⟨tcb', ht', hzombie⟩
  case nodup => exact hwf.nodup
  case init_notMem => exact hwf.init_notMem

theorem Wf.exit (hwf : s.Wf) (hrunning : s.Running cur) (hexit : s.taskExit cur = .ok s') : s'.Wf := by
  obtain ⟨tcb, hread, hexit⟩ := bind_eq_ok hexit
  have htcb := read_eq_ok hread
  have hnot : cur ∉ s.finish := by
    intro hmem
    obtain ⟨tcb1, htcb1, hzombie⟩ := hwf.finished cur hmem
    obtain ⟨tcb2, htcb2, hrun⟩ := hrunning
    cases htcb1.symm.trans htcb2
    exact absurd (hzombie.symm.trans hrun) nofun
  have hset := hwf.zombie htcb
  dsimp only at hexit
  split at hexit
  · rename_i hinit
    cases hexit
    refine ⟨hset.owned, hset.used, hset.init, ?_, hwf.nodup.cons hnot, ?_⟩
    · intro t ht
      rcases List.mem_cons.1 ht with heq | ht
      · rw [heq]
        exact ⟨_, update_self .., rfl⟩
      · exact hset.finished t ht
    · exact List.not_mem_cons_of_ne_of_not_mem (Ne.symm hinit) hwf.init_notMem
  · cases hexit
    exact hset

section

variable {rest : List Nat}

theorem Wf.cleanTask (hwf : Wf { s with finish := task :: rest }) : ∃ tcb, s.tcb task = some tcb ∧
      s.cleanTask task = .ok ((s.setMap tcb.pid none).setTcb task none) := by
  obtain ⟨tcb, htcb, hzombie⟩ := hwf.finished task List.mem_cons_self
  dsimp only at htcb
  have hslot : s.map tcb.pid = some task := hwf.owned task tcb htcb
  have hpid : tcb.pid ≠ 0 := by
    intro hzero
    have hinit : s.map 0 = some s.initTask := hwf.init
    rw [hzero, hinit] at hslot
    exact hwf.init_notMem (Option.some.inj hslot ▸ List.mem_cons_self)
  have hcond : tcb.pid ≠ 0 ∧ s.map tcb.pid ≠ none := ⟨hpid, by rw [hslot]; exact nofun⟩
  have hfree : s.freePid tcb.pid = .ok (s.setMap tcb.pid none) := by
    rw [freePid, assertk_pos hcond]
  refine ⟨tcb, htcb, ?_⟩
  rw [TaskTable.cleanTask, read_of_some htcb, ok_bind, assertk_pos hzombie,
    hfree, ok_bind]

theorem Wf.cleaned (hwf : Wf { s with finish := task :: rest }) (htcb : s.tcb task = some tcb) :
    Wf { (s.setMap tcb.pid none).setTcb task none with finish := rest } := by
  have hslot : s.map tcb.pid = some task := hwf.owned task tcb htcb
  have hinit : s.map 0 = some s.initTask := hwf.init
  have hother : ∀ t tcb', s.tcb t = some tcb' → t ≠ task → tcb'.pid ≠ tcb.pid := by
    intro t tcb' ht hne hpid
    exact hne (hwf.owned.inj ht htcb hpid)
  have hkeep : ∀ t, t ≠ task → update s.tcb task none t = s.tcb t :=
    fun t hne => update_of_ne hne ..
  constructor
  case owned =>
    intro t tcb' ht
    dsimp only [setTcb_tcb, setMap_tcb] at ht
    dsimp only [setTcb_map, setMap_map]
    rw [update_apply] at ht
    split at ht
    · cases ht
    · rename_i hne
      rw [update_of_ne (hother t tcb' ht hne)]
      exact hwf.owned t tcb' ht
  case used =>
    intro pid t hmap
    dsimp only [setTcb_map, setMap_map] at hmap
    dsimp only [setTcb_tcb, setMap_tcb]
    rw [update_apply] at hmap
    split at hmap
    · cases hmap
    · rename_i hne
      obtain ⟨tcb', ht, hpid⟩ := hwf.used pid t hmap
      refine ⟨tcb', (hkeep t ?_).trans ht, hpid⟩
      rintro rfl
      cases htcb.symm.trans ht
      exact hne hpid.symm
  case init =>
    refine (update_of_ne ?_ ..).trans hwf.init
    intro hzero
    rw [← hzero, hinit] at hslot
    exact hwf.init_notMem (Option.some.inj hslot ▸ List.mem_cons_self)
  case finished =>
    intro t ht
    obtain ⟨tcb', ht', hzombie⟩ := hwf.finished t (List.mem_cons_of_mem _ ht)
    refine ⟨tcb', (hkeep t ?_).trans ht', hzombie⟩
    rintro rfl
    exact (List.nodup_cons.1 hwf.nodup).1 ht
  case nodup => exact (List.nodup_cons.1 hwf.nodup).2
  case init_notMem => exact fun hmem => hwf.init_notMem (List.mem_cons_of_mem _ hmem)

end

/-- The loop of the cleaner gives back the places of the tasks it passes and no others. -/
theorem Wf.cleanTasks {l : List Nat} (hwf : Wf { s with finish := l }) :
    ∃ s', l.foldlM TaskTable.cleanTask s = .ok s' ∧ Wf { s' with finish := [] } ∧
      ∀ pid, s'.map pid = if ∃ task ∈ l, s.map pid = some task then none else s.map pid := by
  induction l generalizing s with
  | nil => exact ⟨s, rfl, hwf, fun pid => (if_neg (by rintro ⟨_, hmem, _⟩; cases hmem)).symm⟩
  | cons task rest ih =>
    obtain ⟨tcb, htcb, hclean⟩ := hwf.cleanTask
    obtain ⟨s', hloop, hwf', hmap⟩ := ih (hwf.cleaned htcb)
    have hslot : s.map tcb.pid = some task := hwf.owned task tcb htcb
    refine ⟨s', by rw [List.foldlM_cons, hclean, ok_bind, hloop], hwf', ?_⟩
    intro pid
    rw [hmap pid, setTcb_map, setMap_map]
    by_cases hpid : pid = tcb.pid
    · subst hpid
      rw [update_self, ite_self, if_pos ⟨task, List.mem_cons_self, hslot⟩]
    · rw [update_of_ne hpid]
      refine if_congr ⟨?_, ?_⟩ rfl rfl
      · rintro ⟨t, hmem, ht⟩
        exact ⟨t, List.mem_cons_of_mem _ hmem, ht⟩
      · rintro ⟨t, hmem, ht⟩
        rcases List.mem_cons.1 hmem with heq | hmem
        · obtain ⟨tcb', htcb', hpid'⟩ := hwf.used pid t ht
          dsimp only at htcb'
          rw [heq, htcb] at htcb'
          cases htcb'
          exact absurd hpid'.symm hpid
        · exact ⟨t, hmem, ht⟩

theorem Wf.cleanerWorker (hwf : s.Wf) : ∃ s', s.cleanerWorker = .ok s' ∧ s'.Wf ∧
      ∀ pid, s'.map pid = if ∃ task ∈ s.finish, s.map pid = some task then none else s.map pid := by
  obtain ⟨s', hloop, hwf', hmap⟩ := Wf.cleanTasks (s := s) (l := s.finish) hwf
  exact ⟨_, by rw [TaskTable.cleanerWorker, hloop, ok_bind], hwf', hmap⟩

/-- `kernel_clone` is called while the table has a free place. -/
def ClonesWithSlot (s : TaskTable) : TaskOp → Prop
  | .clone _ _ => s.HasSlot
  | _ => True

theorem TaskRun.wf (hrun : TaskRun ClonesWithSlot s) : s.Wf := by
  induction hrun with
  | start cur => exact wf_taskInit1 cur
  | @step s s' op _ henabled hslot hexec ih =>
    cases op with
    | clone cur task => exact ih.clone henabled.2 hslot hexec
    | exit cur => exact ih.exit henabled hexec
    | clean =>
      obtain ⟨s1, hclean, hwf, _⟩ := ih.cleanerWorker
      cases hclean.symm.trans hexec
      exact hwf

/-- As long as `kernel_clone` finds a free place, each task has its place of the table, no two tasks
have one process id, and the cleaner gives back the places of the finished tasks and no others. A
further call of `kernel_clone` keeps this exactly when a place is free. -/
theorem taskRun_pids (hrun : TaskRun ClonesWithSlot s) :
    s.Owned ∧
    (∀ task task' tcb tcb', s.tcb task = some tcb → s.tcb task' = some tcb' →
      tcb.pid = tcb'.pid → task = task') ∧
    (∃ s', s.cleanerWorker = .ok s' ∧ ∀ pid, s'.map pid =
      if ∃ task ∈ s.finish, s.map pid = some task then none else s.map pid) ∧
    ∀ cur task s', s.Enabled (.clone cur task) → s.kernelClone cur task = .ok s' →
      (s'.Owned ↔ s.HasSlot) := by
  have hwf := hrun.wf
  obtain ⟨s1, hclean, _, hmap⟩ := hwf.cleanerWorker
  refine ⟨hwf.owned, fun _ _ _ _ => hwf.owned.inj, ⟨s1, hclean, hmap⟩, ?_⟩
  intro cur task s' henabled hclone
  constructor
  · intro hown
    by_contra hfull
    obtain ⟨_, _, hclone⟩ := bind_eq_ok hclone
    obtain ⟨parent, _, hclone⟩ := bind_eq_ok hclone
    rw [allocPid_of_full hfull] at hclone
    cases hclone
    have hslot : s.map 0 = some task := hown task _ (update_self ..)
    obtain ⟨tcb, htcb, _⟩ := hwf.used 0 task hslot
    exact absurd (henabled.2.symm.trans htcb) nofun
  · intro hslot
    exact (hwf.clone henabled.2 hslot hclone).owned

/-- The table after `n` calls of `kernel_clone` by the first task. -/
def filled (n : Nat) : TaskTable where
  map i := if i ≤ n then some (i + 1) else none
  tcb task := if 0 < task ∧ task ≤ n + 1 then some { firstTcb with pid := task - 1 } else none
  finish := []
  initTask := 1

theorem filled_zero : taskInit1 1 = filled 0 := by
  rw [taskInit1_eq]
  refine TaskTable.ext ?_ ?_ rfl rfl
  · funext i
    dsimp only [filled]
    rw [update_apply]
    by_cases hi : i = 0
    · rw [if_pos hi, if_pos (by omega), hi]
    · rw [if_neg hi, if_neg (by omega)]
  · funext task
    dsimp only [filled]
    rw [update_apply]
    by_cases htask : task = 1
    · rw [if_pos htask, if_pos (by omega), htask]
      rfl
    · rw [if_neg htask, if_neg (by omega)]

theorem filled_map {n i : Nat} (hi : i ≤ n) : (filled n).map i = some (i + 1) := if_pos hi

theorem filled_first (n : Nat) : (filled n).tcb 1 = some firstTcb := by
  have hcond : 0 < 1 ∧ 1 ≤ n + 1 := by omega
  dsimp only [filled]
  rw [if_pos hcond]
  rfl

theorem filled_new (n : Nat) : (filled n).tcb (n + 2) = none := if_neg (by omega)

theorem filled_full {n : Nat} (hn : n + 1 = taskNum) : ¬(filled n).HasSlot := by
  rintro ⟨i, hi, hnone⟩
  exact absurd ((filled_map (by omega)).symm.trans hnone) nofun

theorem filled_succ {n : Nat} (hn : n + 1 < taskNum) :
    (filled n).kernelClone 1 (n + 2) = .ok (filled (n + 1)) := by
  have halloc : (filled n).allocPid (n + 2) = (n + 1, (filled n).setMap (n + 1) (some (n + 2))) := by
    refine allocPid_eq hn (if_neg (by omega)) ?_ _
    intro j hj hnone
    exact absurd ((filled_map (by omega)).symm.trans hnone) nofun
  refine (kernelClone_of_alloc (by omega) (filled_first n) halloc).trans (congrArg Except.ok ?_)
  refine TaskTable.ext ?_ ?_ rfl rfl
  · funext i
    rw [setTcb_map, setMap_map, update_apply]
    dsimp only [filled]
    by_cases hi : i = n + 1
    · rw [if_pos hi, if_pos (by omega), hi]
    · rw [if_neg hi]
      exact if_congr (by omega) rfl rfl
  · funext task
    rw [setTcb_tcb, setMap_tcb, update_apply]
    dsimp only [filled]
    by_cases htask : task = n + 2
    · rw [if_pos htask, if_pos (by omega), htask]
      rfl
    · rw [if_neg htask]
      exact if_congr (by omega) rfl rfl

theorem taskRun_filled {C : TaskTable → TaskOp → Prop} {n : Nat} (hn : n < taskNum)
    (hC : ∀ i < n, C (filled i) (.clone 1 (i + 2))) : TaskRun C (filled n) := by
  induction n with
  | zero =>
    rw [← filled_zero]
    exact .start 1
  | succ n ih =>
    have henabled : (filled n).Enabled (.clone 1 (n + 2)) :=
      ⟨⟨firstTcb, filled_first n, rfl⟩, filled_new n⟩
    exact .step (ih (by omega) fun i hi => hC i (by omega)) henabled (hC n (by omega))
      (filled_succ hn)

/-- Of three tasks the second ends, the cleaner gives its process id back, and the next task gets it. -/
theorem taskRun_pids_reuse : ∃ s s' s'' : TaskTable, TaskRun ClonesWithSlot s ∧ s.finish = [2] ∧
    s.Owned ∧ s.cleanerWorker = .ok s' ∧ s'.map 1 = none ∧ s'.map 2 = some 3 ∧
    s'.kernelClone 1 4 = .ok s'' ∧ s''.map 1 = some 4 ∧ s''.Owned := by
  have hfilled : TaskRun ClonesWithSlot (filled 2) := taskRun_filled (by decide) fun i hi =>
    ⟨i + 1, by rw [taskNum]; omega, if_neg (by omega)⟩
  have hexec : (filled 2).exec (.exit 2) = .ok { (filled 2).setTcb 2 (some
      { firstTcb with pid := 1, state := .zombie }) with finish := [2] } := rfl
  have hexit := hfilled.step (show Enabled _ (.exit 2) from ⟨_, rfl, rfl⟩) trivial hexec
  obtain ⟨hown, _, ⟨s', hclean, hmap⟩, _⟩ := taskRun_pids hexit
  have hone : s'.map 1 = none := (hmap 1).trans (if_pos ⟨2, List.mem_singleton.2 rfl, rfl⟩)
  have hkept : ∀ pid ≠ 1, s'.map pid = (filled 2).map pid := by
    refine fun pid hpid => (hmap pid).trans (if_neg ?_)
    rintro ⟨task, hmem, htask⟩
    obtain rfl := List.mem_singleton.1 hmem
    dsimp only [filled, setTcb] at htask
    split at htask
    · exact hpid (Nat.succ.inj (Option.some.inj htask))
    · cases htask
  have hcleaned : TaskRun ClonesWithSlot s' :=
    .step hexit (show Enabled _ .clean from trivial) trivial hclean
  have hslot : s'.HasSlot := ⟨1, by decide, hone⟩
  have hfirst : s'.tcb 1 = some firstTcb := by
    cases hclean
    rfl
  have hused : ∀ j < 1, s'.map j ≠ none := by
    intro j hj
    rw [hkept j (by omega), filled_map (by omega)]
    nofun
  have hclone := kernelClone_of_alloc (by decide) hfirst (allocPid_eq (by decide) hone hused 4)
  have henabled : s'.Enabled (.clone 1 4) := by
    cases hclean
    exact ⟨⟨firstTcb, rfl, rfl⟩, rfl⟩
  exact ⟨_, s', _, hexit, rfl, hown, hclean, hone, hkept 2 (by decide), hclone, rfl,
    ((taskRun_pids hcleaned).2.2.2 1 4 _ henabled hclone).2 hslot⟩

/-- With 1024 tasks in the table the next one gets the process id of the first, and the cleaner stops
when it comes to that one. -/
theorem taskRun_pids_full : ∃ s s' : TaskTable, ∃ task tcb, TaskRun (fun _ _ => True) s ∧
    s.tcb task = some tcb ∧ s.map tcb.pid ≠ some task ∧
    s.Enabled (.exit task) ∧ s.taskExit task = .ok s' ∧ s'.cleanerWorker = .error .assertk := by
  have hfull := filled_full (n := 1023) rfl
  have hclone : (filled 1023).kernelClone 1 1025 = .ok ((filled 1023).setTcb 1025 (some firstTcb)) :=
    kernelClone_of_alloc (by decide) (filled_first 1023) (allocPid_of_full hfull 1025)
  have henabled : (filled 1023).Enabled (.clone 1 1025) :=
    ⟨⟨firstTcb, filled_first 1023, rfl⟩, filled_new 1023⟩
  have hrun : TaskRun (fun _ _ => True) ((filled 1023).setTcb 1025 (some firstTcb)) :=
    .step (taskRun_filled (by decide) fun _ _ => trivial) henabled trivial hclone
  have hexit : ∃ s' : TaskTable, (do
      let s' ← ((filled 1023).setTcb 1025 (some firstTcb)).taskExit 1025
      assertk (faults s'.cleanerWorker .assertk)
      Except.ok s') = .ok s' := exists_ok (by decide +kernel)
  obtain ⟨_, hexit⟩ := hexit
  obtain ⟨s', hexit, hfault⟩ := bind_eq_ok hexit
  obtain ⟨_, hfault, _⟩ := bind_eq_ok hfault
  have htcb : ((filled 1023).setTcb 1025 (some firstTcb)).tcb 1025 = some firstTcb := by
    rw [setTcb_tcb, update_self]
  exact ⟨_, s', 1025, firstTcb, hrun, htcb, by decide +kernel, ⟨firstTcb, htcb, rfl⟩, hexit,
    eq_error_of_faults (assertk_eq_ok hfault)⟩

end TaskTable

end QuarkOS
