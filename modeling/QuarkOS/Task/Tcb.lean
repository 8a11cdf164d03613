import QuarkOS.Base.Prelude

/-!
# Tasks

The parts of `task.h` that the scheduler, the table of process ids and the sleeping mutex share.
-/

namespace QuarkOS

def taskNum : Nat := 1024

def taskMaxPriority : Nat := 3

/-- In milliseconds. -/
def timeSliceLength : Nat := 100

inductive TaskState
  | running
  | sleeping
  | zombie
deriving DecidableEq, Repr

/-- The fields of `task_struct` that `fork.c` and `schedule.c` decide on. -/
structure Tcb where
  pid : Nat
  state : TaskState
  priority : Nat
  timerSlice : Nat
deriving DecidableEq, Repr

/-- What a pointer to a `list_head_t` of a task list points to. -/
inductive ListNode
  | head
  | task (t : Nat)
deriving DecidableEq, Repr

/-- A head is no `run_list`: the checks of `tcb_entry` fail for it. -/
def tcbEntry : ListNode → Except Fault Nat
  | .head => .error .assertk
  | .task t => .ok t

end QuarkOS
