import Mathlib.Data.List.Perm.Subperm
import QuarkOS.Lib.Splice
import QuarkOS.Task.Tcb

/-!
# The scheduler

`schedule.c`, with `task_sleep` and `task_wakeup` of `fork.c`, over the pointers of the lists: four ready
queues, the list of blocked tasks and the list of armed timers are circular lists through nodes that
stand in the tasks and the timers. `reset_priority` splices the lower queues to the top one by raw writes,
with the end of the top queue left open in between.
-/

namespace QuarkOS

open CList Function

/-- What a `list_head_t` of the scheduler is part of. -/
inductive TaskNode
  /-- `scheduler.queue[i]`. -/
  | queue (i : Nat)
  | blockList
  /-- The header of `timer_pool`. -/
  | timerHead
  /-- The `run_list` of a task. -/
  | run (task : Nat)
  /-- The `head` of a timer. -/
  | timer (k : Nat)
deriving DecidableEq, Repr

structure Timer where
  /-- The `run_list` of the task that sleeps. -/
  thread : TaskNode
  time : Nat
deriving DecidableEq, Repr

structure Sched where
  links : Links TaskNode
  /-- The tasks that exist. -/
  tasks : List Nat
  tcb : Nat → Tcb
  /-- The task that runs on a CPU. -/
  cur : Nat → Nat
  idle : Nat → Nat
  updatePriorityTime : Nat
  /-- Milliseconds since the start. -/
  gTick : Nat
  timer : Nat → Timer
  /-- The array of `timer_pool`, by the numbers of the timers. -/
  pool : Nat → Nat
  top : Nat

namespace Sched

/-- `tcb_entry` with its checks. -/
def taskEntry : TaskNode → Except Fault Nat
  | .run task => .ok task
  | _ => .error .assertk

section

variable (s : Sched)

def setTcb (task : Nat) (tcb : Tcb) : Sched := { s with tcb := update s.tcb task tcb }

def schedTaskAdd (task : Nat) : Sched :=
  { s with links := listAddPrev s.links (.run task) (.queue (s.tcb task).priority) }

/-- The variables of the first loop; `last` is `tail1`, where `none` is `NULL`. -/
structure Boost where
  links : Links TaskNode
  tail : TaskNode
  last : Option TaskNode

def spliceQueue (b : Boost) (i : Nat) : Boost :=
  if listEmpty b.links (b.links.next (.queue i)) then b
  else
    let hdr1 := b.links.next (.queue i)
    let tail1 := b.links.prev (.queue i)
    let links := b.links.setPrev hdr1 b.tail
    let links := links.setNext b.tail hdr1
    { links := listHeaderInit links (.queue i), tail := tail1, last := some tail1 }

/-- The second loop, backwards from the end of the top queue. -/
def raiseLoop (links : Links TaskNode) : Nat → TaskNode → (Nat → Tcb) → Except Fault (Nat → Tcb)
  | 0, _, _ => .error .spin
  | fuel + 1, hdr, tcb =>
    if hdr = .queue taskMaxPriority then .ok tcb
    else do
      let task ← taskEntry hdr
      if (tcb task).priority = taskMaxPriority then .ok tcb
      else
        raiseLoop links fuel (links.prev hdr)
          (update tcb task { tcb task with priority := taskMaxPriority })

/-- A task that the second loop comes back to has the top priority, so that it passes each task that
exists at most once. -/
def resetPriority : Except Fault Sched := do
  let hdr := TaskNode.queue taskMaxPriority
  let b := (List.range taskMaxPriority).reverse.foldl spliceQueue
    { links := s.links, tail := s.links.prev hdr, last := none }
  let links :=
    match b.last with
    | some tail1 => (b.links.setNext tail1 hdr).setPrev hdr tail1
    | none => b.links
  let tcb ← raiseLoop links (s.tasks.length + 1) (links.prev hdr) s.tcb
  .ok { s with links, tcb }

/-- The task that runs next is taken out of its queue. -/
def choseNextTask (cpu : Nat) : TaskNode × Sched :=
  match (List.range (taskMaxPriority + 1)).reverse.find? fun i => !listEmpty s.links (.queue i) with
  | some i =>
    let first := s.links.next (.queue i)
    (first, { s with links := listDel s.links first })
  | none => (.run (s.idle cpu), s)

/-- What `schedule` does with a task that is not the idle one and has to make way. -/
def putBack (task : Nat) : Sched :=
  let tcb := s.tcb task
  let tcb :=
    if tcb.priority ≠ 0 then
      if tcb.timerSlice = 0 then
        { tcb with timerSlice := timeSliceLength, priority := tcb.priority - 1 }
      else tcb
    else { tcb with timerSlice := timeSliceLength }
  let s := s.setTcb task tcb
  if tcb.state = .running then s.schedTaskAdd task else s

/-- `schedule` starts with the priorities, every two seconds. -/
def raiseDue : Except Fault Sched := do
  if s.updatePriorityTime ≤ s.gTick then
    let s ← s.resetPriority
    .ok { s with updatePriorityTime := (s.gTick + 2 * 1000) % 2 ^ 64 }
  else .ok s

/-- `schedule` from the choice of `next` on. -/
def switchNext (cpu : Nat) (next : TaskNode) : Except Fault Sched := do
  if next = .run (s.idle cpu) ∧ s.cur cpu = s.idle cpu then .ok s
  else
    let s := if s.cur cpu ≠ s.idle cpu then s.putBack (s.cur cpu) else s
    let nextTask ← taskEntry next
    assertk ((s.tcb nextTask).state = .running)
    .ok { s with cur := update s.cur cpu nextTask }

def schedule (cpu : Nat) : Except Fault Sched := do
  let s ← s.raiseDue
  let (next, s) := s.choseNextTask cpu
  s.switchNext cpu next

def setState (task : Nat) (state : TaskState) : Sched := s.setTcb task { s.tcb task with state }

/-- The first part of `task_sleep`, for the list of all blocked tasks. -/
def joinBlock (task : Nat) : Sched := { s with links := listAddNext s.links (.run task) .blockList }

def taskSleep (cpu : Nat) : Except Fault Sched :=
  ((s.joinBlock (s.cur cpu)).setState (s.cur cpu) .sleeping).schedule cpu

def taskWakeup (node : TaskNode) : Except Fault Sched := do
  let task ← taskEntry node
  if (s.tcb task).state ≠ .running then
    let s := s.setState task .running
    let s := { s with links := listDel s.links (.run task) }
    .ok (s.schedTaskAdd task)
  else .ok s

end

end Sched

/-- The tasks and timers in each list. -/
structure TaskLists where
  ready : Nat → List Nat
  block : List Nat
  armed : List Nat

namespace TaskLists

def nodes (v : TaskLists) : TaskNode → List TaskNode
  | .queue i => (v.ready i).map .run
  | .blockList => v.block.map .run
  | .timerHead => v.armed.map .timer
  | _ => []

def setReady (v : TaskLists) (i : Nat) (l : List Nat) : TaskLists :=
  { v with ready := update v.ready i l }

def Ready (v : TaskLists) (t : Nat) : Prop := ∃ i ≤ taskMaxPriority, t ∈ v.ready i

theorem nodes_setReady (v : TaskLists) (i : Nat) (l : List Nat) :
    (v.setReady i l).nodes = update v.nodes (.queue i) (l.map .run) := by
  funext a
  rw [update_apply]
  split
  · rename_i heq
    rw [heq]
    exact congrArg (List.map TaskNode.run) (update_self ..)
  · rename_i hne
    cases a with
    | queue j =>
      have hji : j ≠ i := fun heq => hne (congrArg TaskNode.queue heq)
      exact congrArg (List.map TaskNode.run) (update_of_ne hji ..)
    | _ => rfl

theorem nodes_setBlock (v : TaskLists) (l : List Nat) :
    { v with block := l }.nodes = update v.nodes .blockList (l.map .run) := by
  funext a
  rw [update_apply]
  cases a <;> rfl

theorem nodes_setArmed (v : TaskLists) (l : List Nat) :
    { v with armed := l }.nodes = update v.nodes .timerHead (l.map .timer) := by
  funext a
  rw [update_apply]
  cases a <;> rfl

end TaskLists

namespace Sched

def queues : Set TaskNode := {a | ∃ i ≤ taskMaxPriority, a = .queue i}

/-- What the first loop of `reset_priority` does to the lists. -/
def boosted (L : TaskNode → List TaskNode) : TaskNode → List TaskNode :=
  (List.range taskMaxPriority).reverse.foldl
    (fun L i => spliced L (.queue taskMaxPriority) (.queue i)) L

variable {s : Sched} {H : Set TaskNode} {L : TaskNode → List TaskNode} {b : Boost} {i : Nat}

/-- The state of the first loop: nothing was moved yet, or the top queue is open at `tail`. -/
structure Boosting (H : Set TaskNode) (L : TaskNode → List TaskNode) (b : Boost) : Prop where
  tail : b.tail = (L (.queue taskMaxPriority)).getLastD (.queue taskMaxPriority)
  lists : b.last = none ∧ Lists b.links H L ∨
    b.last = some b.tail ∧ OpenLists b.links H L (.queue taskMaxPriority)

theorem Boosting.open (hb : Boosting H L b) (htop : .queue taskMaxPriority ∈ H) :
    OpenLists b.links H L (.queue taskMaxPriority) := by
  rcases hb.lists with ⟨_, hL⟩ | ⟨_, hL⟩
  · exact hL.openAt htop
  · exact hL

theorem Boosting.splice (hb : Boosting H L b) (htop : .queue taskMaxPriority ∈ H)
    (hi : .queue i ∈ H) (hlt : i < taskMaxPriority) :
    Boosting H (spliced L (.queue taskMaxPriority) (.queue i)) (spliceQueue b i) := by
  have hne : TaskNode.queue i ≠ .queue taskMaxPriority := by
    intro heq
    cases heq
    exact lt_irrefl _ hlt
  have hopen := hb.open htop
  have hlinked := hopen.linked _ hi hne
  by_cases hnil : L (.queue i) = []
  · rw [spliced_of_nil hnil, spliceQueue, if_pos (hlinked.listEmpty_next_iff.2 hnil)]
    exact hb
  · rw [spliceQueue, if_neg (fun hempty => hnil (hlinked.listEmpty_next_iff.1 hempty))]
    have hlast : b.links.prev (.queue i) =
        (spliced L (.queue taskMaxPriority) (.queue i) (.queue taskMaxPriority)).getLastD
          (.queue taskMaxPriority) := by
      rw [hlinked.prev_head, spliced_top hne, getLastD_append hnil]
    refine ⟨hlast, Or.inr ⟨rfl, ?_⟩⟩
    have hsplice := hopen.splice htop hi hne hnil
    rw [← hb.tail] at hsplice
    exact hsplice

theorem Boosting.foldl {is : List Nat} (hb : Boosting H L b) (hqueues : queues ⊆ H)
    (his : ∀ i ∈ is, i < taskMaxPriority) :
    Boosting H (is.foldl (fun L i => spliced L (.queue taskMaxPriority) (.queue i)) L)
      (is.foldl spliceQueue b) := by
  have htop : TaskNode.queue taskMaxPriority ∈ H := hqueues ⟨_, le_rfl, rfl⟩
  induction is generalizing L b with
  | nil => exact hb
  | cons i is ih =>
    have hi := his i List.mem_cons_self
    exact ih (hb.splice htop (hqueues ⟨i, hi.le, rfl⟩) hi)
      fun j hj => his j (List.mem_cons_of_mem i hj)

theorem boosting_lists {links : Links TaskNode} (hL : Lists s.links H L) (hqueues : queues ⊆ H)
    (hb : b = (List.range taskMaxPriority).reverse.foldl spliceQueue
      { links := s.links, tail := s.links.prev (.queue taskMaxPriority), last := none })
    (hlinks : links = match b.last with
      | some tail1 =>
        (b.links.setNext tail1 (.queue taskMaxPriority)).setPrev (.queue taskMaxPriority) tail1
      | none => b.links) :
    Lists links H (boosted L) := by
  have htop : TaskNode.queue taskMaxPriority ∈ H := hqueues ⟨_, le_rfl, rfl⟩
  have hstart : Boosting H L
      { links := s.links, tail := s.links.prev (.queue taskMaxPriority), last := none } :=
    ⟨(hL.linked _ htop).prev_head, Or.inl ⟨rfl, hL⟩⟩
  have hend : Boosting H (boosted L) b := by
    rw [hb]
    refine hstart.foldl hqueues fun i hi => ?_
    rwa [List.mem_reverse, List.mem_range] at hi
  rcases hend.lists with ⟨hlast, hlists⟩ | ⟨hlast, hopen⟩
  · rw [hlinks, hlast]
    exact hlists
  · have hclose := hopen.close htop
    rw [← hend.tail] at hclose
    rw [hlinks, hlast]
    exact hclose

theorem boosted_eq : boosted L =
    spliced (spliced (spliced L (.queue 3) (.queue 2)) (.queue 3) (.queue 1)) (.queue 3) (.queue 0) :=
  rfl

theorem boosted_top : boosted L (.queue taskMaxPriority) =
    L (.queue 3) ++ L (.queue 2) ++ L (.queue 1) ++ L (.queue 0) := by
  rw [boosted_eq, taskMaxPriority, spliced_top (by decide), spliced_top (by decide),
    spliced_top (by decide), spliced_of_ne (by decide) (by decide), spliced_of_ne (by decide) (by decide),
    spliced_of_ne (by decide) (by decide)]

theorem boosted_low (hi : i < taskMaxPriority) : boosted L (.queue i) = [] := by
  rw [taskMaxPriority] at hi
  rw [boosted_eq]
  obtain rfl | rfl | rfl : i = 0 ∨ i = 1 ∨ i = 2 := by omega
  · exact spliced_self
  · rw [spliced_of_ne (by decide) (by decide), spliced_self]
  · rw [spliced_of_ne (by decide) (by decide), spliced_of_ne (by decide) (by decide), spliced_self]

theorem boosted_other {a : TaskNode} (ha : a ∉ queues) : boosted L a = L a := by
  have hne : ∀ i ≤ taskMaxPriority, a ≠ .queue i := fun i hi heq => ha ⟨i, hi, heq⟩
  rw [boosted_eq, spliced_of_ne (hne 3 (by decide)) (hne 0 (by decide)),
    spliced_of_ne (hne 3 (by decide)) (hne 1 (by decide)),
    spliced_of_ne (hne 3 (by decide)) (hne 2 (by decide))]

/-- The second loop gives the tasks at the end of the top queue, which come from lower queues, the top
priority. -/
theorem raiseLoop_spec {links : Links TaskNode} {hi lo done : List Nat} {fuel : Nat} {tcb : Nat → Tcb}
    (hlinked : Linked links (.queue taskMaxPriority) ((hi ++ lo ++ done).map .run))
    (hhi : ∀ t ∈ hi, (tcb t).priority = taskMaxPriority)
    (hlo : ∀ t ∈ lo, (tcb t).priority ≠ taskMaxPriority) (hfuel : lo.length < fuel) :
    raiseLoop links fuel (((hi ++ lo).map .run).getLastD (.queue taskMaxPriority)) tcb =
      .ok fun t => if t ∈ lo then { tcb t with priority := taskMaxPriority } else tcb t := by
  -- The induction takes the tasks off the end of `lo`; they are then in `done`.
  induction lo using List.reverseRecOn generalizing done tcb fuel with
  | nil =>
    obtain ⟨fuel, rfl⟩ := Nat.exists_eq_succ_of_ne_zero (Nat.ne_zero_of_lt hfuel)
    have hresult : (fun t => if t ∈ ([] : List Nat) then
        { tcb t with priority := taskMaxPriority } else tcb t) = tcb := by
      funext t
      exact if_neg List.not_mem_nil
    rw [List.append_nil, raiseLoop, hresult]
    rcases List.eq_nil_or_concat hi with rfl | ⟨hi', t, rfl⟩
    · exact if_pos rfl
    · have htop := hhi t (by rw [List.concat_eq_append]; exact List.mem_append_right _ List.mem_cons_self)
      rw [List.concat_eq_append, List.map_append, List.map_singleton, List.getLastD_concat,
        if_neg (by exact nofun), taskEntry, ok_bind, if_pos htop]
  | append_singleton lo t ih =>
    obtain ⟨fuel, rfl⟩ := Nat.exists_eq_succ_of_ne_zero (Nat.ne_zero_of_lt hfuel)
    have hlow := hlo t (List.mem_append_right _ List.mem_cons_self)
    have hsplit : hi ++ (lo ++ [t]) ++ done = hi ++ lo ++ t :: done := by
      rw [List.append_assoc, List.append_assoc, List.append_assoc, List.singleton_append]
    rw [hsplit] at hlinked
    have hne : ∀ t' ∈ hi ++ lo, t' ≠ t := by
      intro t' ht' heq
      have hnodup := hlinked.nodup.of_map
      exact (List.nodup_append.1 hnodup).2.2 t' ht' t List.mem_cons_self heq
    have hhi' : ∀ t' ∈ hi, (update tcb t { tcb t with priority := taskMaxPriority }
        t').priority = taskMaxPriority := by
      intro t' ht'
      rw [update_of_ne (hne t' (List.mem_append_left lo ht'))]
      exact hhi t' ht'
    have hlo' : ∀ t' ∈ lo, (update tcb t { tcb t with priority := taskMaxPriority }
        t').priority ≠ taskMaxPriority := by
      intro t' ht'
      rw [update_of_ne (hne t' (List.mem_append_right hi ht'))]
      exact hlo t' (List.mem_append_left _ ht')
    have hfuel' : lo.length < fuel := by
      rw [List.length_append, List.length_singleton] at hfuel
      omega
    have hrest := ih hlinked hhi' hlo' hfuel'
    rw [List.map_append, List.map_cons] at hlinked
    have hlast : ((hi ++ (lo ++ [t])).map TaskNode.run).getLastD (.queue taskMaxPriority) = .run t := by
      rw [← List.append_assoc, List.map_append, List.map_singleton, List.getLastD_concat]
    rw [hlast, raiseLoop, if_neg (by exact nofun), taskEntry, ok_bind, if_neg hlow,
      hlinked.prev_append, hrest]
    refine congrArg Except.ok (funext fun t' => ?_)
    by_cases heq : t' = t
    · subst heq
      rw [update_self, if_pos (List.mem_append_right lo List.mem_cons_self), ite_self]
    · rw [update_of_ne heq]
      refine if_congr ?_ rfl rfl
      rw [List.mem_append, List.mem_singleton, or_iff_left heq]

theorem mem_low {ready : Nat → List Nat} {t : Nat} :
    t ∈ ready 2 ++ ready 1 ++ ready 0 ↔ ∃ i < taskMaxPriority, t ∈ ready i := by
  rw [List.mem_append, List.mem_append]
  constructor
  · rintro ((ht | ht) | ht)
    · exact ⟨2, by decide, ht⟩
    · exact ⟨1, by decide, ht⟩
    · exact ⟨0, by decide, ht⟩
  · rintro ⟨i, hi, ht⟩
    rw [taskMaxPriority] at hi
    obtain rfl | rfl | rfl : i = 0 ∨ i = 1 ∨ i = 2 := by omega
    · exact Or.inr ht
    · exact Or.inl (Or.inr ht)
    · exact Or.inl (Or.inl ht)

/-- `reset_priority` gives every queued task the top priority and leaves the rest as it is. -/
theorem resetPriority_eq {ready : Nat → List Nat} (hL : Lists s.links H L) (hqueues : queues ⊆ H)
    (hready : ∀ i ≤ taskMaxPriority, L (.queue i) = (ready i).map .run)
    (hpriority : ∀ i ≤ taskMaxPriority, ∀ t ∈ ready i, (s.tcb t).priority = i)
    (hexist : ∀ i ≤ taskMaxPriority, ∀ t ∈ ready i, t ∈ s.tasks) :
    ∃ links, Lists links H (boosted L) ∧ s.resetPriority = .ok
      { s with
        links
        tcb := fun t => if t ∈ ready 2 ++ ready 1 ++ ready 0 then
          { s.tcb t with priority := taskMaxPriority } else s.tcb t } := by
  have hlists := boosting_lists hL hqueues rfl rfl
  have hlinked := hlists.linked (.queue taskMaxPriority) (hqueues ⟨_, le_rfl, rfl⟩)
  have htop : boosted L (.queue taskMaxPriority) =
      (ready 3 ++ (ready 2 ++ ready 1 ++ ready 0) ++ []).map .run := by
    rw [boosted_top, hready 3 (by decide), hready 2 (by decide), hready 1 (by decide),
      hready 0 (by decide), List.append_nil, List.map_append, List.map_append, List.map_append,
      List.append_assoc, List.append_assoc, List.append_assoc]
  rw [htop] at hlinked
  have hpriority_low : ∀ t ∈ ready 2 ++ ready 1 ++ ready 0, (s.tcb t).priority ≠ taskMaxPriority := by
    intro t ht
    obtain ⟨i, hi, hmem⟩ := mem_low.1 ht
    rw [hpriority i hi.le t hmem]
    exact hi.ne
  have hnodup : (ready 2 ++ ready 1 ++ ready 0).Nodup := by
    have hall := hlinked.nodup.of_map
    rw [List.append_nil] at hall
    exact (List.nodup_append.1 hall).2.1
  have hlength : (ready 2 ++ ready 1 ++ ready 0).length < s.tasks.length + 1 := by
    refine Nat.lt_succ_of_le (hnodup.subperm fun t ht => ?_).length_le
    obtain ⟨i, hi, hmem⟩ := mem_low.1 ht
    exact hexist i hi.le t hmem
  have hraise := raiseLoop_spec hlinked (hpriority 3 (by decide)) hpriority_low hlength
  refine ⟨_, hlists, ?_⟩
  rw [List.append_nil] at hlinked
  unfold resetPriority
  dsimp only
  rw [hlinked.prev_head, hraise, ok_bind]

/-- `reset_priority` appends the lower queues to the top one, the higher before the lower, and gives all
their tasks the top priority. -/
theorem resetPriority_concat {ready : Nat → List Nat}
    (hlinked : ∀ i ≤ taskMaxPriority, Linked s.links (.queue i) ((ready i).map .run))
    (hdisjoint : ∀ i ≤ taskMaxPriority, ∀ j ≤ taskMaxPriority, i ≠ j → ∀ t ∈ ready i, t ∉ ready j)
    (hpriority : ∀ i ≤ taskMaxPriority, ∀ t ∈ ready i, (s.tcb t).priority = i)
    (hexist : ∀ i ≤ taskMaxPriority, ∀ t ∈ ready i, t ∈ s.tasks) :
    ∃ s', s.resetPriority = .ok s' ∧
      Linked s'.links (.queue taskMaxPriority)
        ((ready 3 ++ ready 2 ++ ready 1 ++ ready 0).map .run) ∧
      (∀ i < taskMaxPriority, Linked s'.links (.queue i) []) ∧
      (∀ i ≤ taskMaxPriority, ∀ t ∈ ready i, (s'.tcb t).priority = taskMaxPriority) ∧
      ∀ t, (∀ i ≤ taskMaxPriority, t ∉ ready i) → s'.tcb t = s.tcb t := by
  have hL : Lists s.links queues (TaskLists.nodes { ready, block := [], armed := [] }) := by
    refine ⟨?_, ?_⟩
    · rintro a ⟨i, hi, rfl⟩
      exact hlinked i hi
    · rintro a ⟨i, hi, rfl⟩ b ⟨j, hj, rfl⟩ hne x hx hx'
      have hij : i ≠ j := fun heq => hne (congrArg TaskNode.queue heq)
      rcases List.mem_cons.1 hx with rfl | hx
      · rcases List.mem_cons.1 hx' with heq | hx'
        · exact hne heq
        · obtain ⟨t, _, heq⟩ := List.mem_map.1 hx'
          cases heq
      · obtain ⟨t, ht, rfl⟩ := List.mem_map.1 hx
        rcases List.mem_cons.1 hx' with heq | hx'
        · cases heq
        · obtain ⟨t', ht', heq⟩ := List.mem_map.1 hx'
          cases heq
          exact hdisjoint i hi j hj hij t ht ht'
  obtain ⟨links, hlists, hreset⟩ := resetPriority_eq hL subset_rfl (fun _ _ => rfl) hpriority hexist
  refine ⟨_, hreset, ?_, ?_, ?_, ?_⟩
  · have htop := hlists.linked (.queue taskMaxPriority) ⟨_, le_rfl, rfl⟩
    rw [boosted_top] at htop
    rw [List.map_append, List.map_append, List.map_append]
    exact htop
  · intro i hi
    have hempty := hlists.linked (.queue i) ⟨i, hi.le, rfl⟩
    rwa [boosted_low hi] at hempty
  · intro i hi t ht
    dsimp only
    split
    · rfl
    · rename_i hnot
      rcases hi.lt_or_eq with hlt | rfl
      · exact absurd (mem_low.2 ⟨i, hlt, ht⟩) hnot
      · exact hpriority taskMaxPriority le_rfl t ht
  · intro t ht
    refine if_neg fun hmem => ?_
    obtain ⟨i, hi, hmem⟩ := mem_low.1 hmem
    exact ht i hi.le hmem

def twoReady : Sched where
  links := listAddPrev (listAddPrev { next := id, prev := id } (.run 1) (.queue 0)) (.run 2) (.queue 2)
  tasks := [1, 2]
  tcb := fun t =>
    { pid := t
      state := .running
      priority := if t = 1 then 0 else 2
      timerSlice := timeSliceLength }
  cur := id
  idle := id
  updatePriorityTime := 0
  gTick := 0
  timer := fun _ => { thread := .blockList, time := 0 }
  pool := id
  top := 0

def twoReadyQueue (i : Nat) : List Nat := if i = 0 then [1] else if i = 2 then [2] else []

theorem resetPriority_concat_twoReady : ∃ s', twoReady.resetPriority = .ok s' ∧
    Linked s'.links (.queue 3) [.run 2, .run 1] := by
  have hready : ∀ i ≤ taskMaxPriority,
      Linked twoReady.links (.queue i) ((twoReadyQueue i).map .run) := by
    intro i hi
    rw [taskMaxPriority] at hi
    obtain rfl | rfl | rfl | rfl : i = 0 ∨ i = 1 ∨ i = 2 ∨ i = 3 := by omega
    · exact ⟨⟨rfl, rfl, rfl, rfl⟩, by decide⟩
    · exact ⟨⟨rfl, rfl⟩, by decide⟩
    · exact ⟨⟨rfl, rfl, rfl, rfl⟩, by decide⟩
    · exact ⟨⟨rfl, rfl⟩, by decide⟩
  have hmem : ∀ {i t}, t ∈ twoReadyQueue i → i = 0 ∧ t = 1 ∨ i = 2 ∧ t = 2 := by
    intro i t ht
    rw [twoReadyQueue] at ht
    split at ht
    · exact Or.inl ⟨‹_›, List.mem_singleton.1 ht⟩
    · split at ht
      · exact Or.inr ⟨‹_›, List.mem_singleton.1 ht⟩
      · cases ht
  have hdisjoint : ∀ i ≤ taskMaxPriority, ∀ j ≤ taskMaxPriority, i ≠ j →
      ∀ t ∈ twoReadyQueue i, t ∉ twoReadyQueue j := by
    intro i _ j _ hne t ht ht'
    have hi := hmem ht
    have hj := hmem ht'
    omega
  have hpriority : ∀ i ≤ taskMaxPriority, ∀ t ∈ twoReadyQueue i, (twoReady.tcb t).priority = i := by
    intro i _ t ht
    rcases hmem ht with ⟨rfl, rfl⟩ | ⟨rfl, rfl⟩ <;> rfl
  have hexist : ∀ i ≤ taskMaxPriority, ∀ t ∈ twoReadyQueue i, t ∈ twoReady.tasks := by
    intro i _ t ht
    rcases hmem ht with ⟨_, rfl⟩ | ⟨_, rfl⟩ <;> decide
  obtain ⟨s', hreset, htop, _⟩ := resetPriority_concat hready hdisjoint hpriority hexist
  exact ⟨s', hreset, htop⟩

end Sched

end QuarkOS
