import QuarkOS.Task.Sched

/-!
# What the scheduler does to the lists

`Shaped` says that the pointers make up the lists, that the tasks in the ready queues may run and stand in
the queue of their priority. Each function of `schedule.c` and `fork.c` keeps it; what is said of the
lists beyond that is which tasks are ready, since `reset_priority` may run within `schedule`.
-/

namespace QuarkOS

open CList Function

/-- The queues after `reset_priority`. -/
def TaskLists.boost (v : TaskLists) : TaskLists :=
  { v with
    ready := fun i =>
      if i = taskMaxPriority then v.ready 3 ++ (v.ready 2 ++ v.ready 1 ++ v.ready 0)
      else if i < taskMaxPriority then [] else v.ready i }

namespace Sched

def heads : Set TaskNode := {a | a ∈ queues ∨ a = .blockList ∨ a = .timerHead}

structure Shaped (s : Sched) (v : TaskLists) : Prop where
  lists : Lists s.links heads v.nodes
  ready : ∀ i ≤ taskMaxPriority, ∀ t ∈ v.ready i,
    t ∈ s.tasks ∧ (s.tcb t).state = .running ∧ (s.tcb t).priority = i
  priority : ∀ t, (s.tcb t).priority ≤ taskMaxPriority

/-- Only the lists, the priorities and the time slices change. -/
structure Moved (s s' : Sched) : Prop where
  state : ∀ t, (s'.tcb t).state = (s.tcb t).state
  tasks : s'.tasks = s.tasks
  cur : s'.cur = s.cur
  idle : s'.idle = s.idle
  gTick : s'.gTick = s.gTick
  timer : s'.timer = s.timer
  pool : s'.pool = s.pool
  top : s'.top = s.top

variable {s s' s'' : Sched} {v v' : TaskLists} {t i cpu : Nat}

theorem Moved.refl (s : Sched) : Moved s s := ⟨fun _ => rfl, rfl, rfl, rfl, rfl, rfl, rfl, rfl⟩

theorem Moved.trans (h : Moved s s') (h' : Moved s' s'') : Moved s s'' :=
  ⟨fun t => (h'.state t).trans (h.state t), h'.tasks.trans h.tasks, h'.cur.trans h.cur,
    h'.idle.trans h.idle, h'.gTick.trans h.gTick, h'.timer.trans h.timer, h'.pool.trans h.pool,
    h'.top.trans h.top⟩

@[simp] theorem setState_state_self (s : Sched) (t : Nat) (state : TaskState) :
    ((s.setState t state).tcb t).state = state := by
  rw [setState, setTcb]
  dsimp only
  rw [update_self]

theorem setState_state_of_ne {t' : Nat} {state : TaskState} (hne : t' ≠ t) :
    ((s.setState t state).tcb t').state = (s.tcb t').state :=
  congrArg Tcb.state (update_of_ne hne ..)

theorem setState_timerSlice (s : Sched) (t t' : Nat) (state : TaskState) :
    ((s.setState t state).tcb t').timerSlice = (s.tcb t').timerSlice := by
  rw [setState, setTcb]
  dsimp only
  rw [update_apply]
  split
  · rename_i heq
    rw [heq]
  · rfl

theorem Moved.setTcb {tcb : Tcb} (hstate : tcb.state = (s.tcb t).state) : Moved s (s.setTcb t tcb) := by
  refine ⟨fun t' => ?_, rfl, rfl, rfl, rfl, rfl, rfl, rfl⟩
  rw [Sched.setTcb]
  dsimp only
  rw [update_apply]
  split
  · rename_i heq
    rw [heq, hstate]
  · rfl

theorem queue_mem_heads (hi : i ≤ taskMaxPriority) : TaskNode.queue i ∈ heads := Or.inl ⟨i, hi, rfl⟩

theorem blockList_mem_heads : TaskNode.blockList ∈ heads := Or.inr (Or.inl rfl)

theorem timerHead_mem_heads : TaskNode.timerHead ∈ heads := Or.inr (Or.inr rfl)

theorem run_notMem_heads : TaskNode.run t ∉ heads := by
  rintro (⟨_, _, heq⟩ | heq | heq) <;> cases heq

theorem timer_notMem_heads {k : Nat} : TaskNode.timer k ∉ heads := by
  rintro (⟨_, _, heq⟩ | heq | heq) <;> cases heq

theorem run_mem_map {l : List Nat} : TaskNode.run t ∈ l.map .run ↔ t ∈ l := by
  rw [List.mem_map]
  constructor
  · rintro ⟨_, hmem, heq⟩
    cases heq
    exact hmem
  · intro hmem
    exact ⟨t, hmem, rfl⟩

/-- The `run_list` of a task is in a list exactly when the task is ready or blocked. -/
theorem run_notMem (hready : ¬v.Ready t) (hblock : t ∉ v.block) :
    ∀ a ∈ heads, TaskNode.run t ∉ a :: v.nodes a := by
  intro a ha hmem
  rcases List.mem_cons.1 hmem with rfl | hmem
  · exact run_notMem_heads ha
  · rcases ha with ⟨i, hi, rfl⟩ | rfl | rfl
    · exact hready ⟨i, hi, run_mem_map.1 hmem⟩
    · exact hblock (run_mem_map.1 hmem)
    · obtain ⟨_, _, heq⟩ := List.mem_map.1 hmem
      cases heq

theorem Shaped.not_ready_of_block (hs : Shaped s v) (ht : t ∈ v.block) : ¬v.Ready t := by
  rintro ⟨i, hi, hmem⟩
  have heq := hs.lists.head_eq_of_mem blockList_mem_heads (queue_mem_heads hi)
    (x := .run t) (run_mem_map.2 ht) (run_mem_map.2 hmem)
  cases heq

theorem Shaped.index_eq (hs : Shaped s v) {j : Nat} (hi : i ≤ taskMaxPriority) (hj : j ≤ taskMaxPriority)
    (hmem : t ∈ v.ready i) (hmem' : t ∈ v.ready j) : i = j :=
  (hs.ready i hi t hmem).2.2.symm.trans (hs.ready j hj t hmem').2.2

/-- The tasks of the scheduler are the same, and each is in the list it was in before. -/
theorem Shaped.congr (hs : Shaped s v) (hlinks : s'.links = s.links) (htasks : s'.tasks = s.tasks)
    (htcb : s'.tcb = s.tcb) : Shaped s' v := by
  refine ⟨?_, ?_, ?_⟩
  · rw [hlinks]
    exact hs.lists
  · rw [htasks, htcb]
    exact hs.ready
  · rw [htcb]
    exact hs.priority

theorem mem_setReady {l : List Nat} {j t' : Nat} : t' ∈ (v.setReady i l).ready j ↔
    j = i ∧ t' ∈ l ∨ j ≠ i ∧ t' ∈ v.ready j := by
  have hready : (v.setReady i l).ready j = if j = i then l else v.ready j :=
    update_apply ..
  rw [hready]
  split
  · rename_i heq
    simp [heq]
  · rename_i hne
    simp [hne]

theorem Shaped.schedTaskAdd (hs : Shaped s v) (hready : ¬v.Ready t) (hblock : t ∉ v.block)
    (hstate : (s.tcb t).state = .running) (hexist : t ∈ s.tasks) :
    ∃ v', Shaped (s.schedTaskAdd t) v' ∧ v'.block = v.block ∧ v'.armed = v.armed ∧
      ∀ t', v'.Ready t' ↔ v.Ready t' ∨ t' = t := by
  have hp := hs.priority t
  refine ⟨v.setReady (s.tcb t).priority (v.ready (s.tcb t).priority ++ [t]), ⟨?_, ?_, hs.priority⟩, rfl,
    rfl, ?_⟩
  · rw [TaskLists.nodes_setReady, List.map_append]
    exact hs.lists.addPrev (queue_mem_heads hp) (run_notMem hready hblock)
  · intro i hi t' ht'
    rcases mem_setReady.1 ht' with ⟨rfl, hnew⟩ | ⟨_, hold⟩
    · rcases List.mem_append.1 hnew with hold | hnew
      · exact hs.ready _ hp t' hold
      · rw [List.mem_singleton.1 hnew]
        exact ⟨hexist, hstate, rfl⟩
    · exact hs.ready i hi t' hold
  · intro t'
    constructor
    · rintro ⟨i, hi, ht'⟩
      rcases mem_setReady.1 ht' with ⟨rfl, hnew⟩ | ⟨_, hold⟩
      · rcases List.mem_append.1 hnew with hold | hnew
        · exact Or.inl ⟨_, hp, hold⟩
        · exact Or.inr (List.mem_singleton.1 hnew)
      · exact Or.inl ⟨i, hi, hold⟩
    · rintro (⟨i, hi, ht'⟩ | rfl)
      · refine ⟨i, hi, mem_setReady.2 ?_⟩
        by_cases heq : i = (s.tcb t).priority
        · exact Or.inl ⟨heq, List.mem_append_left _ (heq ▸ ht')⟩
        · exact Or.inr ⟨heq, ht'⟩
      · exact ⟨_, hp, mem_setReady.2 (Or.inl ⟨rfl, List.mem_append_right _ List.mem_cons_self⟩)⟩

theorem Shaped.setTcb {tcb : Tcb} (hs : Shaped s v) (hready : ¬v.Ready t)
    (hpriority : tcb.priority ≤ taskMaxPriority) : Shaped (s.setTcb t tcb) v := by
  refine ⟨hs.lists, ?_, ?_⟩
  · intro i hi t' ht'
    have hne : t' ≠ t := fun heq => hready ⟨i, hi, heq ▸ ht'⟩
    have htcb : (s.setTcb t tcb).tcb t' = s.tcb t' := update_of_ne hne ..
    rw [htcb]
    exact hs.ready i hi t' ht'
  · intro t'
    have htcb : (s.setTcb t tcb).tcb t' = if t' = t then tcb else s.tcb t' :=
      update_apply ..
    rw [htcb]
    split
    · exact hpriority
    · exact hs.priority t'

theorem Shaped.ready_eq_nil (hs : Shaped s v) (hi : i ≤ taskMaxPriority) :
    listEmpty s.links (.queue i) = true ↔ v.ready i = [] :=
  (hs.lists.linked _ (queue_mem_heads hi)).listEmpty_iff.trans List.map_eq_nil_iff

theorem Shaped.choseNextTask (hs : Shaped s v) (cpu : Nat) :
    (∃ t links v', v.Ready t ∧ s.choseNextTask cpu = (.run t, { s with links }) ∧
      Shaped { s with links } v' ∧ v'.block = v.block ∧ v'.armed = v.armed ∧
      ∀ t', v'.Ready t' ↔ v.Ready t' ∧ t' ≠ t) ∨
    s.choseNextTask cpu = (.run (s.idle cpu), s) ∧ ∀ t, ¬v.Ready t := by
  unfold Sched.choseNextTask
  split
  · rename_i i hfind
    left
    have hi : i ≤ taskMaxPriority := by
      have hmem := List.mem_of_find?_eq_some hfind
      rw [List.mem_reverse, List.mem_range] at hmem
      omega
    have hnonempty : v.ready i ≠ [] := by
      intro hnil
      have hpred := List.find?_some hfind
      rw [(hs.ready_eq_nil hi).2 hnil] at hpred
      cases hpred
    obtain ⟨t, rest, hcons⟩ := List.exists_cons_of_ne_nil hnonempty
    have hlinked := hs.lists.linked _ (queue_mem_heads hi)
    have hnodes : v.nodes (.queue i) = .run t :: rest.map .run := by
      rw [TaskLists.nodes, hcons, List.map_cons]
    have hfirst : s.links.next (.queue i) = .run t := by
      rw [hlinked.next_head, hnodes]
      rfl
    have hmem : TaskNode.run t ∈ v.nodes (.queue i) := by
      rw [hnodes]
      exact List.mem_cons_self
    have hnodup : t ∉ rest := by
      have hnodup := hlinked.nodup
      rw [TaskLists.nodes, hcons] at hnodup
      exact (List.nodup_cons.1 hnodup.of_map).1
    have hdel := hs.lists.del (queue_mem_heads hi) hmem
    rw [hnodes, List.erase_cons_head, ← TaskLists.nodes_setReady] at hdel
    dsimp only
    rw [hfirst]
    refine ⟨t, _, _, ⟨i, hi, hcons ▸ List.mem_cons_self⟩, rfl, ⟨hdel, ?_, hs.priority⟩, rfl, rfl, ?_⟩
    · intro j hj t' ht'
      rcases mem_setReady.1 ht' with ⟨rfl, hrest⟩ | ⟨_, hold⟩
      · exact hs.ready j hj t' (hcons ▸ List.mem_cons_of_mem t hrest)
      · exact hs.ready j hj t' hold
    · intro t'
      constructor
      · rintro ⟨j, hj, ht'⟩
        rcases mem_setReady.1 ht' with ⟨rfl, hrest⟩ | ⟨hne, hold⟩
        · exact ⟨⟨j, hj, hcons ▸ List.mem_cons_of_mem t hrest⟩, fun heq => hnodup (heq ▸ hrest)⟩
        · refine ⟨⟨j, hj, hold⟩, fun heq => hne ?_⟩
          exact hs.index_eq hj hi (heq ▸ hold) (hcons ▸ List.mem_cons_self)
      · rintro ⟨⟨j, hj, ht'⟩, hne⟩
        refine ⟨j, hj, mem_setReady.2 ?_⟩
        by_cases heq : j = i
        · subst heq
          rw [hcons] at ht'
          exact Or.inl ⟨rfl, (List.mem_cons.1 ht').resolve_left hne⟩
        · exact Or.inr ⟨heq, ht'⟩
  · rename_i hfind
    right
    refine ⟨rfl, ?_⟩
    rintro t ⟨i, hi, ht⟩
    have hmem : i ∈ (List.range (taskMaxPriority + 1)).reverse := by
      rw [List.mem_reverse, List.mem_range]
      omega
    have hempty := List.find?_eq_none.1 hfind i hmem
    rw [Bool.not_eq_true, Bool.not_eq_false'] at hempty
    rw [(hs.ready_eq_nil hi).1 hempty] at ht
    cases ht

theorem boost_top (v : TaskLists) : v.boost.ready taskMaxPriority =
    v.ready 3 ++ (v.ready 2 ++ v.ready 1 ++ v.ready 0) := rfl

theorem boost_low (hi : i < taskMaxPriority) : v.boost.ready i = [] := by
  rw [TaskLists.boost]
  dsimp only
  rw [if_neg hi.ne, if_pos hi]

theorem nodes_boost (v : TaskLists) : boosted v.nodes = v.boost.nodes := by
  funext a
  cases a with
  | queue i =>
    rcases lt_trichotomy i taskMaxPriority with hlt | rfl | hgt
    · rw [boosted_low hlt, TaskLists.nodes, boost_low hlt, List.map_nil]
    · rw [boosted_top]
      simp only [TaskLists.nodes, boost_top, List.map_append, List.append_assoc]
    · rw [boosted_other, TaskLists.nodes, TaskLists.nodes, TaskLists.boost]
      · dsimp only
        rw [if_neg hgt.ne', if_neg hgt.not_gt]
      · rintro ⟨j, hj, heq⟩
        cases heq
        exact absurd hgt hj.not_gt
  | blockList | timerHead | run | timer =>
    refine (boosted_other ?_).trans rfl
    rintro ⟨_, _, heq⟩
    cases heq

theorem ready_boost : v.boost.Ready t ↔ v.Ready t := by
  constructor
  · rintro ⟨i, hi, ht⟩
    rcases hi.lt_or_eq with hlt | rfl
    · rw [boost_low hlt] at ht
      cases ht
    · rcases List.mem_append.1 (boost_top v ▸ ht) with hhigh | hlow
      · exact ⟨3, le_rfl, hhigh⟩
      · obtain ⟨i, hi, hmem⟩ := mem_low.1 hlow
        exact ⟨i, hi.le, hmem⟩
  · rintro ⟨i, hi, ht⟩
    refine ⟨taskMaxPriority, le_rfl, ?_⟩
    rw [boost_top]
    rcases hi.lt_or_eq with hlt | rfl
    · exact List.mem_append_right _ (mem_low.2 ⟨i, hlt, ht⟩)
    · exact List.mem_append_left _ ht

theorem Shaped.resetPriority (hs : Shaped s v) :
    ∃ s' v', s.resetPriority = .ok s' ∧ Shaped s' v' ∧ Moved s s' ∧ v'.block = v.block ∧
      v'.armed = v.armed ∧ ∀ t, v'.Ready t ↔ v.Ready t := by
  obtain ⟨links, hlists, hreset⟩ := resetPriority_eq hs.lists (fun a ha => Or.inl ha) (fun _ _ => rfl)
    (fun i hi t ht => (hs.ready i hi t ht).2.2) (fun i hi t ht => (hs.ready i hi t ht).1)
  refine ⟨_, v.boost, hreset, ⟨nodes_boost v ▸ hlists, ?_, ?_⟩, ⟨?_, rfl, rfl, rfl, rfl, rfl, rfl, rfl⟩,
    rfl, rfl, fun t => ready_boost⟩
  · intro i hi t ht
    obtain rfl : i = taskMaxPriority := by
      by_contra hne
      rw [boost_low (by omega)] at ht
      cases ht
    dsimp only
    rcases List.mem_append.1 (boost_top v ▸ ht) with hhigh | hlow
    · obtain ⟨hexist, hstate, hpriority⟩ := hs.ready _ le_rfl t hhigh
      split
      · exact ⟨hexist, hstate, rfl⟩
      · exact ⟨hexist, hstate, hpriority⟩
    · obtain ⟨i, hi, hmem⟩ := mem_low.1 hlow
      rw [if_pos hlow]
      exact ⟨(hs.ready i hi.le t hmem).1, (hs.ready i hi.le t hmem).2.1, rfl⟩
  · intro t
    dsimp only
    split
    · exact le_rfl
    · exact hs.priority t
  · intro t
    dsimp only
    split <;> rfl

theorem Shaped.putBack (hs : Shaped s v) (hready : ¬v.Ready t) (hexist : t ∈ s.tasks)
    (hblock : (s.tcb t).state = .running → t ∉ v.block) :
    ∃ v', Shaped (s.putBack t) v' ∧ Moved s (s.putBack t) ∧ v'.block = v.block ∧ v'.armed = v.armed ∧
      ∀ t', v'.Ready t' ↔ v.Ready t' ∨ t' = t ∧ (s.tcb t).state = .running := by
  obtain ⟨tcb, hstate, hpriority, hput⟩ : ∃ tcb, tcb.state = (s.tcb t).state ∧
      tcb.priority ≤ taskMaxPriority ∧ s.putBack t =
        if tcb.state = .running then (s.setTcb t tcb).schedTaskAdd t else s.setTcb t tcb := by
    have hp := hs.priority t
    refine ⟨_, ?_, ?_, rfl⟩
    · split
      · split <;> rfl
      · rfl
    · split
      · split
        · exact (Nat.sub_le _ 1).trans hp
        · exact hp
      · exact hp
  have hset := hs.setTcb hready hpriority
  have hself : (s.setTcb t tcb).tcb t = tcb := update_self ..
  have hmoved : Moved s (s.setTcb t tcb) := .setTcb hstate
  rw [hput, hstate]
  split
  · rename_i hrunning
    obtain ⟨v', hs', hblock', harmed', hready'⟩ := hset.schedTaskAdd hready (hblock hrunning)
      (by rw [hself, hstate, hrunning]) hexist
    refine ⟨v', hs', hmoved.trans ⟨fun _ => rfl, rfl, rfl, rfl, rfl, rfl, rfl, rfl⟩, hblock', harmed',
      fun t' => ?_⟩
    rw [hready', and_iff_left hrunning]
  · rename_i hrunning
    refine ⟨v, hset, hmoved, rfl, rfl, fun t' => ?_⟩
    rw [or_iff_left fun h => hrunning h.2]

theorem Shaped.raiseDue (hs : Shaped s v) :
    ∃ s' v', s.raiseDue = .ok s' ∧ Shaped s' v' ∧ Moved s s' ∧ v'.block = v.block ∧ v'.armed = v.armed ∧
      ∀ t, v'.Ready t ↔ v.Ready t := by
  rw [Sched.raiseDue]
  split
  · obtain ⟨s', v', hreset, hs', hmoved, hrest⟩ := hs.resetPriority
    rw [hreset, ok_bind]
    exact ⟨_, v', rfl, hs'.congr rfl rfl rfl,
      hmoved.trans ⟨fun _ => rfl, rfl, rfl, rfl, rfl, rfl, rfl, rfl⟩, hrest⟩
  · exact ⟨s, v, rfl, hs, .refl s, rfl, rfl, fun _ => Iff.rfl⟩

/-- The task that ran is ready again unless it is the idle task or sleeps. -/
def PutBack (s : Sched) (cpu t : Nat) : Prop :=
  t = s.cur cpu ∧ t ≠ s.idle cpu ∧ (s.tcb t).state = .running

theorem Shaped.switchNext {n : Nat} (hs : Shaped s v) (cpu : Nat) (hcur : ¬v.Ready (s.cur cpu))
    (hexist : s.cur cpu ∈ s.tasks)
    (hblock : (s.tcb (s.cur cpu)).state = .running → s.cur cpu ≠ s.idle cpu → s.cur cpu ∉ v.block)
    (hrun : (s.tcb n).state = .running) :
    ∃ s' v', s.switchNext cpu (.run n) = .ok s' ∧ Shaped s' v' ∧
      Moved { s with cur := update s.cur cpu n } s' ∧ v'.block = v.block ∧ v'.armed = v.armed ∧
      ∀ t, v'.Ready t ↔ v.Ready t ∨ PutBack s cpu t := by
  rw [Sched.switchNext]
  split
  · rename_i hidle
    obtain ⟨hnext, hidle⟩ := hidle
    cases hnext
    refine ⟨s, v, rfl, hs, ⟨fun _ => rfl, rfl, ?_, rfl, rfl, rfl, rfl, rfl⟩, rfl, rfl, fun t => ?_⟩
    · rw [← hidle, update_eq_self]
    · rw [or_iff_left]
      rintro ⟨rfl, hne, _⟩
      exact hne hidle
  · obtain ⟨s1, v1, hput, hs1, hmoved, hblock1, harmed1, hready1⟩ : ∃ s1 v1,
        (if s.cur cpu ≠ s.idle cpu then s.putBack (s.cur cpu) else s) = s1 ∧ Shaped s1 v1 ∧ Moved s s1 ∧
          v1.block = v.block ∧ v1.armed = v.armed ∧ ∀ t, v1.Ready t ↔ v.Ready t ∨ PutBack s cpu t := by
      split
      · rename_i hne
        obtain ⟨v', hs', hmoved, hblock', harmed', hready'⟩ := hs.putBack hcur hexist (hblock · hne)
        refine ⟨_, v', rfl, hs', hmoved, hblock', harmed', fun t => ?_⟩
        rw [hready', PutBack]
        refine or_congr Iff.rfl ⟨?_, ?_⟩
        · rintro ⟨rfl, hstate⟩
          exact ⟨rfl, hne, hstate⟩
        · rintro ⟨rfl, _, hstate⟩
          exact ⟨rfl, hstate⟩
      · rename_i hidle
        refine ⟨s, v, rfl, hs, .refl s, rfl, rfl, fun t => ?_⟩
        rw [or_iff_left]
        rintro ⟨rfl, hne, _⟩
        exact hidle hne
    dsimp only
    rw [hput, taskEntry, ok_bind, hmoved.state, assertk_pos hrun]
    refine ⟨_, v1, rfl, hs1.congr rfl rfl rfl, ⟨hmoved.state, hmoved.tasks, ?_, hmoved.idle, hmoved.gTick,
      hmoved.timer, hmoved.pool, hmoved.top⟩, hblock1, harmed1, hready1⟩
    dsimp only
    rw [hmoved.cur]

/-- What a call of `schedule` that switches to `n` changes. -/
structure Switched (cpu n : Nat) (s s' : Sched) (v v' : TaskLists) : Prop where
  moved : Moved { s with cur := update s.cur cpu n } s'
  block : v'.block = v.block
  armed : v'.armed = v.armed
  next : v.Ready n ∨ n = s.idle cpu
  ready : ∀ t, v'.Ready t ↔ (v.Ready t ∨ PutBack s cpu t) ∧ t ≠ n

theorem Shaped.schedule (hs : Shaped s v) (cpu : Nat) (hcur : ¬v.Ready (s.cur cpu))
    (hexist : s.cur cpu ∈ s.tasks)
    (hblock : (s.tcb (s.cur cpu)).state = .running → s.cur cpu ≠ s.idle cpu → s.cur cpu ∉ v.block)
    (hrun : (s.tcb (s.idle cpu)).state = .running) :
    ∃ n s' v', s.schedule cpu = .ok s' ∧ Shaped s' v' ∧ Switched cpu n s s' v v' := by
  obtain ⟨s1, v1, hraise, hs1, hmoved1, hblock1, harmed1, hready1⟩ := hs.raiseDue
  -- The task that runs next is the idle one only where no task is ready.
  obtain ⟨n, links, v2, hnext, hs2, hblock2, harmed2, hready2, hn⟩ : ∃ n links v2,
      s1.choseNextTask cpu = (.run n, { s1 with links }) ∧ Shaped { s1 with links } v2 ∧
        v2.block = v1.block ∧ v2.armed = v1.armed ∧ (∀ t, v2.Ready t ↔ v1.Ready t ∧ t ≠ n) ∧
          (v.Ready n ∨ n = s.idle cpu) := by
    rcases hs1.choseNextTask cpu with ⟨t, links, v', ht, hchose, hs', hblock', harmed', hready'⟩ |
      ⟨hchose, hnone⟩
    · exact ⟨t, links, v', hchose, hs', hblock', harmed', hready', Or.inl ((hready1 t).1 ht)⟩
    · rw [hmoved1.idle] at hchose
      refine ⟨s.idle cpu, s1.links, v1, hchose, hs1, rfl, rfl, fun t => ?_, Or.inr rfl⟩
      exact iff_of_false (hnone t) fun ht => hnone t ht.1
  have hstate : ((s1.tcb n).state) = .running := by
    rw [hmoved1.state]
    rcases hn with ⟨i, hi, hmem⟩ | rfl
    · exact (hs.ready i hi n hmem).2.1
    · exact hrun
  have hputBack : ∀ t, PutBack { s1 with links } cpu t ↔ PutBack s cpu t := by
    intro t
    rw [PutBack, PutBack, ← hmoved1.cur, ← hmoved1.idle, ← hmoved1.state]
  have hstay : ∀ t, v2.Ready t → v.Ready t := fun t ht => (hready1 t).1 ((hready2 t).1 ht).1
  obtain ⟨s', v', hswitch, hs', hmoved, hblock', harmed', hready'⟩ := hs2.switchNext cpu
    (fun h => hcur (hmoved1.cur ▸ hstay _ h))
    (by rw [hmoved1.cur, hmoved1.tasks]; exact hexist)
    (by rw [hmoved1.cur, hmoved1.state, hmoved1.idle, hblock2, hblock1]; exact hblock)
    hstate
  refine ⟨n, s', v', ?_, hs', ⟨⟨?_, ?_, ?_, ?_, ?_, ?_, ?_, ?_⟩, ?_, ?_, hn, ?_⟩⟩
  · rw [Sched.schedule, hraise, ok_bind, hnext]
    exact hswitch
  · exact fun t => (hmoved.state t).trans (hmoved1.state t)
  · exact hmoved.tasks.trans hmoved1.tasks
  · rw [hmoved.cur]
    exact congrArg (update · cpu n) hmoved1.cur
  · exact hmoved.idle.trans hmoved1.idle
  · exact hmoved.gTick.trans hmoved1.gTick
  · exact hmoved.timer.trans hmoved1.timer
  · exact hmoved.pool.trans hmoved1.pool
  · exact hmoved.top.trans hmoved1.top
  · exact hblock'.trans (hblock2.trans hblock1)
  · exact harmed'.trans (harmed2.trans harmed1)
  · intro t
    rw [hready', hready2, hready1, hputBack, or_and_right]
    refine or_congr Iff.rfl (iff_self_and.2 ?_)
    rintro ⟨rfl, hne, _⟩ rfl
    exact hn.elim hcur hne

theorem Shaped.taskWakeup (hs : Shaped s v) (ht : t ∈ v.block) (hexist : t ∈ s.tasks)
    (hstate : (s.tcb t).state ≠ .running) :
    ∃ s' v', s.taskWakeup (.run t) = .ok s' ∧ Shaped s' v' ∧ Moved (s.setState t .running) s' ∧
      (∀ t', (s'.tcb t').timerSlice = (s.tcb t').timerSlice) ∧ v'.block = v.block.erase t ∧
      v'.armed = v.armed ∧ ∀ t', v'.Ready t' ↔ v.Ready t' ∨ t' = t := by
  have hready := hs.not_ready_of_block ht
  have hset : Shaped (s.setState t .running) v := hs.setTcb hready (hs.priority t)
  have hdel := hset.lists.del blockList_mem_heads (x := .run t) (run_mem_map.2 ht)
  have hnodup : v.block.Nodup := (hs.lists.linked _ blockList_mem_heads).nodup.of_map
  have herase : (v.nodes .blockList).erase (.run t) = (v.block.erase t).map .run :=
    (List.map_erase (fun _ _ heq => TaskNode.run.inj heq) v.block).symm
  rw [herase, ← TaskLists.nodes_setBlock] at hdel
  have hdeleted : Shaped { s.setState t .running with links := listDel s.links (.run t) }
      { v with block := v.block.erase t } := ⟨hdel, hset.ready, hset.priority⟩
  obtain ⟨v', hs', hblock', harmed', hready'⟩ := hdeleted.schedTaskAdd hready
    hnodup.not_mem_erase (setState_state_self s t .running) hexist
  rw [Sched.taskWakeup, taskEntry, ok_bind, if_pos hstate]
  refine ⟨_, v', rfl, hs', ⟨fun _ => rfl, rfl, rfl, rfl, rfl, rfl, rfl, rfl⟩, fun t' => ?_, hblock',
    harmed', hready'⟩
  exact setState_timerSlice s t t' .running

end Sched

end QuarkOS
