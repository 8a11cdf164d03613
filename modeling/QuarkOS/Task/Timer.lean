import QuarkOS.Task.SchedSpec

/-!
# Timers

`timer.c`: twenty timers go between the stack of `timer_pool` and the list of armed timers. The clock
interrupt walks the list it takes nodes from, and what it wakes is ready before the walk goes on.
-/

namespace QuarkOS

open CList Function

def timerCount : Nat := 20

namespace Sched

section

variable (s : Sched)

def allocTimer : Option Nat × Sched :=
  if s.top ≠ 0 then (some (s.pool (s.top - 1)), { s with top := s.top - 1 }) else (none, s)

def freeTimer (k : Nat) : Sched :=
  if s.top ≠ timerCount then { s with pool := update s.pool s.top k, top := s.top + 1 } else s

def threadTimerInit : Sched :=
  { s with
    top := timerCount
    links := listHeaderInit s.links .timerHead
    pool := fun i => if i < timerCount then i else s.pool i }

/-- The fields of an allocated timer are set, and it is armed. -/
def armTimer (k cpu msc : Nat) : Sched :=
  { s with
    timer := update s.timer k { thread := .run (s.cur cpu), time := msc }
    links := listAddPrev s.links (.timer k) .timerHead }

/-- `ms_sleep_until` up to the switch to another task, with what it will return. -/
def msSleepUntil (cpu msc : Nat) : Except Fault (Bool × Sched) :=
  match s.allocTimer with
  | (none, s) => .ok (false, s)
  | (some k, s) => do
    let s ← (s.armTimer k cpu msc).taskSleep cpu
    .ok (true, s)

/-- `timer_entry`: only the nodes of timers stand behind the header of the pool. -/
def timerEntry : TaskNode → Except Fault Nat
  | .timer k => .ok k
  | _ => .error .undefined

/-- What the walk does with a timer that is due. -/
def wakeTimer (k : Nat) : Except Fault Sched := do
  let s ← s.taskWakeup (s.timer k).thread
  let s := { s with links := listDel s.links (.timer k) }
  .ok (s.freeTimer k)

def visitTimer (k : Nat) : Except Fault Sched :=
  if (s.timer k).time ≤ s.gTick then s.wakeTimer k else .ok s

end

/-- The walk over the armed timers; the next node is read before the timer is looked at. -/
def wakeLoop : Nat → Sched → TaskNode → Except Fault Sched
  | 0, _, _ => .error .spin
  | fuel + 1, s, hdr =>
    if hdr = .timerHead then .ok s
    else do
      let k ← timerEntry hdr
      let next := s.links.next hdr
      let s ← s.visitTimer k
      wakeLoop fuel s next

section

variable (s : Sched)

/-- What only the first CPU does. -/
def advance : Except Fault Sched :=
  let s := { s with gTick := (s.gTick + 10) % 2 ^ 64 }
  wakeLoop (timerCount + 1) s (s.links.next .timerHead)

/-- The end of `clock_isr`, with the time slice as a `u16_t`. -/
def sliceTick (cpu : Nat) : Except Fault Sched :=
  let task := s.cur cpu
  let tcb := s.tcb task
  if tcb.timerSlice = 0 then s.schedule cpu
  else .ok (s.setTcb task { tcb with timerSlice := (tcb.timerSlice + 2 ^ 16 - 10) % 2 ^ 16 })

def clockIsr (cpu : Nat) : Except Fault Sched := do
  let s ← if cpu = 0 then s.advance else .ok s
  s.sliceTick cpu

def free : List Nat := (List.range s.top).map s.pool

def due (k : Nat) : Bool := (s.timer k).time ≤ s.gTick

/-- A timer of `l` that is due wakes the task. -/
def Wakes (l : List Nat) (t : Nat) : Prop := ∃ k ∈ l, s.due k = true ∧ (s.timer k).thread = .run t

end

/-- No timer is on the stack or in the list of armed timers twice. -/
structure Pooled (s : Sched) (v : TaskLists) : Prop where
  shaped : Shaped s v
  nodup : (s.free ++ v.armed).Nodup
  bound : ∀ k ∈ s.free ++ v.armed, k < timerCount

/-- The tasks of the due timers of `l` wait, each for one timer. -/
structure Waiting (s : Sched) (v : TaskLists) (l : List Nat) : Prop where
  waits : ∀ k ∈ l, s.due k = true → ∃ t ∈ v.block, (s.timer k).thread = .run t ∧ t ∈ s.tasks ∧
    (s.tcb t).state ≠ .running
  distinct : ∀ k ∈ l, ∀ k' ∈ l, s.due k = true → (s.timer k).thread = (s.timer k').thread → k = k'

/-- What the walk over the timers of `l` does to the tasks. -/
structure Woken (s s' : Sched) (v v' : TaskLists) (l : List Nat) : Prop where
  timers : (s'.free ++ v'.armed).Perm (s.free ++ v.armed)
  wakes : ∀ t, s.Wakes l t → (s'.tcb t).state = .running
  state : ∀ t, ¬s.Wakes l t → (s'.tcb t).state = (s.tcb t).state
  block : ∀ t, t ∈ v'.block ↔ t ∈ v.block ∧ ¬s.Wakes l t
  ready : ∀ t, v'.Ready t ↔ v.Ready t ∨ s.Wakes l t
  slice : ∀ t, (s'.tcb t).timerSlice = (s.tcb t).timerSlice
  tasks : s'.tasks = s.tasks
  cur : s'.cur = s.cur
  idle : s'.idle = s.idle
  gTick : s'.gTick = s.gTick
  timer : s'.timer = s.timer

variable {s s' s'' : Sched} {v v' v'' : TaskLists} {k t n cpu : Nat} {l l' kept rest : List Nat}

theorem Woken.due (h : Woken s s' v v' l) : s'.due = s.due := by
  funext k
  rw [Sched.due, Sched.due, h.timer, h.gTick]

theorem Woken.wakes_iff (h : Woken s s' v v' l) : s'.Wakes l' t ↔ s.Wakes l' t := by
  rw [Wakes, Wakes, h.due, h.timer]

theorem wakes_append : s.Wakes (l ++ l') t ↔ s.Wakes l t ∨ s.Wakes l' t := by
  simp only [Wakes, List.mem_append, or_and_right, exists_or]

theorem Woken.trans (h : Woken s s' v v' l) (h' : Woken s' s'' v' v'' l') :
    Woken s s'' v v'' (l ++ l') where
  timers := h'.timers.trans h.timers
  wakes t ht := by
    by_cases hlater : s.Wakes l' t
    · exact h'.wakes t (h.wakes_iff.2 hlater)
    · rw [h'.state t fun hw => hlater (h.wakes_iff.1 hw)]
      exact h.wakes t ((wakes_append.1 ht).resolve_right hlater)
  state t ht := by
    rw [wakes_append, not_or] at ht
    rw [h'.state t fun hw => ht.2 (h.wakes_iff.1 hw), h.state t ht.1]
  block t := by
    rw [h'.block, h.block, h.wakes_iff, wakes_append, not_or, and_assoc]
  ready t := by
    rw [h'.ready, h.ready, h.wakes_iff, wakes_append, or_assoc]
  slice t := (h'.slice t).trans (h.slice t)
  tasks := h'.tasks.trans h.tasks
  cur := h'.cur.trans h.cur
  idle := h'.idle.trans h.idle
  gTick := h'.gTick.trans h.gTick
  timer := h'.timer.trans h.timer

theorem Woken.refl (h : ∀ k ∈ l, s.due k = false) : Woken s s v v l := by
  have hnone : ∀ t, ¬s.Wakes l t := by
    rintro t ⟨k, hk, hdue, _⟩
    rw [h k hk] at hdue
    cases hdue
  refine ⟨.refl _, fun t ht => absurd ht (hnone t), fun _ _ => rfl, fun t => ?_, fun t => ?_, fun _ => rfl,
    rfl, rfl, rfl, rfl, rfl⟩
  · exact (and_iff_left (hnone t)).symm
  · exact (or_iff_left (hnone t)).symm

theorem Pooled.of_perm (hp : Pooled s v) (hs' : Shaped s' v')
    (hperm : (s'.free ++ v'.armed).Perm (s.free ++ v.armed)) : Pooled s' v' :=
  ⟨hs', hperm.nodup_iff.2 hp.nodup, fun k hk => hp.bound k (hperm.mem_iff.1 hk)⟩

theorem length_free (s : Sched) : s.free.length = s.top := by
  rw [free, List.length_map, List.length_range]

theorem Pooled.length_le (hp : Pooled s v) : s.top + v.armed.length ≤ timerCount := by
  have hsubperm := List.subperm_of_subset hp.nodup fun k hk => List.mem_range.2 (hp.bound k hk)
  have hlength := hsubperm.length_le
  rwa [List.length_append, length_free, List.length_range] at hlength

theorem freeTimer_of_ne (htop : s.top ≠ timerCount) :
    s.freeTimer k = { s with pool := update s.pool s.top k, top := s.top + 1 } := if_pos htop

theorem free_push (s : Sched) (k : Nat) :
    { s with pool := update s.pool s.top k, top := s.top + 1 }.free = s.free ++ [k] := by
  have hbelow : ∀ i ∈ List.range s.top, update s.pool s.top k i = s.pool i := fun i hi =>
    update_of_ne (List.mem_range.1 hi).ne ..
  dsimp only [free]
  rw [List.range_succ, List.map_append, List.map_congr_left hbelow, List.map_singleton, update_self]

theorem free_pop (htop : s.top ≠ 0) :
    s.free = { s with top := s.top - 1 }.free ++ [s.pool (s.top - 1)] := by
  obtain ⟨top, htop⟩ := Nat.exists_eq_succ_of_ne_zero htop
  dsimp only [free]
  rw [htop, Nat.succ_sub_one, List.range_succ, List.map_append, List.map_singleton]

theorem Moved.free (h : Moved s s') : s'.free = s.free := by
  rw [Sched.free, Sched.free, h.top, h.pool]

theorem Pooled.wakeTimer (hp : Pooled s v) (harmed : v.armed = kept ++ k :: rest)
    (hw : Waiting s v [k]) (hdue : s.due k = true) :
    ∃ s' v', s.wakeTimer k = .ok s' ∧ Pooled s' v' ∧ v'.armed = kept ++ rest ∧ Woken s s' v v' [k] := by
  obtain ⟨t, ht, hthread, hexist, hstate⟩ := hw.waits k List.mem_cons_self hdue
  obtain ⟨s1, v1, hwake, hs1, hmoved, hslice, hblock, harmed1, hready⟩ :=
    hp.shaped.taskWakeup ht hexist hstate
  have hfree : s1.free = s.free := hmoved.free
  have htop : s1.top ≠ timerCount := by
    have hlength := hp.length_le
    have htop : s1.top = s.top := hmoved.top
    rw [harmed, List.length_append, List.length_cons] at hlength
    omega
  have hkept : k ∉ kept := by
    have hnodup := (List.nodup_append.1 hp.nodup).2.1
    rw [harmed] at hnodup
    exact fun hmem => (List.nodup_append.1 hnodup).2.2 k hmem k List.mem_cons_self rfl
  have herase : (v1.nodes .timerHead).erase (.timer k) = (kept ++ rest).map .timer := by
    rw [TaskLists.nodes, harmed1, harmed, ← List.map_erase fun _ _ heq => TaskNode.timer.inj heq,
      List.erase_append_right _ hkept, List.erase_cons_head]
  have hmem : TaskNode.timer k ∈ v1.nodes .timerHead := by
    rw [TaskLists.nodes, harmed1, harmed]
    exact List.mem_map_of_mem (List.mem_append_right _ List.mem_cons_self)
  have hdel := hs1.lists.del timerHead_mem_heads hmem
  rw [herase, ← TaskLists.nodes_setArmed] at hdel
  have hperm : (s1.free ++ [k] ++ (kept ++ rest)).Perm (s.free ++ v.armed) := by
    rw [hfree, List.append_assoc, harmed, List.singleton_append]
    exact List.perm_middle.symm.append_left s.free
  have hwakes : ∀ t', s.Wakes [k] t' ↔ t' = t := by
    intro t'
    constructor
    · rintro ⟨k', hk', _, hthread'⟩
      rw [List.mem_singleton.1 hk', hthread] at hthread'
      exact (TaskNode.run.inj hthread').symm
    · rintro rfl
      exact ⟨k, List.mem_cons_self, hdue, hthread⟩
  have hnodup : v.block.Nodup := (hp.shaped.lists.linked _ blockList_mem_heads).nodup.of_map
  rw [Sched.wakeTimer, hthread, hwake, ok_bind]
  dsimp only
  rw [freeTimer_of_ne (by exact htop)]
  have hs2 : Shaped { s1 with
      links := listDel s1.links (.timer k)
      pool := update s1.pool s1.top k
      top := s1.top + 1 } { v1 with armed := kept ++ rest } := ⟨hdel, hs1.ready, hs1.priority⟩
  have htimers := (free_push { s1 with links := listDel s1.links (.timer k) } k).symm ▸ hperm
  refine ⟨_, { v1 with armed := kept ++ rest }, rfl, hp.of_perm hs2 htimers, rfl, ?_⟩
  · refine ⟨htimers, fun t' ht' => ?_, fun t' ht' => ?_, fun t' => ?_, fun t' => ?_, hslice, hmoved.tasks,
      hmoved.cur, hmoved.idle, hmoved.gTick, hmoved.timer⟩
    · rw [(hwakes t').1 ht']
      exact (hmoved.state t).trans (setState_state_self s t .running)
    · have hne : t' ≠ t := fun heq => ht' ((hwakes t').2 heq)
      exact (hmoved.state t').trans (setState_state_of_ne hne)
    · rw [hwakes, and_comm]
      dsimp only
      rw [hblock]
      exact hnodup.mem_erase_iff
    · rw [hwakes]
      exact hready t'

theorem Waiting.of_woken (hw : Waiting s v (k :: rest)) (h : Woken s s' v v' [k]) (hk : k ∉ rest) :
    Waiting s' v' rest := by
  refine ⟨fun k' hk' hdue => ?_, fun k' hk' k'' hk'' hdue hthread => ?_⟩
  · rw [h.due] at hdue
    obtain ⟨t, ht, hthread, hexist, hstate⟩ := hw.waits k' (List.mem_cons_of_mem k hk') hdue
    have hother : ¬s.Wakes [k] t := by
      rintro ⟨k1, hk1, hdue1, hthread1⟩
      rw [List.mem_singleton.1 hk1] at hdue1 hthread1
      have heq := hw.distinct k List.mem_cons_self k' (List.mem_cons_of_mem k hk') hdue1
        (hthread1.trans hthread.symm)
      exact hk (heq ▸ hk')
    refine ⟨t, (h.block t).2 ⟨ht, hother⟩, ?_, ?_, ?_⟩
    · rwa [h.timer]
    · rwa [h.tasks]
    · rwa [h.state t hother]
  · rw [h.due] at hdue
    rw [h.timer] at hthread
    exact hw.distinct k' (List.mem_cons_of_mem k hk') k'' (List.mem_cons_of_mem k hk'') hdue hthread

theorem Pooled.wakeLoop {fuel : Nat} (hp : Pooled s v) (harmed : v.armed = kept ++ rest)
    (hw : Waiting s v rest) (hfuel : rest.length < fuel) :
    ∃ s' v', wakeLoop fuel s ((rest.map .timer).headD .timerHead) = .ok s' ∧ Pooled s' v' ∧
      v'.armed = kept ++ rest.filter (!s.due ·) ∧ Woken s s' v v' rest := by
  -- The timers of `kept` are behind the walk.
  induction rest generalizing s v kept fuel with
  | nil =>
    obtain ⟨fuel, rfl⟩ := Nat.exists_eq_succ_of_ne_zero (Nat.ne_of_gt hfuel)
    exact ⟨s, v, rfl, hp, harmed, .refl fun k hk => absurd hk List.not_mem_nil⟩
  | cons k rest ih =>
    obtain ⟨fuel, rfl⟩ := Nat.exists_eq_succ_of_ne_zero (Nat.ne_of_gt (Nat.zero_lt_of_lt hfuel))
    have hnodup : (k :: rest).Nodup := by
      have hnodup := (List.nodup_append.1 hp.nodup).2.1
      rw [harmed] at hnodup
      exact (List.nodup_append.1 hnodup).2.1
    have hnext : s.links.next (.timer k) = (rest.map .timer).headD .timerHead := by
      have hlinked := hp.shaped.lists.linked _ timerHead_mem_heads
      rw [TaskLists.nodes, harmed, List.map_append, List.map_cons] at hlinked
      exact hlinked.next_append
    have hhead : ((k :: rest).map TaskNode.timer).headD .timerHead = .timer k := rfl
    rw [hhead, Sched.wakeLoop, if_neg (by simp), timerEntry, ok_bind]
    dsimp only
    rw [hnext]
    -- Either way the walk goes on with the rest.
    obtain ⟨s1, v1, hstep, hp1, harmed1, hwoken⟩ : ∃ s1 v1,
        s.visitTimer k = .ok s1 ∧ Pooled s1 v1 ∧ v1.armed = kept ++ [k].filter (!s.due ·) ++ rest ∧
          Woken s s1 v v1 [k] := by
      rw [visitTimer]
      split
      · rename_i htime
        have hdue : s.due k = true := decide_eq_true htime
        obtain ⟨s', v', hwake, hp', harmed', hwoken⟩ := hp.wakeTimer harmed
          ⟨fun k' hk' => hw.waits k' (List.mem_singleton.1 hk' ▸ List.mem_cons_self),
            fun k1 hk1 k2 hk2 _ _ => (List.mem_singleton.1 hk1).trans (List.mem_singleton.1 hk2).symm⟩
          hdue
        refine ⟨s', v', hwake, hp', ?_, hwoken⟩
        rw [harmed', List.filter_cons_of_neg (by rw [hdue]; decide), List.filter_nil, List.append_nil]
      · rename_i htime
        have hdue : s.due k = false := decide_eq_false htime
        refine ⟨s, v, rfl, hp, ?_, .refl fun k' hk' => List.mem_singleton.1 hk' ▸ hdue⟩
        rw [harmed, List.filter_cons_of_pos (by rw [hdue]; decide), List.filter_nil, List.append_assoc]
        rfl
    have hw1 := hw.of_woken hwoken (List.nodup_cons.1 hnodup).1
    obtain ⟨s', v', hloop, hp', harmed', hwoken'⟩ := ih hp1 harmed1 hw1 (Nat.lt_of_succ_lt_succ hfuel)
    refine ⟨s', v', ?_, hp', ?_, hwoken.trans hwoken'⟩
    · rw [hstep, ok_bind]
      exact hloop
    · rw [harmed', hwoken.due, List.append_assoc, ← List.filter_append]
      rfl

theorem Pooled.advance (hp : Pooled s v)
    (hw : Waiting { s with gTick := (s.gTick + 10) % 2 ^ 64 } v v.armed) :
    ∃ s' v', s.advance = .ok s' ∧ Pooled s' v' ∧
      v'.armed = v.armed.filter (fun k => (s.gTick + 10) % 2 ^ 64 < (s.timer k).time) ∧
      Woken { s with gTick := (s.gTick + 10) % 2 ^ 64 } s' v v' v.armed := by
  have hp' : Pooled { s with gTick := (s.gTick + 10) % 2 ^ 64 } v :=
    ⟨hp.shaped.congr rfl rfl rfl, hp.nodup, hp.bound⟩
  have hfuel : v.armed.length < timerCount + 1 := by
    have hlength := hp.length_le
    omega
  obtain ⟨s', v', hloop, hpooled, harmed, hwoken⟩ := hp'.wakeLoop (List.nil_append _).symm hw hfuel
  refine ⟨s', v', ?_, hpooled, ?_, hwoken⟩
  · have hfirst : s.links.next .timerHead = (v.armed.map .timer).headD .timerHead :=
      (hp.shaped.lists.linked _ timerHead_mem_heads).next_head
    rw [Sched.advance]
    dsimp only
    rw [hfirst]
    exact hloop
  · rw [harmed, List.nil_append]
    refine List.filter_congr fun k _ => ?_
    rw [Sched.due, ← decide_not]
    exact decide_eq_decide.2 not_le

/-- The tasks that run on the first `n` CPUs, and their idle tasks, are in no ready queue. -/
structure Seated (n : Nat) (s : Sched) (v : TaskLists) : Prop where
  cur : ∀ c < n, s.cur c ∈ s.tasks ∧ ¬v.Ready (s.cur c)
  cur_inj : ∀ c < n, ∀ c' < n, s.cur c = s.cur c' → c = c'
  idle : ∀ c < n, s.idle c ∈ s.tasks ∧ (s.tcb (s.idle c)).state = .running ∧ ¬v.Ready (s.idle c)
  idle_inj : ∀ c < n, ∀ c' < n, s.idle c = s.idle c' → c = c'
  alone : ∀ c < n, ∀ c' < n, s.cur c' = s.idle c → c' = c

theorem Switched.cur {m : Nat} (h : Switched cpu m s s' v v') (c : Nat) :
    s'.cur c = if c = cpu then m else s.cur c := by
  rw [h.moved.cur]
  exact update_apply ..

theorem Switched.next_running {m : Nat} (h : Switched cpu m s s' v v') (hs : Shaped s v)
    (hidle : (s.tcb (s.idle cpu)).state = .running) : (s.tcb m).state = .running := by
  rcases h.next with ⟨i, hi, hmem⟩ | rfl
  · exact (hs.ready i hi m hmem).2.1
  · exact hidle

section

variable (hc : Seated n s v)
include hc

theorem Seated.idle_ne (hcpu : cpu < n) (hne : s.cur cpu ≠ s.idle cpu) :
    ∀ c < n, s.idle c ≠ s.cur cpu := by
  intro c hcn heq
  have hc := hc.alone c hcn cpu hcpu heq.symm
  exact hne (hc ▸ heq.symm)

theorem Seated.congr (hcur : s'.cur = s.cur) (hidle : s'.idle = s.idle)
    (htasks : s'.tasks = s.tasks) (hstate : ∀ c < n, (s'.tcb (s.idle c)).state = (s.tcb (s.idle c)).state)
    (hready : ∀ c < n, (v'.Ready (s.cur c) → v.Ready (s.cur c)) ∧ (v'.Ready (s.idle c) → v.Ready (s.idle c))) :
    Seated n s' v' := by
  refine ⟨fun c hcn => ?_, hcur ▸ hc.cur_inj, fun c hcn => ?_, hidle ▸ hc.idle_inj, ?_⟩
  · rw [hcur, htasks]
    exact (hc.cur c hcn).imp_right fun hnot hready' => hnot ((hready c hcn).1 hready')
  · rw [hidle, htasks, hstate c hcn]
    exact (hc.idle c hcn).imp_right (And.imp_right fun hnot hready' => hnot ((hready c hcn).2 hready'))
  · rw [hcur, hidle]
    exact hc.alone

theorem Seated.switch {m : Nat} (hs : Shaped s v) (hcpu : cpu < n)
    (h : Switched cpu m s s' v v') : Seated n s' v' := by
  have hcur := h.cur
  have hnew : ∀ c < n, c ≠ cpu → s.cur c ≠ m := by
    rintro c hcn hne rfl
    exact h.next.elim (hc.cur c hcn).2 fun heq => hne (hc.alone cpu hcpu c hcn heq)
  have hidle : s'.idle = s.idle := h.moved.idle
  have htasks : s'.tasks = s.tasks := h.moved.tasks
  have hstate : ∀ t, (s'.tcb t).state = (s.tcb t).state := h.moved.state
  refine ⟨fun c hcn => ?_, fun c hcn c' hcn' heq => ?_, fun c hcn => ?_, ?_, fun c hcn c' hcn' heq => ?_⟩
  · rw [hcur, htasks, h.ready]
    split
    · refine ⟨?_, fun hready => hready.2 rfl⟩
      rcases h.next with ⟨i, hi, hmem⟩ | rfl
      · exact (hs.ready i hi m hmem).1
      · exact (hc.idle cpu hcpu).1
    · rename_i hne
      refine ⟨(hc.cur c hcn).1, ?_⟩
      rintro ⟨hready | ⟨heq, _⟩, _⟩
      · exact (hc.cur c hcn).2 hready
      · exact hne (hc.cur_inj c hcn cpu hcpu heq)
  · rw [hcur, hcur] at heq
    split at heq <;> split at heq
    · rename_i hc1 hc2
      exact hc1.trans hc2.symm
    · rename_i hc1 hc2
      exact absurd heq.symm (hnew c' hcn' hc2)
    · rename_i hc1 hc2
      exact absurd heq (hnew c hcn hc1)
    · exact hc.cur_inj c hcn c' hcn' heq
  · rw [hidle, htasks, hstate, h.ready]
    refine ⟨(hc.idle c hcn).1, (hc.idle c hcn).2.1, ?_⟩
    rintro ⟨hready | ⟨heq, hne, _⟩, _⟩
    · exact (hc.idle c hcn).2.2 hready
    · rw [hc.alone c hcn cpu hcpu heq.symm] at hne
      exact hne rfl
  · rw [hidle]
    exact hc.idle_inj
  · rw [hcur, hidle] at heq
    split at heq
    · rename_i hc'
      rcases h.next with hready | hm
      · exact absurd (heq ▸ hready) (hc.idle c hcn).2.2
      · rw [hc']
        exact hc.idle_inj cpu hcpu c hcn (hm.symm.trans heq)
    · exact hc.alone c hcn c' hcn' heq

theorem Seated.woken (h : Woken s s' v v' l)
    (hcur : ∀ c < n, ¬s.Wakes l (s.cur c)) (hidle : ∀ c < n, ¬s.Wakes l (s.idle c)) : Seated n s' v' :=
  hc.congr h.cur h.idle h.tasks (fun c hcn => h.state _ (hidle c hcn)) fun c hcn =>
    ⟨fun hready => ((h.ready _).1 hready).resolve_right (hcur c hcn),
      fun hready => ((h.ready _).1 hready).resolve_right (hidle c hcn)⟩

theorem Seated.of_moved (h : Moved s s') : Seated n s' v :=
  hc.congr h.cur h.idle h.tasks (fun _ _ => h.state _) fun _ _ => ⟨id, id⟩

end

/-- Each blocked task sleeps, and each armed timer is the one of a blocked task. -/
structure Sleepers (s : Sched) (v : TaskLists) : Prop where
  blocked : ∀ t ∈ v.block, t ∈ s.tasks ∧ (s.tcb t).state ≠ .running
  thread : ∀ k ∈ v.armed, ∃ t ∈ v.block, (s.timer k).thread = .run t
  distinct : ∀ k ∈ v.armed, ∀ k' ∈ v.armed, (s.timer k).thread = (s.timer k').thread → k = k'

/-- What holds between two calls. -/
structure Timed (n : Nat) (s : Sched) (v : TaskLists) : Prop where
  shaped : Shaped s v
  partition : (s.free ++ v.armed).Perm (List.range timerCount)
  seated : Seated n s v
  sleepers : Sleepers s v
  running : ∀ c < n, (s.tcb (s.cur c)).state = .running

theorem Timed.pooled (ht : Timed n s v) : Pooled s v :=
  ⟨ht.shaped, ht.partition.nodup_iff.2 List.nodup_range,
    fun _ hk => List.mem_range.1 (ht.partition.mem_iff.1 hk)⟩

theorem Timed.length (ht : Timed n s v) : s.top + v.armed.length = timerCount := by
  have hlength := ht.partition.length_eq
  rwa [List.length_append, length_free, List.length_range] at hlength

theorem Sleepers.waiting (h : Sleepers s v) (htick : s'.timer = s.timer) (htasks : s'.tasks = s.tasks)
    (htcb : s'.tcb = s.tcb) : Waiting s' v v.armed := by
  refine ⟨fun k hk _ => ?_, fun k hk k' hk' _ => ?_⟩
  · obtain ⟨t, ht, hthread⟩ := h.thread k hk
    rw [htick, htasks, htcb]
    exact ⟨t, ht, hthread, h.blocked t ht⟩
  · rw [htick]
    exact h.distinct k hk k' hk'

theorem Sleepers.not_wakes (h : Sleepers s v) (hstate : (s.tcb t).state = .running)
    (htimer : s'.timer = s.timer) : ¬s'.Wakes v.armed t := by
  rintro ⟨k, hk, _, hthread⟩
  rw [htimer] at hthread
  obtain ⟨t', ht', hthread'⟩ := h.thread k hk
  cases hthread.symm.trans hthread'
  exact (h.blocked t ht').2 hstate

theorem Timed.of_moved {cur : Nat → Nat} (hpart : (s.free ++ v.armed).Perm (List.range timerCount))
    (hsl : Sleepers s v) (h : Moved { s with cur } s') (hs' : Shaped s' v') (harmed : v'.armed = v.armed)
    (hblock : v'.block = v.block) (hc : Seated n s' v') (hrun : ∀ c < n, (s.tcb (cur c)).state = .running) :
    Timed n s' v' := by
  refine ⟨hs', ?_, hc, ⟨?_, ?_, ?_⟩, ?_⟩
  · rw [harmed, h.free]
    exact hpart
  · intro t ht
    rw [h.tasks, h.state]
    exact hsl.blocked t (hblock ▸ ht)
  · rw [harmed, hblock, h.timer]
    exact hsl.thread
  · rw [harmed, h.timer]
    exact hsl.distinct
  · intro c hcn
    rw [h.cur, h.state]
    exact hrun c hcn

theorem Timed.of_switched {m : Nat} (hs : Shaped s v)
    (hpart : (s.free ++ v.armed).Perm (List.range timerCount)) (hc : Seated n s v) (hsl : Sleepers s v)
    (hrun : ∀ c < n, c ≠ cpu → (s.tcb (s.cur c)).state = .running) (hcpu : cpu < n) (hs' : Shaped s' v')
    (h : Switched cpu m s s' v v') : Timed n s' v' := by
  refine .of_moved hpart hsl h.moved hs' h.armed h.block (hc.switch hs hcpu h) fun c hcn => ?_
  rw [update_apply]
  split
  · exact h.next_running hs (hc.idle cpu hcpu).2.1
  · rename_i hne
    exact hrun c hcn hne

theorem timer_notMem (hk : k ∉ v.armed) : ∀ a ∈ heads, TaskNode.timer k ∉ a :: v.nodes a := by
  intro a ha hmem
  rcases List.mem_cons.1 hmem with rfl | hmem
  · exact timer_notMem_heads ha
  · cases a with
    | timerHead =>
      obtain ⟨k', hk', heq⟩ := List.mem_map.1 hmem
      cases heq
      exact hk hk'
    | queue i =>
      obtain ⟨_, _, heq⟩ := List.mem_map.1 hmem
      cases heq
    | blockList =>
      obtain ⟨_, _, heq⟩ := List.mem_map.1 hmem
      cases heq
    | _ => cases hmem

theorem Pooled.armTimer (hp : Pooled s v) (htop : s.top ≠ 0) (cpu msc : Nat) :
    Shaped ({ s with top := s.top - 1 }.armTimer (s.pool (s.top - 1)) cpu msc)
        { v with armed := v.armed ++ [s.pool (s.top - 1)] } ∧
      ({ s with top := s.top - 1 }.free ++ (v.armed ++ [s.pool (s.top - 1)])).Perm (s.free ++ v.armed) ∧
      s.pool (s.top - 1) ∈ s.free ∧ s.pool (s.top - 1) ∉ v.armed := by
  have hmem : s.pool (s.top - 1) ∈ s.free := by
    rw [free_pop htop]
    exact List.mem_append_right _ List.mem_cons_self
  have hnew : s.pool (s.top - 1) ∉ v.armed := fun harmed =>
    (List.nodup_append.1 hp.nodup).2.2 _ hmem _ harmed rfl
  refine ⟨⟨?_, hp.shaped.ready, hp.shaped.priority⟩, ?_, hmem, hnew⟩
  · rw [TaskLists.nodes_setArmed, List.map_append]
    exact hp.shaped.lists.addPrev timerHead_mem_heads (timer_notMem hnew)
  · rw [free_pop htop, List.append_assoc]
    exact List.perm_append_comm.append_left _

theorem Shaped.joinBlock (hs : Shaped s v) (hready : ¬v.Ready t) (hblock : t ∉ v.block) :
    Shaped (s.joinBlock t) { v with block := t :: v.block } := by
  refine ⟨?_, hs.ready, hs.priority⟩
  rw [TaskLists.nodes_setBlock, List.map_cons]
  exact hs.lists.addNext blockList_mem_heads (run_notMem hready hblock)

/-- The state in which `ms_sleep_until` calls `schedule`. -/
def fallAsleep (s : Sched) (cpu msc : Nat) : Sched :=
  (({ s with top := s.top - 1 }.armTimer (s.pool (s.top - 1)) cpu msc).joinBlock (s.cur cpu)).setState
    (s.cur cpu) .sleeping

theorem msSleepUntil_of_top (htop : s.top ≠ 0) (cpu msc : Nat) :
    s.msSleepUntil cpu msc = ((s.fallAsleep cpu msc).schedule cpu >>= fun s => .ok (true, s)) := by
  rw [msSleepUntil, allocTimer, if_pos htop]
  rfl

theorem msSleepUntil_of_empty (htop : s.top = 0) (cpu msc : Nat) :
    s.msSleepUntil cpu msc = .ok (false, s) := by
  rw [msSleepUntil, allocTimer, if_neg (not_not.2 htop)]

theorem Timed.cur_notMem_block (ht : Timed n s v) (hcpu : cpu < n) : s.cur cpu ∉ v.block :=
  fun hmem => (ht.sleepers.blocked _ hmem).2 (ht.running cpu hcpu)

theorem Timed.fallAsleep (ht : Timed n s v) (hcpu : cpu < n) (hidle : s.cur cpu ≠ s.idle cpu) (msc : Nat)
    (htop : s.top ≠ 0) :
    Shaped (s.fallAsleep cpu msc)
        { v with block := s.cur cpu :: v.block, armed := v.armed ++ [s.pool (s.top - 1)] } ∧
      ((s.fallAsleep cpu msc).free ++ (v.armed ++ [s.pool (s.top - 1)])).Perm (List.range timerCount) ∧
      Seated n (s.fallAsleep cpu msc)
        { v with block := s.cur cpu :: v.block, armed := v.armed ++ [s.pool (s.top - 1)] } ∧
      Sleepers (s.fallAsleep cpu msc)
        { v with block := s.cur cpu :: v.block, armed := v.armed ++ [s.pool (s.top - 1)] } := by
  obtain ⟨hs, hperm, _, hnew⟩ := ht.pooled.armTimer htop cpu msc
  have hready := (ht.seated.cur cpu hcpu).2
  have hblock := ht.cur_notMem_block hcpu
  have hstate : ∀ t ≠ s.cur cpu, ((s.fallAsleep cpu msc).tcb t).state = (s.tcb t).state :=
    fun t hne => setState_state_of_ne hne
  have hold : ∀ k ∈ v.armed, (s.fallAsleep cpu msc).timer k = s.timer k := by
    intro k hk
    have hne : k ≠ s.pool (s.top - 1) := fun heq => hnew (heq ▸ hk)
    exact update_of_ne hne ..
  have hself : (s.fallAsleep cpu msc).timer (s.pool (s.top - 1)) =
      { thread := .run (s.cur cpu), time := msc } :=
    update_self ..
  refine ⟨?_, hperm.trans ht.partition,
    ht.seated.congr rfl rfl rfl (fun c hcn => hstate _ ?_) fun _ _ => ⟨id, id⟩, ⟨?_, ?_, ?_⟩⟩
  · exact (hs.joinBlock hready hblock).setTcb hready (ht.shaped.priority _)
  · exact ht.seated.idle_ne hcpu hidle c hcn
  · intro t hmem
    rcases List.mem_cons.1 hmem with rfl | hmem
    · refine ⟨(ht.seated.cur cpu hcpu).1, ?_⟩
      rw [Sched.fallAsleep, setState_state_self]
      nofun
    · rw [hstate t fun heq => hblock (heq ▸ hmem)]
      exact ht.sleepers.blocked t hmem
  · intro k hmem
    rcases List.mem_append.1 hmem with hk | hk
    · rw [hold k hk]
      obtain ⟨t, hmem', hthread⟩ := ht.sleepers.thread k hk
      exact ⟨t, List.mem_cons_of_mem _ hmem', hthread⟩
    · rw [List.mem_singleton.1 hk, hself]
      exact ⟨s.cur cpu, List.mem_cons_self, rfl⟩
  · -- An old timer is for a task that slept before, the new one for the task that ran.
    have hother : ∀ k ∈ v.armed, (s.timer k).thread ≠ .run (s.cur cpu) := by
      intro k hk heq
      obtain ⟨t, hmem', hthread⟩ := ht.sleepers.thread k hk
      cases hthread.symm.trans heq
      exact hblock hmem'
    intro k hmem k' hmem' hthread
    rcases List.mem_append.1 hmem with hk | hk <;> rcases List.mem_append.1 hmem' with hk' | hk'
    · rw [hold k hk, hold k' hk'] at hthread
      exact ht.sleepers.distinct k hk k' hk' hthread
    · rw [hold k hk, List.mem_singleton.1 hk', hself] at hthread
      exact absurd hthread (hother k hk)
    · rw [hold k' hk', List.mem_singleton.1 hk, hself] at hthread
      exact absurd hthread.symm (hother k' hk')
    · exact (List.mem_singleton.1 hk).trans (List.mem_singleton.1 hk').symm

/-- What a registration does. -/
structure Registered (cpu msc : Nat) (s s' : Sched) (v v' : TaskLists) : Prop where
  armed : ∃ k ∈ s.free, v'.armed = v.armed ++ [k] ∧
    s'.timer = update s.timer k { thread := .run (s.cur cpu), time := msc }
  block : v'.block = s.cur cpu :: v.block
  sleeping : (s'.tcb (s.cur cpu)).state = .sleeping
  state : ∀ t ≠ s.cur cpu, (s'.tcb t).state = (s.tcb t).state
  gTick : s'.gTick = s.gTick

theorem Timed.msSleepUntil (ht : Timed n s v) (hcpu : cpu < n) (hidle : s.cur cpu ≠ s.idle cpu) (msc : Nat)
    (htop : s.top ≠ 0) :
    ∃ s' v', s.msSleepUntil cpu msc = .ok (true, s') ∧ Timed n s' v' ∧ Registered cpu msc s s' v v' := by
  obtain ⟨hs, hpart, hc, hsl⟩ := ht.fallAsleep hcpu hidle msc htop
  have hsleeping : ((s.fallAsleep cpu msc).tcb (s.cur cpu)).state = .sleeping := setState_state_self ..
  obtain ⟨m, s', v', hok, hs', hswitch⟩ := hs.schedule cpu (hc.cur cpu hcpu).2
    (hc.cur cpu hcpu).1 (fun hrun => absurd (hsleeping.symm.trans hrun) (by nofun)) (hc.idle cpu hcpu).2.1
  refine ⟨s', v', ?_, .of_switched hs hpart hc hsl (fun c hcn hne => ?_) hcpu hs' hswitch,
    ⟨⟨_, ?_, hswitch.armed, hswitch.moved.timer⟩, hswitch.block, ?_, fun t hne => ?_,
      hswitch.moved.gTick⟩⟩
  · rw [msSleepUntil_of_top htop, hok, ok_bind]
  · have hcur : s.cur c ≠ s.cur cpu := fun heq => hne (ht.seated.cur_inj c hcn cpu hcpu heq)
    exact (setState_state_of_ne hcur).trans (ht.running c hcn)
  · exact (ht.pooled.armTimer htop cpu msc).2.2.1
  · exact (hswitch.moved.state _).trans hsleeping
  · exact (hswitch.moved.state t).trans (setState_state_of_ne hne)

/-- What a tick of the first CPU does: the timers whose time has come, and no others, are released, and
their tasks, and no others, are woken. -/
structure Rung (s s' : Sched) (v v' : TaskLists) : Prop where
  gTick : s'.gTick = (s.gTick + 10) % 2 ^ 64
  timer : s'.timer = s.timer
  armed : v'.armed = v.armed.filter fun k => s'.gTick < (s.timer k).time
  block : ∀ t, t ∈ v'.block ↔ t ∈ v.block ∧
    ¬∃ k ∈ v.armed, (s.timer k).time ≤ s'.gTick ∧ (s.timer k).thread = .run t
  state : ∀ t ∈ v'.block, (s'.tcb t).state = (s.tcb t).state
  woken : ∀ t ∈ v.block, t ∉ v'.block → (s'.tcb t).state = .running

/-- A tick of another CPU. -/
structure Passed (s s' : Sched) (v v' : TaskLists) : Prop where
  gTick : s'.gTick = s.gTick
  timer : s'.timer = s.timer
  armed : v'.armed = v.armed
  block : v'.block = v.block
  state : ∀ t, (s'.tcb t).state = (s.tcb t).state

theorem Timed.sliceTick (ht : Timed n s v) (hcpu : cpu < n) :
    ∃ s' v', s.sliceTick cpu = .ok s' ∧ Timed n s' v' ∧ Passed s s' v v' := by
  rw [Sched.sliceTick]
  split
  · obtain ⟨m, s', v', hok, hs', hswitch⟩ := ht.shaped.schedule cpu (ht.seated.cur cpu hcpu).2
      (ht.seated.cur cpu hcpu).1 (fun _ _ => ht.cur_notMem_block hcpu) (ht.seated.idle cpu hcpu).2.1
    have ht' : Timed n s' v' := .of_switched ht.shaped ht.partition ht.seated ht.sleepers
      (fun c hcn _ => ht.running c hcn) hcpu hs' hswitch
    exact ⟨s', v', hok, ht', hswitch.moved.gTick, hswitch.moved.timer, hswitch.armed, hswitch.block,
      hswitch.moved.state⟩
  · have hset : ∀ tcb : Tcb, tcb.state = (s.tcb (s.cur cpu)).state → tcb.priority ≤ taskMaxPriority →
        Timed n (s.setTcb (s.cur cpu) tcb) v ∧ Passed s (s.setTcb (s.cur cpu) tcb) v v := by
      intro tcb hstate hpriority
      have hmoved : Moved s (s.setTcb (s.cur cpu) tcb) := .setTcb hstate
      have hs' := ht.shaped.setTcb (ht.seated.cur cpu hcpu).2 hpriority
      exact ⟨.of_moved ht.partition ht.sleepers hmoved hs' rfl rfl (ht.seated.of_moved hmoved) ht.running,
        rfl, rfl, rfl, rfl, hmoved.state⟩
    exact ⟨_, v, rfl, hset _ rfl (ht.shaped.priority (s.cur cpu))⟩

theorem Timed.advance (ht : Timed n s v) :
    ∃ s' v', s.advance = .ok s' ∧ Timed n s' v' ∧ Rung s s' v v' := by
  obtain ⟨s', v', hok, hp, harmed, hwoken⟩ := ht.pooled.advance (ht.sleepers.waiting rfl rfl rfl)
  have hrunning : ∀ t, (s.tcb t).state = .running →
      ¬{ s with gTick := (s.gTick + 10) % 2 ^ 64 }.Wakes v.armed t := fun t hstate =>
    ht.sleepers.not_wakes hstate rfl
  have htimer : s'.timer = s.timer := hwoken.timer
  have hgTick : s'.gTick = (s.gTick + 10) % 2 ^ 64 := hwoken.gTick
  have hkept : ∀ k, k ∈ v'.armed ↔ k ∈ v.armed ∧ (s.gTick + 10) % 2 ^ 64 < (s.timer k).time := by
    intro k
    rw [harmed, List.mem_filter, decide_eq_true_iff]
  have hsleepers : Sleepers s' v' := by
    refine ⟨fun t hmem => ?_, fun k hk => ?_, fun k hk k' hk' => ?_⟩
    · obtain ⟨hblock, hnot⟩ := (hwoken.block t).1 hmem
      rw [hwoken.tasks, hwoken.state t hnot]
      exact ht.sleepers.blocked t hblock
    · obtain ⟨hold, hlater⟩ := (hkept k).1 hk
      obtain ⟨t, hmem, hthread⟩ := ht.sleepers.thread k hold
      rw [htimer]
      refine ⟨t, (hwoken.block t).2 ⟨hmem, ?_⟩, hthread⟩
      rintro ⟨k', hk', hdue, hthread'⟩
      cases ht.sleepers.distinct k hold k' hk' (hthread.trans hthread'.symm)
      exact absurd (of_decide_eq_true hdue) (not_le.2 hlater)
    · rw [htimer]
      exact ht.sleepers.distinct k ((hkept k).1 hk).1 k' ((hkept k').1 hk').1
  have hseated : Seated n s' v' := by
    have hc : Seated n { s with gTick := (s.gTick + 10) % 2 ^ 64 } v := { ht.seated with }
    exact hc.woken hwoken (fun c hcn => hrunning _ (ht.running c hcn))
      fun c hcn => hrunning _ (ht.seated.idle c hcn).2.1
  refine ⟨s', v', hok, ⟨hp.shaped, hwoken.timers.trans ht.partition, hseated, hsleepers, fun c hcn => ?_⟩,
    ⟨hgTick, htimer, ?_, fun t => ?_, fun t hmem => ?_, fun t hmem hnot => ?_⟩⟩
  · rw [hwoken.cur, hwoken.state _ (hrunning _ (ht.running c hcn))]
    exact ht.running c hcn
  · rw [hgTick]
    exact harmed
  · rw [hwoken.block t, hgTick]
    refine and_congr_right fun _ => not_congr (exists_congr fun k => and_congr_right fun _ => ?_)
    exact and_congr_left fun _ => decide_eq_true_iff
  · exact hwoken.state t ((hwoken.block t).1 hmem).2
  · exact hwoken.wakes t (not_not.1 fun hw => hnot ((hwoken.block t).2 ⟨hmem, hw⟩))

theorem Rung.passed (h : Rung s s' v v') (h' : Passed s' s'' v' v'') : Rung s s'' v v'' where
  gTick := h'.gTick.trans h.gTick
  timer := h'.timer.trans h.timer
  armed := by rw [h'.armed, h'.gTick, h.armed]
  block t := by rw [h'.block, h'.gTick, h.block]
  state t ht := (h'.state t).trans (h.state t (h'.block ▸ ht))
  woken t ht hnot := (h'.state t).trans (h.woken t ht (h'.block ▸ hnot))

theorem Timed.clockIsr (ht : Timed n s v) (hcpu : cpu < n) :
    ∃ s' v', s.clockIsr cpu = .ok s' ∧ Timed n s' v' ∧ (cpu = 0 → Rung s s' v v') ∧
      (cpu ≠ 0 → Passed s s' v v') := by
  rw [Sched.clockIsr]
  by_cases hfirst : cpu = 0
  · obtain ⟨s1, v1, hadvance, ht1, hrung⟩ := ht.advance
    obtain ⟨s', v', hslice, ht', hpassed⟩ := ht1.sliceTick hcpu
    refine ⟨s', v', ?_, ht', fun _ => hrung.passed hpassed, fun hne => absurd hfirst hne⟩
    rw [if_pos hfirst, hadvance, ok_bind]
    exact hslice
  · obtain ⟨s', v', hslice, ht', hpassed⟩ := ht.sliceTick hcpu
    refine ⟨s', v', ?_, ht', fun heq => absurd heq hfirst, fun _ => hpassed⟩
    rw [if_neg hfirst, ok_bind]
    exact hslice

/-- Calls of `ms_sleep_until` by tasks that run, and ticks, each to its end. `C` is what each tick meets:
on which CPU it is, and the state it ends in. The idle tasks call nothing. -/
inductive TimerRun (n : Nat) (C : Nat → Sched → Prop) (s0 : Sched) : Sched → Prop
  | start : TimerRun n C s0 s0
  | sleep {s s' : Sched} {cpu msc : Nat} {done : Bool} : TimerRun n C s0 s → cpu < n →
      s.cur cpu ≠ s.idle cpu → s.msSleepUntil cpu msc = .ok (done, s') → TimerRun n C s0 s'
  | tick {s s' : Sched} {cpu : Nat} : TimerRun n C s0 s → cpu < n → s.clockIsr cpu = .ok s' → C cpu s' →
      TimerRun n C s0 s'

/-- The scheduler before `thread_timer_init`: any tasks may be ready, run or sleep. -/
structure Booted (n : Nat) (s : Sched) (v : TaskLists) : Prop where
  lists : Lists s.links {a | a ∈ queues ∨ a = .blockList} v.nodes
  armed : v.armed = []
  ready : ∀ i ≤ taskMaxPriority, ∀ t ∈ v.ready i,
    t ∈ s.tasks ∧ (s.tcb t).state = .running ∧ (s.tcb t).priority = i
  priority : ∀ t, (s.tcb t).priority ≤ taskMaxPriority
  seated : Seated n s v
  blocked : ∀ t ∈ v.block, t ∈ s.tasks ∧ (s.tcb t).state ≠ .running
  running : ∀ c < n, (s.tcb (s.cur c)).state = .running

theorem Booted.timed (h : Booted n s v) : Timed n s.threadTimerInit v := by
  have hheads : heads = insert .timerHead {a | a ∈ queues ∨ a = .blockList} := by
    ext a
    change (_ ∨ _ ∨ _) ↔ (_ ∨ _ ∨ _)
    tauto
  have hnew : ∀ b ∈ {a | a ∈ queues ∨ a = TaskNode.blockList}, TaskNode.timerHead ∉ b :: v.nodes b := by
    rintro b (⟨i, _, rfl⟩ | rfl) hmem
    all_goals
      rcases List.mem_cons.1 hmem with heq | hmem
      · cases heq
      · obtain ⟨_, _, heq⟩ := List.mem_map.1 hmem
        cases heq
  have hlists := h.lists.headerInit_insert hnew (by rw [TaskLists.nodes, h.armed, List.map_nil])
  rw [← hheads] at hlists
  have hfree : s.threadTimerInit.free = List.range timerCount := by
    refine (List.map_congr_left fun i hi => ?_).trans (List.map_id _)
    exact if_pos (List.mem_range.1 hi)
  refine ⟨⟨hlists, h.ready, h.priority⟩, ?_, { h.seated with }, ⟨h.blocked, ?_, ?_⟩, h.running⟩
  · rw [hfree, h.armed, List.append_nil]
  · rw [h.armed]
    intro k hk
    cases hk
  · rw [h.armed]
    intro k hk
    cases hk

theorem Timed.sleep_cases {msc : Nat} {done : Bool} (ht : Timed n s v) (hcpu : cpu < n)
    (hidle : s.cur cpu ≠ s.idle cpu) (hcall : s.msSleepUntil cpu msc = .ok (done, s')) :
    s' = s ∨ ∃ v', Timed n s' v' ∧ Registered cpu msc s s' v v' := by
  by_cases htop : s.top = 0
  · rw [msSleepUntil_of_empty htop] at hcall
    cases hcall
    exact Or.inl rfl
  · obtain ⟨s1, v1, hok, ht1, hreg⟩ := ht.msSleepUntil hcpu hidle msc htop
    cases hcall.symm.trans hok
    exact Or.inr ⟨v1, ht1, hreg⟩

theorem TimerRun.timed {C : Nat → Sched → Prop} (hrun : TimerRun n C s s') (ht : Timed n s v) :
    ∃ v', Timed n s' v' := by
  induction hrun with
  | start => exact ⟨v, ht⟩
  | sleep _ hcpu hidle hcall ih =>
    obtain ⟨v1, ht1⟩ := ih
    rcases ht1.sleep_cases hcpu hidle hcall with rfl | ⟨v2, ht2, _⟩
    · exact ⟨v1, ht1⟩
    · exact ⟨v2, ht2⟩
  | tick _ hcpu hcall _ ih =>
    obtain ⟨v1, ht1⟩ := ih
    obtain ⟨s2, v2, hok, ht2, _⟩ := ht1.clockIsr hcpu
    cases hcall.symm.trans hok
    exact ⟨v2, ht2⟩

/-- No tick of the first CPU reaches the time `d`. -/
def Before (d : Nat) (cpu : Nat) (s : Sched) : Prop := cpu = 0 → s.gTick < d

theorem TimerRun.armed (hrun : TimerRun n (Before (s.timer k).time) s s') (ht : Timed n s v)
    (hk : k ∈ v.armed) : ∃ v', Timed n s' v' ∧ k ∈ v'.armed ∧ s'.timer k = s.timer k := by
  induction hrun with
  | start => exact ⟨v, ht, hk, rfl⟩
  | sleep _ hcpu hidle hcall ih =>
    obtain ⟨v1, ht1, hk1, htimer1⟩ := ih
    rcases ht1.sleep_cases hcpu hidle hcall with rfl | ⟨v2, ht2, hreg⟩
    · exact ⟨v1, ht1, hk1, htimer1⟩
    · obtain ⟨k', hfree, harmed, htimer⟩ := hreg.armed
      have hne : k ≠ k' := fun heq => (List.nodup_append.1 ht1.pooled.nodup).2.2 k' hfree k hk1 heq.symm
      refine ⟨v2, ht2, ?_, ?_⟩
      · rw [harmed]
        exact List.mem_append_left _ hk1
      · rw [htimer, update_of_ne hne, htimer1]
  | @tick _ _ cpu _ hcpu hcall hbefore ih =>
    obtain ⟨v1, ht1, hk1, htimer1⟩ := ih
    obtain ⟨s2, v2, hok, ht2, hfirst, hother⟩ := ht1.clockIsr hcpu
    cases hcall.symm.trans hok
    by_cases hzero : cpu = 0
    · have hrung := hfirst hzero
      refine ⟨v2, ht2, ?_, ?_⟩
      · rw [hrung.armed, List.mem_filter, decide_eq_true_iff, htimer1]
        exact ⟨hk1, hbefore hzero⟩
      · rw [hrung.timer, htimer1]
    · have hpassed := hother hzero
      refine ⟨v2, ht2, ?_, ?_⟩
      · rw [hpassed.armed]
        exact hk1
      · rw [hpassed.timer, htimer1]

/-- What is asked of the timers at a state between two calls. -/
structure Conserved (n : Nat) (s : Sched) (v : TaskLists) : Prop where
  shaped : Shaped s v
  partition : (s.free ++ v.armed).Perm (List.range timerCount)
  sleepers : Sleepers s v
  sleep : ∀ cpu < n, s.cur cpu ≠ s.idle cpu → ∀ msc,
    v.armed.length = timerCount ∧ s.msSleepUntil cpu msc = .ok (false, s) ∨
    v.armed.length < timerCount ∧ ∃ s' v', s.msSleepUntil cpu msc = .ok (true, s') ∧ Shaped s' v' ∧
      Registered cpu msc s s' v v'
  tick : ∀ cpu < n, ∃ s' v', s.clockIsr cpu = .ok s' ∧ Shaped s' v' ∧ (cpu = 0 → Rung s s' v v') ∧
    (cpu ≠ 0 → Passed s s' v v')
  /-- A task sleeps until the first tick at which its time has come. -/
  woken : ∀ k ∈ v.armed, ∀ t, (s.timer k).thread = .run t → ∀ s',
    TimerRun n (Before (s.timer k).time) s s' → ∃ v', Shaped s' v' ∧ k ∈ v'.armed ∧
      s'.timer k = s.timer k ∧ t ∈ v'.block ∧ (s'.tcb t).state ≠ .running ∧
      ∀ s'', 0 < n → s'.clockIsr 0 = .ok s'' → (s.timer k).time ≤ s''.gTick →
        ∃ v'', Shaped s'' v'' ∧ k ∉ v''.armed ∧ t ∉ v''.block ∧ (s''.tcb t).state = .running

theorem Timed.conserved (ht : Timed n s v) : Conserved n s v where
  shaped := ht.shaped
  partition := ht.partition
  sleepers := ht.sleepers
  sleep cpu hcpu hidle msc := by
    have hlength := ht.length
    by_cases htop : s.top = 0
    · exact Or.inl ⟨by omega, msSleepUntil_of_empty htop cpu msc⟩
    · obtain ⟨s', v', hok, ht', hreg⟩ := ht.msSleepUntil hcpu hidle msc htop
      exact Or.inr ⟨by omega, s', v', hok, ht'.shaped, hreg⟩
  tick cpu hcpu := by
    obtain ⟨s', v', hok, ht', hrest⟩ := ht.clockIsr hcpu
    exact ⟨s', v', hok, ht'.shaped, hrest⟩
  woken k hk t hthread s' hrun := by
    obtain ⟨v', ht', hk', htimer⟩ := hrun.armed ht hk
    have hblock : t ∈ v'.block := by
      obtain ⟨t', hmem, hthread'⟩ := ht'.sleepers.thread k hk'
      rw [htimer, hthread] at hthread'
      cases hthread'
      exact hmem
    refine ⟨v', ht'.shaped, hk', htimer, hblock, (ht'.sleepers.blocked t hblock).2, ?_⟩
    intro s'' hn hcall hdue
    obtain ⟨s2, v'', hok, ht'', hfirst, _⟩ := ht'.clockIsr hn
    cases hcall.symm.trans hok
    have hrung := hfirst rfl
    have hwoken : t ∉ v''.block := by
      intro hmem
      refine ((hrung.block t).1 hmem).2 ⟨k, hk', ?_, ?_⟩
      · rwa [htimer]
      · rwa [htimer]
    refine ⟨v'', ht''.shaped, fun hmem => ?_, hwoken, hrung.woken t hblock hwoken⟩
    rw [hrung.armed, List.mem_filter, decide_eq_true_iff, htimer] at hmem
    exact absurd hdue (not_le.2 hmem.2)

/-- The twenty timers are on the stack or armed, a registration fails exactly when all are armed, and a
tick wakes and releases exactly those whose time has come, after any registrations and ticks. -/
theorem timerRun_conserved (hboot : Booted n s v)
    (hrun : TimerRun n (fun _ _ => True) s.threadTimerInit s') : ∃ v', Conserved n s' v' := by
  obtain ⟨v', ht⟩ := hrun.timed hboot.timed
  exact ⟨v', ht.conserved⟩

def oneTask : Sched where
  links := { next := id, prev := id }
  tasks := [0, 1]
  tcb := fun t =>
    { pid := t
      state := .running
      priority := taskMaxPriority
      timerSlice := if t = 0 then 0 else timeSliceLength }
  cur := fun _ => 1
  idle := fun _ => 0
  updatePriorityTime := 2000
  gTick := 0
  timer := fun _ => { thread := .blockList, time := 0 }
  pool := fun _ => 0
  top := 0

theorem oneTask_booted : Booted 1 oneTask { ready := fun _ => [], block := [], armed := [] } := by
  have hready : ∀ t, ¬TaskLists.Ready { ready := fun _ => [], block := [], armed := [] } t := by
    rintro t ⟨_, _, hmem⟩
    cases hmem
  refine ⟨⟨?_, ?_⟩, rfl, nofun, fun _ => le_rfl, ⟨?_, ?_, ?_, ?_, ?_⟩, nofun, fun _ _ => rfl⟩
  · rintro a (⟨i, _, rfl⟩ | rfl)
    · exact ⟨⟨rfl, rfl⟩, List.nodup_singleton _⟩
    · exact ⟨⟨rfl, rfl⟩, List.nodup_singleton _⟩
  · rintro a (⟨i, _, rfl⟩ | rfl) b (⟨j, _, rfl⟩ | rfl) hne x hx hx'
    all_goals exact hne ((List.mem_singleton.1 hx).symm.trans (List.mem_singleton.1 hx'))
  · exact fun c _ => ⟨List.mem_cons_of_mem 0 List.mem_cons_self, hready _⟩
  · intro c hc c' hc' _
    omega
  · exact fun c _ => ⟨List.mem_cons_self, rfl, hready _⟩
  · intro c hc c' hc' _
    omega
  · intro c _ c' _ heq
    cases heq

/-- The task sleeps for 15 ms: it is not woken at 10 ms, and at 20 ms its timer is free again. -/
theorem timerRun_conserved_oneSleep : ∃ s1 s2 s3,
    oneTask.threadTimerInit.msSleepUntil 0 15 = .ok (true, s1) ∧ s1.clockIsr 0 = .ok s2 ∧
      s2.clockIsr 0 = .ok s3 ∧ s2.top = 19 ∧ s3.top = 20 ∧ ∃ v, Conserved 1 s3 v := by
  have hrun : ∃ x, (do
      let (done, s1) ← oneTask.threadTimerInit.msSleepUntil 0 15
      let s2 ← s1.clockIsr 0
      let s3 ← s2.clockIsr 0
      assertk (done = true ∧ s2.top = 19 ∧ s3.top = 20)
      Except.ok s3) = .ok x := exists_ok (by decide +kernel)
  obtain ⟨x, hrun⟩ := hrun
  simp only [bind_ok_iff, Prod.exists] at hrun
  obtain ⟨done, s1, h1, s2, h2, s3, h3, _, hassert, _⟩ := hrun
  obtain ⟨rfl, htop2, htop3⟩ := of_assertk hassert
  refine ⟨s1, s2, s3, h1, h2, h3, htop2, htop3, timerRun_conserved oneTask_booted ?_⟩
  have hsleep : TimerRun 1 (fun _ _ => True) oneTask.threadTimerInit s1 :=
    .sleep .start Nat.one_pos (by decide) h1
  exact .tick (.tick hsleep Nat.one_pos h2 trivial) Nat.one_pos h3 trivial

end Sched

end QuarkOS
