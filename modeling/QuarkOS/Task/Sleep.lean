import QuarkOS.Task.Timer

/-!
# Sleeping and the clock interrupt

`ms_sleep` step by step. The timer is armed before the task is marked as sleeping, and waking a task that
runs does nothing, so a tick in between takes the timer and leaves the task asleep. The lists break when a
tick puts back a task that is in the list of blocked tasks and still marked as running.

Here `alloc_timer` and the insertions into the two lists are one step each. `QuarkOS.Task.SleepStores` takes
them apart.
-/

namespace QuarkOS

open CList Sched Function

/-- Where a task is in `ms_sleep`: what it does next. -/
inductive SleepPc
  | out
  | alloc (msc : Nat)
  | time (k msc : Nat)
  | thread (k : Nat)
  | arm (k : Nat)
  /-- From here on in `task_sleep`. -/
  | lock (k : Nat)
  | join (k : Nat)
  | unlock (k : Nat)
  | mark (k : Nat)
  | switch (k : Nat)
  /-- In `schedule`, or back from it. -/
  | asleep (k : Nat)
deriving DecidableEq, Repr

namespace SleepPc

/-- The timer that is taken from the stack and not armed yet. -/
def held : SleepPc → Option Nat
  | time k _ | thread k | arm k => some k
  | _ => none

/-- The timer that was armed. -/
def timer : SleepPc → Option Nat
  | lock k | join k | unlock k | mark k | switch k | asleep k => some k
  | _ => none

/-- The timer is armed and the task is not marked as sleeping. -/
def exposed : SleepPc → Option Nat
  | lock k | join k | unlock k | mark k => some k
  | _ => none

/-- The task is in the list of blocked tasks and not marked as sleeping. -/
def joined : SleepPc → Bool
  | unlock _ | mark _ => true
  | _ => false

/-- The task has been marked as sleeping. -/
def slept : SleepPc → Bool
  | switch _ | asleep _ => true
  | _ => false

theorem eq_of_timer {p : SleepPc} {k : Nat} (htimer : p.timer = some k) (hexposed : p.exposed ≠ some k) :
    p = .switch k ∨ p = .asleep k := by
  cases p <;> cases htimer
  all_goals first
    | exact absurd rfl hexposed
    | exact Or.inl rfl
    | exact Or.inr rfl

end SleepPc

structure SleepWorld where
  s : Sched
  pc : Nat → SleepPc
  listLock : Bool

namespace SleepWorld

def goto (w : SleepWorld) (t : Nat) (pc : SleepPc) (s : Sched) : SleepWorld :=
  { w with s, pc := update w.pc t pc }

/-- The next step of the task that runs on the CPU; a task outside of `ms_sleep` calls it for `msc`. -/
def act (w : SleepWorld) (cpu msc : Nat) : Except Fault SleepWorld :=
  let s := w.s
  let t := s.cur cpu
  match w.pc t with
  | .out => .ok (w.goto t (.alloc ((s.gTick + msc) % 2 ^ 64)) s)
  | .alloc msc =>
    match s.allocTimer with
    | (none, s) => .ok (w.goto t .out s)
    | (some k, s) => .ok (w.goto t (.time k msc) s)
  | .time k msc =>
    .ok (w.goto t (.thread k)
      { s with timer := update s.timer k { s.timer k with time := msc } })
  | .thread k =>
    .ok (w.goto t (.arm k)
      { s with timer := update s.timer k { s.timer k with thread := .run t } })
  | .arm k => .ok (w.goto t (.lock k) { s with links := listAddPrev s.links (.timer k) .timerHead })
  | .lock k => if w.listLock then .ok w else .ok { w.goto t (.join k) s with listLock := true }
  | .join k => .ok (w.goto t (.unlock k) (s.joinBlock t))
  | .unlock k => .ok { w.goto t (.mark k) s with listLock := false }
  | .mark k => .ok (w.goto t (.switch k) (s.setState t .sleeping))
  | .switch k => do
    let s ← s.schedule cpu
    .ok (w.goto t (.asleep k) s)
  | .asleep _ => .ok (w.goto t .out s)

theorem act_other {w w' : SleepWorld} {cpu msc t : Nat} (hact : w.act cpu msc = .ok w')
    (hne : t ≠ w.s.cur cpu) :
    w'.pc t = w.pc t := by
  have hgoto : ∀ pc, update w.pc (w.s.cur cpu) pc t = w.pc t := fun _ => update_of_ne hne ..
  rw [act] at hact
  dsimp only at hact
  split at hact
  case h_2 => split at hact <;> cases hact <;> exact hgoto _
  case h_6 =>
    split at hact <;> cases hact
    · rfl
    · exact hgoto _
  case h_10 =>
    obtain ⟨_, _, hact⟩ := bind_eq_ok hact
    cases hact
    exact hgoto _
  all_goals
    cases hact
    exact hgoto _

/-- Steps of the task that runs on the CPU, with nothing between them. -/
def acts (cpu msc : Nat) : Nat → SleepWorld → Except Fault SleepWorld
  | 0, w => .ok w
  | i + 1, w => do
    let w ← w.act cpu msc
    acts cpu msc i w

/-- With nothing between them the steps up to the switch are those of `Sched.msSleepUntil`. -/
theorem acts_msSleepUntil {w : SleepWorld} {cpu msc : Nat} (hpc : w.pc (w.s.cur cpu) = .alloc msc)
    (hlock : w.listLock = false) (htop : w.s.top ≠ 0) :
    (do let w' ← acts cpu msc 9 w; .ok (true, w'.s)) = w.s.msSleepUntil cpu msc := by
  -- No step before `schedule` changes which task runs, so the next one is always that of the same task.
  simp [acts, act, hpc, hlock, htop, goto, msSleepUntil, allocTimer, armTimer, taskSleep, joinBlock,
    setState, setTcb]

/-- The tick finds no timer due whose task is not marked as sleeping or still runs, and does not put back
a task that is in the list of blocked tasks. -/
structure Calm (n : Nat) (w : SleepWorld) (cpu : Nat) : Prop where
  exposed : cpu = 0 → ∀ t k, (w.pc t).exposed = some k → (w.s.gTick + 10) % 2 ^ 64 < (w.s.timer k).time
  running : cpu = 0 → ∀ c < n, ∀ k, w.pc (w.s.cur c) = .switch k →
    (w.s.tcb (w.s.cur c)).state ≠ .running → (w.s.gTick + 10) % 2 ^ 64 < (w.s.timer k).time
  joined : (w.s.tcb (w.s.cur cpu)).timerSlice = 0 → (w.pc (w.s.cur cpu)).joined = false

def ArmedFor (s : Sched) (v : TaskLists) (k t : Nat) : Prop := k ∈ v.armed ∧ (s.timer k).thread = .run t

/-- What is known of a task by where it is. -/
def Place (s : Sched) (v : TaskLists) (t : Nat) : SleepPc → Prop
  | .out => t ∈ v.block → (s.tcb t).state ≠ .running
  | .alloc _ | .time _ _ | .thread _ => t ∉ v.block ∧ (s.tcb t).state = .running
  | .arm k => (s.timer k).thread = .run t ∧ t ∉ v.block ∧ (s.tcb t).state = .running
  | .lock k | .join k => ArmedFor s v k t ∧ t ∉ v.block ∧ (s.tcb t).state = .running
  | .unlock k | .mark k => ArmedFor s v k t ∧ t ∈ v.block ∧ (s.tcb t).state = .running
  -- It sleeps, or it was woken.
  | .switch k | .asleep k => ArmedFor s v k t ∧ t ∈ v.block ∧ (s.tcb t).state ≠ .running ∨
    ¬ArmedFor s v k t ∧ t ∉ v.block ∧ (s.tcb t).state = .running

structure Sound (n : Nat) (s : Sched) (pc : Nat → SleepPc) (v : TaskLists) : Prop where
  pooled : Pooled s v
  seated : Seated n s v
  idle : ∀ c < n, pc (s.idle c) = .out
  cur : ∀ c < n, (s.tcb (s.cur c)).state = .running ∨ ∃ k, pc (s.cur c) = .switch k
  blocked : ∀ t ∈ v.block, t ∈ s.tasks
  owner : ∀ k ∈ v.armed, ∃ t, (s.timer k).thread = .run t ∧ (pc t).timer = some k
  held : ∀ t k, (pc t).held = some k → k < timerCount ∧ k ∉ s.free ++ v.armed
  held_inj : ∀ t t' k, (pc t).held = some k → (pc t').held = some k → t = t'
  place : ∀ t, Place s v t (pc t)

variable {n t cpu k : Nat} {s s' : Sched} {v v' : TaskLists} {pc : Nat → SleepPc} {p : SleepPc}

theorem Place.congr (h : Place s v t p) (hblock : t ∈ v'.block ↔ t ∈ v.block)
    (hstate : (s'.tcb t).state = (s.tcb t).state)
    (harmed : ∀ k, p.timer = some k → (ArmedFor s' v' k t ↔ ArmedFor s v k t))
    (hheld : ∀ k, p.held = some k → (s'.timer k).thread = (s.timer k).thread) : Place s' v' t p := by
  cases p with
  | out | alloc _ | time _ _ | thread _ =>
    rw [Place, hblock, hstate]
    exact h
  | arm k =>
    rw [Place, hblock, hstate, hheld k rfl]
    exact h
  | lock k | join k | unlock k | mark k | switch k | asleep k =>
    rw [Place, hblock, hstate, harmed k rfl]
    exact h

/-- What a step of the task `t` leaves to the other tasks. -/
structure Stays (s s' : Sched) (pc : Nat → SleepPc) (v v' : TaskLists) (t : Nat) : Prop where
  tasks : s'.tasks = s.tasks
  idle : s'.idle = s.idle
  block : ∀ t' ≠ t, (t' ∈ v'.block ↔ t' ∈ v.block)
  state : ∀ t' ≠ t, (s'.tcb t').state = (s.tcb t').state
  armed : ∀ t' ≠ t, ∀ k, ArmedFor s' v' k t' ↔ ArmedFor s v k t'
  held : ∀ t' ≠ t, ∀ k, (pc t').held = some k →
    (s'.timer k).thread = (s.timer k).thread ∧ k ∉ s'.free ++ v'.armed

section

variable (hw : Sound n s pc v)
include hw

theorem Sound.stays (t : Nat) : Stays s s pc v v t :=
  ⟨rfl, rfl, fun _ _ => Iff.rfl, fun _ _ => rfl, fun _ _ _ => Iff.rfl,
    fun t' _ k hk => ⟨rfl, (hw.held t' k hk).2⟩⟩

theorem Sound.goto (h : Stays s s' pc v v' t) (hp : Pooled s' v')
    (hc : Seated n s' v') (hidle : ∀ c < n, s.idle c ≠ t)
    (hcur : ∀ c < n, (s'.tcb (s'.cur c)).state = .running ∨
      ∃ k, update pc t p (s'.cur c) = .switch k)
    (hblock : t ∈ v'.block → t ∈ s.tasks)
    (howner : ∀ k ∈ v'.armed, (s'.timer k).thread = .run t ∧ p.timer = some k ∨
      ∃ t' ≠ t, ArmedFor s v k t')
    (hheld : ∀ k, p.held = some k → k < timerCount ∧ k ∉ s'.free ++ v'.armed ∧
      ∀ t' ≠ t, (pc t').held ≠ some k)
    (hplace : Place s' v' t p) : Sound n s' (update pc t p) v' := by
  have hother : ∀ t' ≠ t, update pc t p t' = pc t' := fun t' hne =>
    update_of_ne hne ..
  have hself : update pc t p t = p := update_self ..
  refine ⟨hp, hc, fun c hcn => ?_, hcur, fun t' ht' => ?_, fun k hk => ?_, fun t' k hk => ?_,
    fun t1 t2 k hk1 hk2 => ?_, fun t' => ?_⟩
  · rw [h.idle, hother _ (hidle c hcn)]
    exact hw.idle c hcn
  · rw [h.tasks]
    by_cases heq : t' = t
    · exact heq ▸ hblock (heq ▸ ht')
    · exact hw.blocked t' ((h.block t' heq).1 ht')
  · rcases howner k hk with ⟨hthread, htimer⟩ | ⟨t', hne, harmed⟩
    · exact ⟨t, hthread, by rw [hself, htimer]⟩
    · obtain ⟨t'', hthread, htimer⟩ := hw.owner k harmed.1
      cases harmed.2.symm.trans hthread
      refine ⟨t', ((h.armed t' hne k).2 harmed).2, ?_⟩
      rw [hother t' hne, htimer]
  · by_cases heq : t' = t
    · rw [heq, hself] at hk
      exact ⟨(hheld k hk).1, (hheld k hk).2.1⟩
    · rw [hother t' heq] at hk
      exact ⟨(hw.held t' k hk).1, (h.held t' heq k hk).2⟩
  · by_cases heq1 : t1 = t <;> by_cases heq2 : t2 = t
    · exact heq1.trans heq2.symm
    · rw [heq1, hself] at hk1
      rw [hother t2 heq2] at hk2
      exact absurd hk2 ((hheld k hk1).2.2 t2 heq2)
    · rw [heq2, hself] at hk2
      rw [hother t1 heq1] at hk1
      exact absurd hk1 ((hheld k hk2).2.2 t1 heq1)
    · rw [hother t1 heq1] at hk1
      rw [hother t2 heq2] at hk2
      exact hw.held_inj t1 t2 k hk1 hk2
  · by_cases heq : t' = t
    · rw [heq, hself]
      exact hplace
    · rw [hother t' heq]
      exact (hw.place t').congr (h.block t' heq) (h.state t' heq) (fun k _ => h.armed t' heq k)
        fun k hk => (h.held t' heq k hk).1

/-- A step of the task that runs on `cpu`. -/
theorem Sound.goto_cur (hcpu : cpu < n) (hne : s.cur cpu ≠ s.idle cpu)
    (h : Stays s s' pc v v' (s.cur cpu)) (hp : Pooled s' v') (hc : Seated n s' v') (hcur : s'.cur = s.cur)
    (hself : (s'.tcb (s.cur cpu)).state = .running ∨ ∃ k, p = .switch k)
    (howner : ∀ k ∈ v'.armed, (s'.timer k).thread = .run (s.cur cpu) ∧ p.timer = some k ∨
      ∃ t' ≠ s.cur cpu, ArmedFor s v k t')
    (hheld : ∀ k, p.held = some k → k < timerCount ∧ k ∉ s'.free ++ v'.armed ∧
      ∀ t' ≠ s.cur cpu, (pc t').held ≠ some k)
    (hplace : Place s' v' (s.cur cpu) p) : Sound n s' (update pc (s.cur cpu) p) v' := by
  refine hw.goto h hp hc (hw.seated.idle_ne hcpu hne) (fun c hcn => ?_) (fun _ => (hw.seated.cur cpu hcpu).1)
    howner hheld hplace
  rw [hcur]
  by_cases heq : c = cpu
  · rw [heq, update_self]
    exact hself
  · have hother : s.cur c ≠ s.cur cpu := fun h => heq (hw.seated.cur_inj c hcn cpu hcpu h)
    rw [h.state _ hother, update_of_ne hother]
    exact hw.cur c hcn

theorem Sound.owner_goto (t : Nat)
    (htimer : ∀ k, (pc t).timer = some k → ArmedFor s v k t → p.timer = some k) :
    ∀ k ∈ v.armed, (s.timer k).thread = .run t ∧ p.timer = some k ∨ ∃ t' ≠ t, ArmedFor s v k t' := by
  intro k hk
  obtain ⟨t', hthread, hk'⟩ := hw.owner k hk
  by_cases heq : t' = t
  · subst heq
    exact Or.inl ⟨hthread, htimer k hk' ⟨hk, hthread⟩⟩
  · exact Or.inr ⟨t', heq, hk, hthread⟩

theorem Sound.held_goto (t : Nat)
    (hheld : ∀ k, p.held = some k → (pc t).held = some k) :
    ∀ k, p.held = some k → k < timerCount ∧ k ∉ s.free ++ v.armed ∧ ∀ t' ≠ t, (pc t').held ≠ some k :=
  fun k hk => ⟨(hw.held t k (hheld k hk)).1, (hw.held t k (hheld k hk)).2,
    fun t' hne hk' => hne (hw.held_inj t' t k hk' (hheld k hk))⟩

theorem Sound.move (hcpu : cpu < n) (hne : s.cur cpu ≠ s.idle cpu)
    (htimer : ∀ k, (pc (s.cur cpu)).timer = some k → ArmedFor s v k (s.cur cpu) → p.timer = some k)
    (hheld : ∀ k, p.held = some k → (pc (s.cur cpu)).held = some k)
    (hself : (s.tcb (s.cur cpu)).state = .running ∨ ∃ k, p = .switch k)
    (hplace : Place s v (s.cur cpu) p) : Sound n s (update pc (s.cur cpu) p) v :=
  hw.goto_cur hcpu hne (hw.stays _) hw.pooled hw.seated rfl hself (hw.owner_goto _ htimer)
    (hw.held_goto _ hheld) hplace

theorem Sound.running (hcpu : cpu < n) (hpc : pc (s.cur cpu) = p)
    (hp : ∀ k, p ≠ .switch k) : (s.tcb (s.cur cpu)).state = .running := by
  rcases hw.cur cpu hcpu with hrun | ⟨k, hk⟩
  · exact hrun
  · exact absurd (hpc.symm.trans hk) (hp k)

end

variable {msc : Nat} {w w' : SleepWorld}

section

variable (hw : Sound n s pc v) (hcpu : cpu < n) (hne : s.cur cpu ≠ s.idle cpu)
include hw hcpu hne

theorem Sound.alloc (hpc : pc (s.cur cpu) = .alloc msc) (htop : s.top ≠ 0) :
    Sound n { s with top := s.top - 1 }
      (update pc (s.cur cpu) (.time (s.pool (s.top - 1)) msc)) v := by
  have hplace := hw.place (s.cur cpu)
  rw [hpc] at hplace
  have hsub : ({ s with top := s.top - 1 }.free ++ v.armed).Sublist (s.free ++ v.armed) := by
    rw [free_pop htop]
    exact (List.sublist_append_left _ _).append_right _
  have hmem : s.pool (s.top - 1) ∈ s.free := by
    rw [free_pop htop]
    exact List.mem_append_right _ List.mem_cons_self
  have hout : s.pool (s.top - 1) ∉ { s with top := s.top - 1 }.free ++ v.armed := by
    have hnodup := hw.pooled.nodup
    rw [free_pop htop, List.append_assoc] at hnodup
    exact fun h => (List.nodup_cons.1 (List.perm_middle.nodup_iff.1 hnodup)).1 h
  refine hw.goto_cur hcpu hne ⟨rfl, rfl, fun _ _ => Iff.rfl, fun _ _ => rfl, fun _ _ _ => Iff.rfl, ?_⟩ ?_
    { hw.seated with } rfl (Or.inl hplace.2) (hw.owner_goto _ ?_) ?_ hplace
  · exact fun t' _ k hk => ⟨rfl, fun hmem => (hw.held t' k hk).2 (hsub.subset hmem)⟩
  · exact ⟨hw.pooled.shaped.congr rfl rfl rfl, hsub.nodup hw.pooled.nodup,
      fun k hk => hw.pooled.bound k (hsub.subset hk)⟩
  · rw [hpc]
    nofun
  · rintro k hk
    cases hk
    refine ⟨hw.pooled.bound _ (List.mem_append_left _ hmem), hout, fun t' _ hk => ?_⟩
    exact (hw.held t' _ hk).2 (List.mem_append_left _ hmem)

theorem Sound.setTimer {timer : Timer} (hk : (pc (s.cur cpu)).held = some k) (hp : p.held = some k)
    (hrun : (s.tcb (s.cur cpu)).state = .running) (htimer : (pc (s.cur cpu)).timer = none)
    (hplace : Place { s with timer := update s.timer k timer } v (s.cur cpu) p) :
    Sound n { s with timer := update s.timer k timer } (update pc (s.cur cpu) p) v := by
  have hnew := (hw.held _ k hk).2
  have hold : ∀ k' ∈ v.armed, update s.timer k timer k' = s.timer k' := by
    intro k' hk'
    have hne : k' ≠ k := fun heq => hnew (List.mem_append_right _ (heq ▸ hk'))
    exact update_of_ne hne ..
  have harmed : ∀ t' k', ArmedFor { s with timer := update s.timer k timer } v k' t' ↔
      ArmedFor s v k' t' := by
    refine fun t' k' => and_congr_right fun hk' => ?_
    dsimp only
    rw [hold k' hk']
  refine hw.goto_cur hcpu hne ⟨rfl, rfl, fun _ _ => Iff.rfl, fun _ _ => rfl, fun t' _ k' => harmed t' k', ?_⟩ ?_
    { hw.seated with } rfl (Or.inl hrun) ?_ (hw.held_goto _ fun k' hk' => ?_) hplace
  · intro t' hne' k' hk'
    have hother : k' ≠ k := fun heq => hne' (hw.held_inj t' _ k (heq ▸ hk') hk)
    exact ⟨congrArg Timer.thread (update_of_ne hother ..), (hw.held t' k' hk').2⟩
  · exact ⟨hw.pooled.shaped.congr rfl rfl rfl, hw.pooled.nodup, hw.pooled.bound⟩
  · intro k' hk'
    obtain ⟨t', hthread, hk''⟩ := hw.owner k' hk'
    refine Or.inr ⟨t', fun heq => ?_, hk', hthread⟩
    rw [heq, htimer] at hk''
    cases hk''
  · rw [hk, ← hp, hk']

theorem Sound.arm (hpc : pc (s.cur cpu) = .arm k) :
    Sound n { s with links := listAddPrev s.links (.timer k) .timerHead }
      (update pc (s.cur cpu) (.lock k)) { v with armed := v.armed ++ [k] } := by
  have hplace := hw.place (s.cur cpu)
  rw [hpc] at hplace
  obtain ⟨hthread, hblock, hrun⟩ := hplace
  obtain ⟨hbound, hnew⟩ := hw.held (s.cur cpu) k (by rw [hpc]; rfl)
  have hperm : (s.free ++ (v.armed ++ [k])).Perm (k :: (s.free ++ v.armed)) := by
    rw [← List.append_assoc]
    exact List.perm_append_comm
  have harmed : ∀ t' ≠ s.cur cpu, ∀ k',
      ArmedFor { s with links := listAddPrev s.links (.timer k) .timerHead }
        { v with armed := v.armed ++ [k] } k' t' ↔ ArmedFor s v k' t' := by
    intro t' hne' k'
    refine ⟨?_, fun h => ⟨List.mem_append_left _ h.1, h.2⟩⟩
    rintro ⟨hk', hthread'⟩
    rcases List.mem_append.1 hk' with hk' | hk'
    · exact ⟨hk', hthread'⟩
    · rw [List.mem_singleton.1 hk'] at hthread'
      cases hthread.symm.trans hthread'
      exact absurd rfl hne'
  have hheld : ∀ t' ≠ s.cur cpu, ∀ k', (pc t').held = some k' → k' ∉ s.free ++ (v.armed ++ [k]) := by
    intro t' hne' k' hk' hmem
    rcases List.mem_cons.1 (hperm.mem_iff.1 hmem) with rfl | hmem
    · exact hne' (hw.held_inj t' _ k' hk' (by rw [hpc]; rfl))
    · exact (hw.held t' k' hk').2 hmem
  refine hw.goto_cur hcpu hne ⟨rfl, rfl, fun _ _ => Iff.rfl, fun _ _ => rfl, harmed,
      fun t' hne' k' hk' => ⟨rfl, hheld t' hne' k' hk'⟩⟩
    ⟨⟨?_, hw.pooled.shaped.ready, hw.pooled.shaped.priority⟩, ?_, ?_⟩ { hw.seated with } rfl (Or.inl hrun) ?_
    nofun ⟨⟨List.mem_append_right _ List.mem_cons_self, hthread⟩, hblock, hrun⟩
  · rw [TaskLists.nodes_setArmed, List.map_append]
    exact hw.pooled.shaped.lists.addPrev timerHead_mem_heads
      (timer_notMem fun hmem => hnew (List.mem_append_right _ hmem))
  · exact hperm.nodup_iff.2 (List.nodup_cons.2 ⟨hnew, hw.pooled.nodup⟩)
  · intro k' hk'
    rcases List.mem_cons.1 (hperm.mem_iff.1 hk') with rfl | hk'
    · exact hbound
    · exact hw.pooled.bound k' hk'
  · intro k' hk'
    rcases List.mem_append.1 hk' with hk' | hk'
    · obtain ⟨t', hthread', htimer⟩ := hw.owner k' hk'
      refine Or.inr ⟨t', fun heq => ?_, hk', hthread'⟩
      rw [heq, hpc] at htimer
      cases htimer
    · rw [List.mem_singleton.1 hk']
      exact Or.inl ⟨hthread, rfl⟩

theorem Sound.join (hpc : pc (s.cur cpu) = .join k) :
    Sound n (s.joinBlock (s.cur cpu)) (update pc (s.cur cpu) (.unlock k))
      { v with block := s.cur cpu :: v.block } := by
  have hplace := hw.place (s.cur cpu)
  rw [hpc] at hplace
  obtain ⟨harmed, hblock, hrun⟩ := hplace
  refine hw.goto_cur hcpu hne { hw.stays _ with block := fun t' hne' => ?_ }
    ⟨?_, hw.pooled.nodup, hw.pooled.bound⟩
    { hw.seated with } rfl (Or.inl hrun) (hw.owner_goto _ fun k' hk' _ => ?_) nofun
    ⟨harmed, List.mem_cons_self, hrun⟩
  · rw [List.mem_cons, or_iff_right hne']
  · exact hw.pooled.shaped.joinBlock (hw.seated.cur cpu hcpu).2 hblock
  · rw [hpc] at hk'
    exact hk'

theorem Sound.mark (hpc : pc (s.cur cpu) = .mark k) :
    Sound n (s.setState (s.cur cpu) .sleeping) (update pc (s.cur cpu) (.switch k)) v := by
  have hplace := hw.place (s.cur cpu)
  rw [hpc] at hplace
  obtain ⟨harmed, hblock, _⟩ := hplace
  have hstate : ∀ t' ≠ s.cur cpu, ((s.setState (s.cur cpu) .sleeping).tcb t').state = (s.tcb t').state :=
    fun t' hne' => setState_state_of_ne hne'
  refine hw.goto_cur hcpu hne { hw.stays _ with state := hstate } ⟨?_, hw.pooled.nodup, hw.pooled.bound⟩ ?_ rfl
    (Or.inr ⟨k, rfl⟩) (hw.owner_goto _ fun k' hk' _ => ?_) nofun (Or.inl ⟨harmed, hblock, ?_⟩)
  · exact hw.pooled.shaped.setTcb (hw.seated.cur cpu hcpu).2 (hw.pooled.shaped.priority _)
  · exact hw.seated.congr rfl rfl rfl (fun c hcn => hstate _ (hw.seated.idle_ne hcpu hne c hcn))
      fun _ _ => ⟨id, id⟩
  · rw [hpc] at hk'
    exact hk'
  · rw [setState_state_self]
    nofun

end

section

variable (hw : Sound n s pc v)
include hw

/-- The task that runs may be put back, unless it is about to be marked as sleeping. -/
theorem Sound.schedule (hcpu : cpu < n) (hjoined : (pc (s.cur cpu)).joined = false) :
    ∃ m s' v', s.schedule cpu = .ok s' ∧ Shaped s' v' ∧ Switched cpu m s s' v v' := by
  refine hw.pooled.shaped.schedule cpu (hw.seated.cur cpu hcpu).2 (hw.seated.cur cpu hcpu).1 ?_
    (hw.seated.idle cpu hcpu).2.1
  intro hrun _ hmem
  have hplace := hw.place (s.cur cpu)
  cases hpc : pc (s.cur cpu) with
  | out =>
    rw [hpc] at hplace
    exact hplace hmem hrun
  | alloc _ | time _ _ | thread _ =>
    rw [hpc] at hplace
    exact hplace.1 hmem
  | arm _ | lock _ | join _ =>
    rw [hpc] at hplace
    exact hplace.2.1 hmem
  | unlock _ | mark _ =>
    rw [hpc] at hjoined
    cases hjoined
  | switch _ | asleep _ =>
    rw [hpc] at hplace
    rcases hplace with ⟨_, _, hstate⟩ | ⟨_, hblock, _⟩
    · exact hstate hrun
    · exact hblock hmem

theorem Sound.of_moved {cur : Nat → Nat} (h : Moved { s with cur } s') (hs' : Shaped s' v')
    (harmed : v'.armed = v.armed) (hblock : v'.block = v.block) (hc : Seated n s' v')
    (hcur : ∀ c < n, (s.tcb (cur c)).state = .running ∨ ∃ k, pc (cur c) = .switch k) : Sound n s' pc v' := by
  have htimer : s'.timer = s.timer := h.timer
  refine ⟨⟨hs', ?_, ?_⟩, hc, ?_, fun c hcn => ?_, ?_, ?_, ?_, hw.held_inj, fun t => ?_⟩
  · rw [h.free, harmed]
    exact hw.pooled.nodup
  · rw [h.free, harmed]
    exact hw.pooled.bound
  · rw [h.idle]
    exact hw.idle
  · rw [h.cur, h.state]
    exact hcur c hcn
  · rw [hblock, h.tasks]
    exact hw.blocked
  · rw [harmed, htimer]
    exact hw.owner
  · rw [h.free, harmed]
    exact hw.held
  · refine (hw.place t).congr (by rw [hblock]) (h.state t) (fun k _ => ?_) fun k _ => by rw [htimer]
    rw [ArmedFor, ArmedFor, harmed, htimer]

theorem Sound.switched {m : Nat} (hcpu : cpu < n) (hs' : Shaped s' v')
    (h : Switched cpu m s s' v v') :
    Sound n s' pc v' ∧ (s'.tcb (s'.cur cpu)).state = .running ∧ ∀ c ≠ cpu, s'.cur c = s.cur c := by
  have hnext := h.next_running hw.pooled.shaped (hw.seated.idle cpu hcpu).2.1
  refine ⟨hw.of_moved h.moved hs' h.armed h.block (hw.seated.switch hw.pooled.shaped hcpu h) fun c hcn => ?_,
    ?_, fun c hne => by rw [h.cur, if_neg hne]⟩
  · rw [update_apply]
    split
    · exact Or.inl hnext
    · exact hw.cur c hcn
  · rw [h.cur, if_pos rfl, h.moved.state]
    exact hnext

theorem Sound.sleep (hcpu : cpu < n) (hne : s.cur cpu ≠ s.idle cpu)
    (hpc : pc (s.cur cpu) = .switch k) :
    ∃ s' v', s.schedule cpu = .ok s' ∧ Sound n s' (update pc (s.cur cpu) (.asleep k)) v' := by
  obtain ⟨m, s', v', hok, hs', hswitch⟩ := hw.schedule hcpu (by rw [hpc]; rfl)
  obtain ⟨hw', hrun, hother⟩ := hw.switched hcpu hs' hswitch
  have hplace := hw'.place (s.cur cpu)
  rw [hpc] at hplace
  refine ⟨s', v', hok, hw'.goto (hw'.stays _) hw'.pooled hw'.seated ?_ (fun c hcn => ?_) (hw'.blocked _)
    (hw'.owner_goto _ fun k' hk' _ => ?_) nofun hplace⟩
  · rw [hswitch.moved.idle]
    exact hw.seated.idle_ne hcpu hne
  · by_cases heq : c = cpu
    · rw [heq]
      exact Or.inl hrun
    · have hcur : s.cur c ≠ s.cur cpu := fun h => heq (hw.seated.cur_inj c hcn cpu hcpu h)
      rw [hother c heq, update_of_ne hcur, ← hother c heq]
      exact hw'.cur c hcn
  · rw [hpc] at hk'
    exact hk'

theorem Sound.wake (hcpu : cpu < n) (hne : s.cur cpu ≠ s.idle cpu)
    (hpc : pc (s.cur cpu) = .asleep k) : Sound n s (update pc (s.cur cpu) .out) v := by
  have hrun := hw.running hcpu hpc nofun
  have hplace := hw.place (s.cur cpu)
  rw [hpc] at hplace
  obtain ⟨harmed, hblock, _⟩ := hplace.resolve_left fun h => h.2.2 hrun
  refine hw.move hcpu hne (fun k' hk' harmed' => ?_) nofun (Or.inl hrun) fun hmem => absurd hmem hblock
  rw [hpc] at hk'
  cases hk'
  exact absurd harmed' harmed

end

theorem Sound.act (hw : Sound n w.s w.pc v) (hcpu : cpu < n)
    (hne : w.s.cur cpu ≠ w.s.idle cpu) (hact : w.act cpu msc = .ok w') :
    ∃ v', Sound n w'.s w'.pc v' := by
  have hplace := hw.place (w.s.cur cpu)
  unfold SleepWorld.act at hact
  dsimp only at hact
  cases hpc : w.pc (w.s.cur cpu) with
  | out =>
    rw [hpc] at hact hplace
    cases hact
    have hrun := hw.running hcpu hpc (by simp)
    refine ⟨v, hw.move hcpu hne ?_ (fun _ hk => by cases hk) (Or.inl hrun) ⟨fun h => hplace h hrun, hrun⟩⟩
    rw [hpc]
    intro k hk
    cases hk
  | alloc msc =>
    rw [hpc] at hact hplace
    dsimp only at hact
    by_cases htop : w.s.top = 0
    · rw [allocTimer, if_neg (not_not.2 htop)] at hact
      cases hact
      refine ⟨v, hw.move hcpu hne ?_ (fun _ hk => by cases hk) (Or.inl hplace.2)
        fun h => absurd h hplace.1⟩
      rw [hpc]
      intro k hk
      cases hk
    · rw [allocTimer, if_pos htop] at hact
      cases hact
      exact ⟨v, hw.alloc hcpu hne hpc htop⟩
  | time k msc =>
    rw [hpc] at hact hplace
    cases hact
    exact ⟨v, hw.setTimer hcpu hne (by rw [hpc]; rfl) rfl hplace.2 (by rw [hpc]; rfl) hplace⟩
  | thread k =>
    rw [hpc] at hact hplace
    cases hact
    refine ⟨v, hw.setTimer hcpu hne (by rw [hpc]; rfl) rfl hplace.2 (by rw [hpc]; rfl) ⟨?_, hplace⟩⟩
    dsimp only
    rw [update_self]
  | arm k =>
    rw [hpc] at hact
    cases hact
    exact ⟨_, hw.arm hcpu hne hpc⟩
  | lock k =>
    rw [hpc] at hact hplace
    dsimp only at hact
    split at hact
    · cases hact
      exact ⟨v, hw⟩
    · cases hact
      exact ⟨v, hw.move hcpu hne (by rw [hpc]; exact fun _ hk _ => hk) (fun _ hk => by cases hk)
        (Or.inl hplace.2.2) hplace⟩
  | join k =>
    rw [hpc] at hact
    cases hact
    exact ⟨_, hw.join hcpu hne hpc⟩
  | unlock k =>
    rw [hpc] at hact hplace
    cases hact
    exact ⟨v, hw.move hcpu hne (by rw [hpc]; exact fun _ hk _ => hk) (fun _ hk => by cases hk)
      (Or.inl hplace.2.2) hplace⟩
  | mark k =>
    rw [hpc] at hact
    cases hact
    exact ⟨v, hw.mark hcpu hne hpc⟩
  | switch k =>
    rw [hpc] at hact
    dsimp only at hact
    obtain ⟨s', v', hok, hw'⟩ := hw.sleep hcpu hne hpc
    rw [hok, ok_bind] at hact
    cases hact
    exact ⟨v', hw'⟩
  | asleep k =>
    rw [hpc] at hact
    cases hact
    exact ⟨v, hw.wake hcpu hne hpc⟩

theorem Sound.sliceTick (hw : Sound n s pc v) (hcpu : cpu < n)
    (hjoined : (s.tcb (s.cur cpu)).timerSlice = 0 → (pc (s.cur cpu)).joined = false) :
    ∃ s' v', s.sliceTick cpu = .ok s' ∧ Sound n s' pc v' := by
  rw [Sched.sliceTick]
  split
  · rename_i hslice
    obtain ⟨m, s', v', hok, hs', hswitch⟩ := hw.schedule hcpu (hjoined hslice)
    exact ⟨s', v', hok, (hw.switched hcpu hs' hswitch).1⟩
  · have hset : ∀ tcb : Tcb, tcb.state = (s.tcb (s.cur cpu)).state → tcb.priority ≤ taskMaxPriority →
        Sound n (s.setTcb (s.cur cpu) tcb) pc v := by
      intro tcb hstate hpriority
      have hmoved : Moved s (s.setTcb (s.cur cpu) tcb) := .setTcb hstate
      exact hw.of_moved hmoved (hw.pooled.shaped.setTcb (hw.seated.cur cpu hcpu).2 hpriority) rfl rfl
        (hw.seated.of_moved hmoved) hw.cur
    exact ⟨_, v, rfl, hset _ rfl (hw.pooled.shaped.priority (s.cur cpu))⟩

section

variable (hw : Sound n w.s w.pc v) (hcalm : Calm n w 0)
include hw hcalm

theorem Sound.waits (hk : k ∈ v.armed)
    (hdue : (w.s.timer k).time ≤ (w.s.gTick + 10) % 2 ^ 64) (hthread : (w.s.timer k).thread = .run t) :
    (w.pc t = .switch k ∨ w.pc t = .asleep k) ∧ t ∈ v.block ∧ (w.s.tcb t).state ≠ .running ∧
      ∀ c < n, w.s.cur c ≠ t := by
  obtain ⟨t', hthread', htimer⟩ := hw.owner k hk
  cases hthread.symm.trans hthread'
  have hexposed : (w.pc t).exposed ≠ some k := fun h =>
    absurd (hcalm.exposed rfl t k h) (not_lt.2 hdue)
  have hpc := SleepPc.eq_of_timer htimer hexposed
  have hplace : ArmedFor w.s v k t ∧ t ∈ v.block ∧ (w.s.tcb t).state ≠ .running := by
    have hplace := hw.place t
    rcases hpc with hpc | hpc <;> rw [hpc] at hplace <;> exact hplace.resolve_right fun h => h.1 ⟨hk, hthread⟩
  refine ⟨hpc, hplace.2.1, hplace.2.2, ?_⟩
  rintro c hcn rfl
  obtain ⟨k', hk'⟩ := (hw.cur c hcn).resolve_left hplace.2.2
  rw [hk'] at htimer
  cases htimer
  exact absurd (hcalm.running rfl c hcn k hk' hplace.2.2) (not_lt.2 hdue)

theorem Sound.waiting :
    Waiting { w.s with gTick := (w.s.gTick + 10) % 2 ^ 64 } v v.armed := by
  refine ⟨fun k hk hdue => ?_, fun k hk k' hk' _ hthread => ?_⟩
  · obtain ⟨t, hthread, _⟩ := hw.owner k hk
    obtain ⟨_, hblock, hstate, _⟩ := hw.waits hcalm hk (of_decide_eq_true hdue) hthread
    exact ⟨t, hblock, hthread, hw.blocked t hblock, hstate⟩
  · obtain ⟨t, hthread1, htimer1⟩ := hw.owner k hk
    obtain ⟨t', hthread2, htimer2⟩ := hw.owner k' hk'
    cases hthread1.symm.trans (hthread.trans hthread2)
    exact Option.some.inj (htimer1.symm.trans htimer2)

theorem Sound.advance :
    ∃ s' v', w.s.advance = .ok s' ∧ Sound n s' w.pc v' ∧ s'.cur = w.s.cur ∧
      ∀ t, (s'.tcb t).timerSlice = (w.s.tcb t).timerSlice := by
  obtain ⟨s', v', hok, hp, harmed, h⟩ := hw.pooled.advance (hw.waiting hcalm)
  have htimer : s'.timer = w.s.timer := h.timer
  have hcur : s'.cur = w.s.cur := h.cur
  have hwakes : ∀ t, { w.s with gTick := (w.s.gTick + 10) % 2 ^ 64 }.Wakes v.armed t →
      ∃ k ∈ v.armed, (w.s.timer k).time ≤ (w.s.gTick + 10) % 2 ^ 64 ∧
        (w.pc t = .switch k ∨ w.pc t = .asleep k) ∧ ∀ c < n, w.s.cur c ≠ t := by
    rintro t ⟨k, hk, hdue, hthread⟩
    obtain ⟨hpc, _, _, hnot⟩ := hw.waits hcalm hk (of_decide_eq_true hdue) hthread
    exact ⟨k, hk, of_decide_eq_true hdue, hpc, hnot⟩
  have hrunning : ∀ c < n, ¬{ w.s with gTick := (w.s.gTick + 10) % 2 ^ 64 }.Wakes v.armed (w.s.cur c) := by
    intro c hcn hw'
    obtain ⟨_, _, _, _, hnot⟩ := hwakes _ hw'
    exact hnot c hcn rfl
  have hidle : ∀ c < n, ¬{ w.s with gTick := (w.s.gTick + 10) % 2 ^ 64 }.Wakes v.armed (w.s.idle c) := by
    intro c hcn hw'
    obtain ⟨_, _, _, hpc, _⟩ := hwakes _ hw'
    rw [hw.idle c hcn] at hpc
    rcases hpc with hpc | hpc <;> cases hpc
  have hmem : ∀ k, k ∈ v'.armed ↔ k ∈ v.armed ∧ (w.s.gTick + 10) % 2 ^ 64 < (w.s.timer k).time := by
    intro k
    rw [harmed, List.mem_filter, decide_eq_true_iff]
  have hseated : Seated n { w.s with gTick := (w.s.gTick + 10) % 2 ^ 64 } v := { hw.seated with }
  refine ⟨s', v', hok, ⟨hp, hseated.woken h hrunning hidle, ?_, fun c hcn => ?_, fun t ht => ?_,
    fun k hk => ?_, fun t k hk => ?_, hw.held_inj, fun t => ?_⟩, hcur, h.slice⟩
  · rw [h.idle]
    exact hw.idle
  · rw [hcur, h.state _ (hrunning c hcn)]
    exact hw.cur c hcn
  · rw [h.tasks]
    exact hw.blocked t ((h.block t).1 ht).1
  · rw [htimer]
    exact hw.owner k ((hmem k).1 hk).1
  · exact ⟨(hw.held t k hk).1, fun hmem => (hw.held t k hk).2 (h.timers.mem_iff.1 hmem)⟩
  · by_cases hwoken : { w.s with gTick := (w.s.gTick + 10) % 2 ^ 64 }.Wakes v.armed t
    · obtain ⟨k, hk, hdue, hpc, _⟩ := hwakes t hwoken
      have hnot : ¬ArmedFor s' v' k t := fun harmed' =>
        absurd hdue (not_le.2 ((hmem k).1 harmed'.1).2)
      have hplace : ¬ArmedFor s' v' k t ∧ t ∉ v'.block ∧ (s'.tcb t).state = .running :=
        ⟨hnot, fun hblock => ((h.block t).1 hblock).2 hwoken, h.wakes t hwoken⟩
      rcases hpc with hpc | hpc <;> rw [hpc] <;> exact Or.inr hplace
    · refine (hw.place t).congr ?_ (h.state t hwoken) (fun k _ => ?_) fun k _ => by rw [htimer]
      · rw [h.block, and_iff_left hwoken]
      · rw [ArmedFor, ArmedFor, htimer, hmem]
        refine ⟨fun harmed' => ⟨harmed'.1.1, harmed'.2⟩, fun harmed' => ⟨⟨harmed'.1, ?_⟩, harmed'.2⟩⟩
        by_contra hlater
        exact hwoken ⟨k, harmed'.1, decide_eq_true (not_lt.1 hlater), harmed'.2⟩

end

theorem Sound.tick (hw : Sound n w.s w.pc v) (hcpu : cpu < n) (hcalm : Calm n w cpu) :
    ∃ s' v', w.s.clockIsr cpu = .ok s' ∧ Sound n s' w.pc v' := by
  rw [clockIsr]
  by_cases hzero : cpu = 0
  · subst hzero
    obtain ⟨s1, v1, hadvance, hw1, hcur, hslice⟩ := hw.advance hcalm
    obtain ⟨s', v', hok, hw'⟩ := hw1.sliceTick hcpu (by rw [hcur, hslice]; exact hcalm.joined)
    refine ⟨s', v', ?_, hw'⟩
    rw [if_pos rfl, hadvance, ok_bind]
    exact hok
  · obtain ⟨s', v', hok, hw'⟩ := hw.sliceTick hcpu hcalm.joined
    refine ⟨s', v', ?_, hw'⟩
    rw [if_neg hzero, ok_bind]
    exact hok

def start (s : Sched) : SleepWorld where
  s := s.threadTimerInit
  pc := fun _ => .out
  listLock := false

theorem sound_start (hboot : Sched.Booted n s v) : Sound n (start s).s (start s).pc v := by
  have ht := hboot.timed
  refine ⟨ht.pooled, ht.seated, fun _ _ => rfl, fun c hcn => Or.inl (ht.running c hcn),
    fun t hmem => (ht.sleepers.blocked t hmem).1, ?_, nofun, nofun,
    fun t hmem => (ht.sleepers.blocked t hmem).2⟩
  rw [hboot.armed]
  nofun

/-- A task that went to sleep and is still blocked has a timer in the list of armed timers. -/
def HasTimer (w : SleepWorld) : Prop :=
  ∀ t, (w.pc t).slept = true → Reaches w.s.links .blockList (.run t) →
    ∃ k, Reaches w.s.links .timerHead (.timer k) ∧ (w.s.timer k).thread = .run t

theorem Sound.hasTimer (hw : Sound n w.s w.pc v) : HasTimer w := by
  intro t hslept hreach
  have hlists := hw.pooled.shaped.lists
  have hrun : TaskNode.run t ≠ .blockList := nofun
  have hblock : t ∈ v.block :=
    run_mem_map.1 (((hlists.linked _ blockList_mem_heads).reaches_iff hrun).1 hreach)
  have harmed : ∃ k, ArmedFor w.s v k t := by
    have hplace := hw.place t
    cases hpc : w.pc t with
    | switch k | asleep k =>
      rw [hpc] at hplace
      exact ⟨k, (hplace.resolve_right fun h => h.2.1 hblock).1⟩
    | _ =>
      rw [hpc] at hslept
      cases hslept
  obtain ⟨k, hk, hthread⟩ := harmed
  have htimer : TaskNode.timer k ≠ .timerHead := nofun
  refine ⟨k, ((hlists.linked _ timerHead_mem_heads).reaches_iff htimer).2 ?_, hthread⟩
  exact List.mem_map_of_mem hk

end SleepWorld

end QuarkOS
