import QuarkOS.Task.Sleep

/-!
# Sleeping, load by load and store by store

`alloc_timer`, `list_add_prev` and `list_add_next` run with interrupts enabled, and `alloc_timer` and the
list of armed timers have no lock. So a tick, or a task on another CPU, may come between any of their loads and
stores. A task that is `Undisturbed` there does what the one step of `SleepWorld.act` does: the forward
pointers of a list change with the last store of `list_add`.
-/

namespace QuarkOS

open CList Sched Function
open SleepWorld (Sound HasTimer)

/-- The load or store that comes next inside `alloc_timer` or `list_add`. -/
inductive Sect
  /-- The load of `top` that is to be lowered. -/
  | top (msc : Nat)
  | lower (top msc : Nat)
  | take (top msc : Nat)
  /-- `list_add` with this number of its stores done, and where the task goes on. -/
  | add (new prev next : TaskNode) (done : Nat) (pc : SleepPc)

/-- The tasks, and where each is inside `alloc_timer` or `list_add`. -/
structure Sleeping where
  w : SleepWorld
  sect : Nat → Option Sect

namespace Sleeping

/-- The four stores of `list_add`. -/
def storeAdd (h : Links TaskNode) (new prev next : TaskNode) : Nat → Links TaskNode
  | 0 => h.setPrev new prev
  | 1 => h.setNext new next
  | 2 => h.setPrev next new
  | _ => h.setNext prev new

def enter (m : Sleeping) (t : Nat) (sect : Sect) (s : Sched) : Sleeping :=
  { w := { m.w with s }, sect := update m.sect t (some sect) }

def leave (m : Sleeping) (t : Nat) (pc : SleepPc) (s : Sched) : Sleeping :=
  { w := m.w.goto t pc s, sect := update m.sect t none }

/-- The next load or store of the task that runs on the CPU. -/
def act (m : Sleeping) (cpu msc : Nat) : Except Fault Sleeping :=
  let s := m.w.s
  let t := s.cur cpu
  match m.sect t with
  | none =>
    match m.w.pc t with
    | .alloc msc => .ok (if s.top = 0 then m.leave t .out s else m.enter t (.top msc) s)
    | .arm k => .ok (m.enter t (.add (.timer k) (s.links.prev .timerHead) .timerHead 0 (.lock k)) s)
    | .join k => .ok (m.enter t (.add (.run t) .blockList (s.links.next .blockList) 0 (.unlock k)) s)
    | _ => do
      let w ← m.w.act cpu msc
      .ok { m with w }
  | some (.top msc) => .ok (m.enter t (.lower ((s.top + 2 ^ 32 - 1) % 2 ^ 32) msc) s)
  | some (.lower top msc) => .ok (m.enter t (.take top msc) { s with top })
  | some (.take top msc) =>
    if top < timerCount then .ok (m.leave t (.time (s.pool top) msc) s) else .error .undefined
  | some (.add new prev next done pc) =>
    let s := { s with links := storeAdd s.links new prev next done }
    .ok (if done < 3 then m.enter t (.add new prev next (done + 1) pc) s else m.leave t pc s)

/-- Loads and stores of the tasks, which are not the idle ones, and ticks in any order; `A` is what each load or
store meets, and `C` each tick. -/
inductive Run (n : Nat) (A C : Sleeping → Nat → Prop) (m0 : Sleeping) : Sleeping → Prop
  | start : Run n A C m0 m0
  | act {m m' : Sleeping} {cpu msc : Nat} : Run n A C m0 m → cpu < n → m.w.s.cur cpu ≠ m.w.s.idle cpu →
      A m cpu → m.act cpu msc = .ok m' → Run n A C m0 m'
  | tick {m : Sleeping} {s' : Sched} {cpu : Nat} : Run n A C m0 m → cpu < n → C m cpu →
      m.w.s.clockIsr cpu = .ok s' → Run n A C m0 { m with w := { m.w with s := s' } }

/-- No other task is inside `alloc_timer` or `list_add`. -/
def Undisturbed (m : Sleeping) (cpu : Nat) : Prop := ∀ t ≠ m.w.s.cur cpu, m.sect t = none

/-- The tick is calm, and if a task is inside `alloc_timer` or `list_add` it wakes no task and does not call
`schedule`. -/
structure Quiet (n : Nat) (m : Sleeping) (cpu : Nat) : Prop where
  calm : SleepWorld.Calm n m.w cpu
  slice : ∀ t, m.sect t ≠ none → (m.w.s.tcb (m.w.s.cur cpu)).timerSlice ≠ 0
  late : ∀ t, m.sect t ≠ none → cpu = 0 → ∀ k, Reaches m.w.s.links .timerHead (.timer k) →
    (m.w.s.gTick + 10) % 2 ^ 64 < (m.w.s.timer k).time

variable {n t cpu msc k : Nat} {s s' : Sched} {v : TaskLists} {h : Links TaskNode} {new prev next y : TaskNode}
  {m m' : Sleeping} {w w' : SleepWorld} {sect : Sect}

/-- The first stores of `list_add`. -/
def addPart (h : Links TaskNode) (new prev next : TaskNode) : Nat → Links TaskNode
  | 0 => h
  | done + 1 => storeAdd (addPart h new prev next done) new prev next done

theorem addPart_next {done : Nat} (hdone : done < 4) (hy : y ≠ new) :
    (addPart h new prev next done).next y = h.next y := by
  rcases done with _ | _ | _ | _ | done
  · rfl
  · rfl
  · exact if_neg hy
  · exact if_neg hy
  · omega

/-- What the memory is while the task is inside, from the state when it came there. -/
def Within (w : SleepWorld) (t : Nat) (s : Sched) : Sect → Prop
  | .top msc => w.pc t = .alloc msc ∧ w.s.top ≠ 0 ∧ s = w.s
  | .lower top msc => w.pc t = .alloc msc ∧ w.s.top ≠ 0 ∧ top = w.s.top - 1 ∧ s = w.s
  | .take top msc => w.pc t = .alloc msc ∧ w.s.top ≠ 0 ∧ top = w.s.top - 1 ∧ s = { w.s with top }
  | .add new prev next done pc => done < 4 ∧ s = { w.s with links := addPart w.s.links new prev next done } ∧
    ((∃ k, w.pc t = .arm k ∧ pc = .lock k ∧ new = .timer k ∧ prev = w.s.links.prev .timerHead ∧
      next = .timerHead) ∨
    ∃ k, w.pc t = .join k ∧ pc = .unlock k ∧ new = .run t ∧ prev = .blockList ∧
      next = w.s.links.next .blockList)

/-- The state of the steps as a whole: that of the loads and stores, or the one in which the task inside came
there. -/
inductive Follows (m : Sleeping) (w : SleepWorld) : Prop
  | outside (hw : m.w = w) (hsect : ∀ t, m.sect t = none)
  | inside (t : Nat) (sect : Sect) (hw : m.w = { w with s := m.w.s }) (ht : m.sect t = some sect)
      (hsect : ∀ t' ≠ t, m.sect t' = none) (hpart : Within w t m.w.s sect)

/-- A tick that wakes no task and does not call `schedule`. -/
def quietTick (s : Sched) (cpu : Nat) : Sched :=
  { s with
    gTick := if cpu = 0 then (s.gTick + 10) % 2 ^ 64 else s.gTick
    tcb := update s.tcb (s.cur cpu) { s.tcb (s.cur cpu) with
      timerSlice := ((s.tcb (s.cur cpu)).timerSlice + 2 ^ 16 - 10) % 2 ^ 16 } }

theorem wakeLoop_quiet {l : List Nat} {a : TaskNode} {fuel : Nat} (hseg : Seg h a (l.map .timer) .timerHead)
    (hnext : ∀ y ∈ a :: l.map .timer, s.links.next y = h.next y)
    (hlate : ∀ k ∈ l, s.gTick < (s.timer k).time) (hfuel : l.length < fuel) :
    wakeLoop fuel s (s.links.next a) = .ok s := by
  induction l generalizing a fuel with
  | nil =>
    obtain ⟨fuel, rfl⟩ := Nat.exists_eq_add_of_lt hfuel
    rw [hnext a List.mem_cons_self, hseg.1, wakeLoop, if_pos rfl]
  | cons k l ih =>
    obtain ⟨ha, _, hseg⟩ := hseg
    obtain ⟨fuel, rfl⟩ := Nat.exists_eq_add_of_lt hfuel
    have hvisit : s.visitTimer k = .ok s := if_neg (not_le.2 (hlate k List.mem_cons_self))
    rw [hnext a List.mem_cons_self, ha, wakeLoop, if_neg (by simp), timerEntry, ok_bind]
    dsimp only
    rw [hvisit, ok_bind]
    exact ih hseg (fun y hy => hnext y (List.mem_cons_of_mem _ hy))
      (fun k hk => hlate k (List.mem_cons_of_mem _ hk)) (by rw [List.length_cons]; omega)

theorem clockIsr_quiet {l : List Nat} (hl : Linked h .timerHead (l.map .timer)) (hlen : l.length ≤ timerCount)
    (hnext : ∀ y ∈ .timerHead :: l.map .timer, s.links.next y = h.next y)
    (hslice : (s.tcb (s.cur cpu)).timerSlice ≠ 0)
    (hlate : cpu = 0 → ∀ k ∈ l, (s.gTick + 10) % 2 ^ 64 < (s.timer k).time) :
    s.clockIsr cpu = .ok (quietTick s cpu) := by
  rw [clockIsr]
  by_cases hzero : cpu = 0
  · have hloop := wakeLoop_quiet (s := { s with gTick := (s.gTick + 10) % 2 ^ 64 }) hl.1 hnext (hlate hzero)
      (Nat.lt_succ_of_le hlen)
    rw [if_pos hzero, advance]
    dsimp only at hloop ⊢
    rw [hloop, ok_bind, quietTick, if_pos hzero]
    exact if_neg hslice
  · rw [if_neg hzero, ok_bind, quietTick, if_neg hzero]
    exact if_neg hslice

/-- The pointers that lead through the two lists are those from before. -/
theorem Within.pointers (hpart : Within w t s sect) (hw : Sound n w.s w.pc v) :
    (∀ y ∈ TaskNode.timerHead :: v.armed.map .timer, s.links.next y = w.s.links.next y) ∧
      ∀ y ∈ TaskNode.blockList :: v.block.map .run, s.links.next y = w.s.links.next y := by
  cases sect with
  | top _ =>
    obtain ⟨_, _, rfl⟩ := hpart
    exact ⟨fun _ _ => rfl, fun _ _ => rfl⟩
  | lower _ _ | take _ _ =>
    obtain ⟨_, _, _, rfl⟩ := hpart
    exact ⟨fun _ _ => rfl, fun _ _ => rfl⟩
  | add new prev next done pc =>
    obtain ⟨hdone, rfl, hnew⟩ := hpart
    have hplace := hw.place t
    obtain ⟨harmed, hblock⟩ : new ∉ TaskNode.timerHead :: v.armed.map .timer ∧
        new ∉ TaskNode.blockList :: v.block.map .run := by
      rcases hnew with ⟨k, hpc, _, rfl, _⟩ | ⟨k, hpc, _, rfl, _⟩
      · have hk := (hw.held t k (by rw [hpc]; rfl)).2
        simp only [List.mem_cons, List.mem_map]
        constructor
        · rintro (h | ⟨k', hk', h⟩) <;> cases h
          exact hk (List.mem_append_right _ hk')
        · rintro (h | ⟨_, _, h⟩) <;> cases h
      · rw [hpc] at hplace
        simp only [List.mem_cons, List.mem_map]
        constructor
        · rintro (h | ⟨_, _, h⟩) <;> cases h
        · rintro (h | ⟨t', ht', h⟩) <;> cases h
          exact hplace.2.1 ht'
    exact ⟨fun y hy => addPart_next hdone fun heq => harmed (heq ▸ hy),
      fun y hy => addPart_next hdone fun heq => hblock (heq ▸ hy)⟩

theorem Within.same (hpart : Within w t s sect) : s = { w.s with links := s.links, top := s.top } := by
  cases sect with
  | top _ =>
    obtain ⟨_, _, rfl⟩ := hpart
    rfl
  | lower _ _ | take _ _ =>
    obtain ⟨_, _, _, rfl⟩ := hpart
    rfl
  | add _ _ _ _ _ =>
    obtain ⟨_, rfl, _⟩ := hpart
    rfl

theorem Within.quietTick (hpart : Within w t s sect) :
    Within { w with s := quietTick w.s cpu } t (quietTick s cpu) sect := by
  cases sect with
  | top _ =>
    obtain ⟨hpc, htop, rfl⟩ := hpart
    exact ⟨hpc, htop, rfl⟩
  | lower _ _ | take _ _ =>
    obtain ⟨hpc, htop, hlow, rfl⟩ := hpart
    exact ⟨hpc, htop, hlow, rfl⟩
  | add _ _ _ _ _ =>
    obtain ⟨hdone, rfl, hnew⟩ := hpart
    exact ⟨hdone, rfl, hnew⟩

theorem update_none {sects : Nat → Option Sect} (hsect : ∀ t' ≠ t, sects t' = none) (t' : Nat) :
    update sects t none t' = none := by
  by_cases heq : t' = t
  · rw [heq, update_self]
  · rw [update_of_ne heq, hsect t' heq]

section

variable (hf : Follows m w) (hw : Sound n w.s w.pc v)
include hf hw

theorem Follows.hasTimer : HasTimer m.w := by
  cases hf with
  | outside heq _ => exact heq ▸ hw.hasTimer
  | inside t sect heq _ _ hpart =>
    obtain ⟨harmed, hblock⟩ := hpart.pointers hw
    have hlists := hw.pooled.shaped.lists
    intro t' hslept hreach
    rw [heq] at hslept
    obtain ⟨k, hk, hthread⟩ := hw.hasTimer t' hslept
      (((hlists.linked _ blockList_mem_heads).reaches_congr hblock).1 hreach)
    refine ⟨k, ((hlists.linked _ timerHead_mem_heads).reaches_congr harmed).2 hk, ?_⟩
    rw [hpart.same]
    exact hthread

theorem Follows.tick (hcpu : cpu < n) (hquiet : Quiet n m cpu)
    (htick : m.w.s.clockIsr cpu = .ok s') :
    ∃ w' v', Follows { m with w := { m.w with s := s' } } w' ∧ Sound n w'.s w'.pc v' := by
  cases hf with
  | outside heq hsect =>
    subst heq
    obtain ⟨s1, v1, hok, hw1⟩ := hw.tick hcpu hquiet.calm
    cases htick.symm.trans hok
    exact ⟨{ m.w with s := s' }, v1, .outside rfl hsect, hw1⟩
  | inside t sect heq ht hsect hpart =>
    have hinside : m.sect t ≠ none := by
      rw [ht]
      nofun
    obtain ⟨harmed, _⟩ := hpart.pointers hw
    have hl := hw.pooled.shaped.lists.linked _ timerHead_mem_heads
    have hlen : v.armed.length ≤ timerCount := (Nat.le_add_left _ _).trans hw.pooled.length_le
    have hslice := hquiet.slice t hinside
    have hlate : cpu = 0 → ∀ k ∈ v.armed, (m.w.s.gTick + 10) % 2 ^ 64 < (m.w.s.timer k).time := by
      intro hzero k hk
      refine hquiet.late t hinside hzero k ((hl.reaches_congr harmed).2 ?_)
      exact (hl.reaches_iff (x := .timer k) nofun).2 (List.mem_map_of_mem hk)
    cases htick.symm.trans (clockIsr_quiet hl hlen harmed hslice hlate)
    have hsame := hpart.same
    have hcalm : SleepWorld.Calm n w cpu := by
      have hcalm := hquiet.calm
      rw [heq, hsame] at hcalm
      exact ⟨hcalm.exposed, hcalm.running, hcalm.joined⟩
    rw [hsame] at hslice hlate
    obtain ⟨s1, v1, hok, hw1⟩ := hw.tick hcpu hcalm
    cases hok.symm.trans (clockIsr_quiet hl hlen (fun _ _ => rfl) hslice hlate)
    refine ⟨{ w with s := quietTick w.s cpu }, v1, .inside t sect ?_ ht hsect hpart.quietTick, hw1⟩
    rw [heq]

theorem Follows.act (hcpu : cpu < n)
    (hne : m.w.s.cur cpu ≠ m.w.s.idle cpu) (halone : Undisturbed m cpu) (hact : m.act cpu msc = .ok m') :
    ∃ w' v', Follows m' w' ∧ Sound n w'.s w'.pc v' := by
  rw [Sleeping.act] at hact
  dsimp only at hact
  cases hf with
  | outside heq hsect =>
    subst heq
    have hleave : ∀ pc s, Follows (m.leave (m.w.s.cur cpu) pc s) (m.w.goto (m.w.s.cur cpu) pc s) :=
      fun pc s => .outside rfl (update_none fun t' _ => hsect t')
    have henter : ∀ sect s, Within m.w (m.w.s.cur cpu) s sect →
        Follows (m.enter (m.w.s.cur cpu) sect s) m.w := fun sect s hpart =>
      .inside _ sect rfl (update_self ..) (fun t' hne' => (update_of_ne hne' ..).trans (hsect t')) hpart
    rw [hsect] at hact
    dsimp only at hact
    split at hact
    · rename_i msc' hpc
      split at hact
      · rename_i htop
        cases hact
        have hact : m.w.act cpu msc = .ok (m.w.goto (m.w.s.cur cpu) .out m.w.s) := by
          rw [SleepWorld.act]
          dsimp only
          rw [hpc]
          dsimp only
          rw [allocTimer, if_neg (not_not.2 htop)]
        obtain ⟨v', hv'⟩ := hw.act hcpu hne hact
        exact ⟨_, v', hleave _ _, hv'⟩
      · rename_i htop
        cases hact
        exact ⟨m.w, v, henter _ _ ⟨hpc, htop, rfl⟩, hw⟩
    · rename_i k hpc
      cases hact
      exact ⟨m.w, v, henter _ _ ⟨by decide, rfl, .inl ⟨k, hpc, rfl, rfl, rfl, rfl⟩⟩, hw⟩
    · rename_i k hpc
      cases hact
      exact ⟨m.w, v, henter _ _ ⟨by decide, rfl, .inr ⟨k, hpc, rfl, rfl, rfl, rfl⟩⟩, hw⟩
    · obtain ⟨w', hw', hact⟩ := bind_eq_ok hact
      cases hact
      obtain ⟨v', hv'⟩ := hw.act hcpu hne hw'
      exact ⟨w', v', .outside rfl hsect, hv'⟩
  | inside t sect heq ht hsect hpart =>
    have hcur : m.w.s.cur cpu = t := by
      by_contra hother
      rw [halone t (Ne.symm hother)] at ht
      cases ht
    have hpcs : m.w.pc = w.pc := by rw [heq]
    have hcur0 : w.s.cur cpu = t := by
      rw [← hcur, hpart.same]
    have hne0 : w.s.cur cpu ≠ w.s.idle cpu := by
      rwa [hpart.same] at hne
    have henter : ∀ sect s', Within w t s' sect → Follows (m.enter t sect s') w := fun sect s' hpart =>
      .inside t sect (by rw [enter, heq]) (update_self ..)
        (fun t' hne' => (update_of_ne hne' ..).trans (hsect t' hne')) hpart
    rw [hcur, ht] at hact
    cases sect with
    | top msc =>
      obtain ⟨hpc, htop, hs⟩ := hpart
      cases hact
      have hbound : w.s.top ≤ 20 := (Nat.le_add_right _ _).trans hw.pooled.length_le
      refine ⟨w, v, henter _ _ ⟨hpc, htop, ?_, hs⟩, hw⟩
      rw [hs]
      omega
    | lower top msc =>
      obtain ⟨hpc, htop, hlow, hs⟩ := hpart
      cases hact
      exact ⟨w, v, henter _ _ ⟨hpc, htop, hlow, by rw [hs]⟩, hw⟩
    | take top msc =>
      obtain ⟨hpc, htop, rfl, hs⟩ := hpart
      dsimp only at hact
      split at hact
      · cases hact
        have halloc := hw.alloc hcpu hne0 (hcur0.symm ▸ hpc) htop
        refine ⟨_, v, .outside rfl (update_none hsect), ?_⟩
        dsimp only [leave, SleepWorld.goto]
        rw [hs, hpcs, ← hcur0]
        exact halloc
      · cases hact
    | add new prev next done pc =>
      obtain ⟨hdone, hs, hnew⟩ := hpart
      dsimp only at hact
      split at hact
      · cases hact
        exact ⟨w, v, henter _ _ ⟨by omega, by rw [hs]; rfl, hnew⟩, hw⟩
      · obtain rfl : done = 3 := by omega
        cases hact
        obtain ⟨v', hw'⟩ : ∃ v', Sound n { w.s with links := listAdd w.s.links new prev next }
            (update w.pc t pc) v' := by
          rcases hnew with ⟨k, hpc, rfl, rfl, rfl, rfl⟩ | ⟨k, hpc, rfl, rfl, rfl, rfl⟩
          · exact ⟨_, hcur0 ▸ hw.arm hcpu hne0 (hcur0.symm ▸ hpc)⟩
          · exact ⟨_, hcur0 ▸ hw.join hcpu hne0 (hcur0.symm ▸ hpc)⟩
        refine ⟨_, v', .outside rfl (update_none hsect), ?_⟩
        dsimp only [leave, SleepWorld.goto]
        rw [hs, hpcs]
        exact hw'

end

def start (s : Sched) : Sleeping where
  w := .start s
  sect := fun _ => none

theorem Run.follows (hboot : Sched.Booted n s v) (hrun : Run n Undisturbed (Quiet n) (Sleeping.start s) m) :
    ∃ w v', Follows m w ∧ Sound n w.s w.pc v' := by
  induction hrun with
  | start => exact ⟨.start s, v, .outside rfl fun _ => rfl, SleepWorld.sound_start hboot⟩
  | act _ hcpu hne halone hact ih =>
    obtain ⟨w, v', hf, hw⟩ := ih
    exact hf.act hw hcpu hne halone hact
  | tick _ hcpu hquiet htick ih =>
    obtain ⟨w, v', hf, hw⟩ := ih
    exact hf.tick hw hcpu hquiet htick

/-- No sleeper is without its timer while the tasks are undisturbed and every tick is quiet. -/
theorem sleepRun_hasTimer (hboot : Sched.Booted n s v)
    (hrun : Run n Undisturbed (Quiet n) (Sleeping.start s) m) : HasTimer m.w := by
  obtain ⟨w, v', hf, hw⟩ := hrun.follows hboot
  exact hf.hasTimer hw

/-- A step leaves the other tasks where they are. -/
theorem act_other (hact : m.act cpu msc = .ok m') (hne : t ≠ m.w.s.cur cpu) :
    m'.w.pc t = m.w.pc t ∧ m'.sect t = m.sect t := by
  have henter : ∀ sect s, (m.enter (m.w.s.cur cpu) sect s).w.pc t = m.w.pc t ∧
      (m.enter (m.w.s.cur cpu) sect s).sect t = m.sect t := fun _ _ => ⟨rfl, update_of_ne hne ..⟩
  have hleave : ∀ pc s, (m.leave (m.w.s.cur cpu) pc s).w.pc t = m.w.pc t ∧
      (m.leave (m.w.s.cur cpu) pc s).sect t = m.sect t :=
    fun _ _ => ⟨update_of_ne hne .., update_of_ne hne ..⟩
  rw [act] at hact
  dsimp only at hact
  split at hact
  · split at hact
    · split at hact <;> cases hact
      · exact hleave _ _
      · exact henter _ _
    · cases hact
      exact henter _ _
    · cases hact
      exact henter _ _
    · obtain ⟨w, hw, hact⟩ := bind_eq_ok hact
      cases hact
      exact ⟨SleepWorld.act_other hw hne, rfl⟩
  · cases hact
    exact henter _ _
  · cases hact
    exact henter _ _
  · split at hact
    · cases hact
      exact hleave _ _
    · cases hact
  · split at hact <;> cases hact
    · exact henter _ _
    · exact hleave _ _

/-- Steps of the task `t`, which runs on the CPU, without a tick. -/
def acts (cpu msc t : Nat) : Nat → Sleeping → Except Fault Sleeping
  | 0, m => .ok m
  | i + 1, m => do
    assertk (m.w.s.cur cpu = t ∧ t ≠ m.w.s.idle cpu)
    let m ← m.act cpu msc
    acts cpu msc t i m

/-- No task but `t` sleeps or goes to sleep. -/
def Only (m : Sleeping) (t : Nat) : Prop := ∀ t' ≠ t, m.w.pc t' = .out ∧ m.sect t' = none

theorem Run.acts {C : Sleeping → Nat → Prop} {m0 : Sleeping} {i : Nat} (hrun : Run n Undisturbed C m0 m)
    (hcpu : cpu < n) (honly : m.Only t) (hacts : acts cpu msc t i m = .ok m') :
    Run n Undisturbed C m0 m' ∧ m'.Only t := by
  induction i generalizing m with
  | zero =>
    cases hacts
    exact ⟨hrun, honly⟩
  | succ i ih =>
    obtain ⟨_, hne, hacts⟩ := bind_eq_ok hacts
    obtain ⟨m1, hact, hacts⟩ := bind_eq_ok hacts
    obtain ⟨rfl, hne⟩ := of_assertk hne
    refine ih (.act hrun hcpu hne (fun t' ht' => (honly t' ht').2) hact) (fun t' ht' => ?_) hacts
    obtain ⟨hpc, hsect⟩ := act_other hact ht'
    rw [hpc, hsect]
    exact honly t' ht'

def sleepOnce : Except Fault Sleeping := do
  let m1 ← acts 0 10 1 10 (.start Sched.oneTask)
  assertk (m1.w.s.links.next .timerHead = TaskNode.timerHead ∧ (m1.w.s.tcb (m1.w.s.cur 0)).timerSlice ≠ 0 ∧
    m1.w.pc 1 = .arm 19 ∧ (m1.sect 1).isSome)
  let s ← m1.w.s.clockIsr 0
  let m2 ← acts 0 10 1 11 { m1 with w := { m1.w with s } }
  assertk (m2.w.pc 1 = .asleep 19 ∧ m2.w.s.gTick = 10)
  .ok m2

/-- A call that sleeps for 10 ms, with a tick between the stores that arm its timer. -/
theorem sleepRun_hasTimer_oneSleep : ∃ m, Run 1 Undisturbed (Quiet 1) (.start Sched.oneTask) m ∧
    m.w.pc 1 = .asleep 19 ∧ m.w.s.gTick = 10 ∧ HasTimer m.w := by
  obtain ⟨_, hall⟩ := exists_ok (x := sleepOnce) (by decide +kernel)
  obtain ⟨m1, hacts1, hall⟩ := bind_eq_ok hall
  simp only [bind_ok_iff] at hall
  obtain ⟨_, hassert, s, htick, m2, hacts2, _, hdone, _⟩ := hall
  obtain ⟨hnone, hslice, hpc, _⟩ := of_assertk hassert
  obtain ⟨hpc', htime⟩ := of_assertk hdone
  obtain ⟨hrun1, honly1⟩ := Run.acts (n := 1) (C := Quiet 1) .start Nat.one_pos
    (fun _ _ => ⟨rfl, rfl⟩) hacts1
  have hplace : ∀ t, m1.w.pc t = .out ∨ m1.w.pc t = .arm 19 := by
    intro t
    by_cases heq : t = 1
    · exact .inr (heq ▸ hpc)
    · exact .inl (honly1 t heq).1
  have hquiet : Quiet 1 m1 0 := by
    refine ⟨⟨fun _ t k hk => ?_, fun _ c _ k hk => ?_, fun hzero => absurd hzero hslice⟩, fun _ _ => hslice,
      fun _ _ _ k ⟨i, hi⟩ => ?_⟩
    · rcases hplace t with h | h <;> rw [h] at hk <;> cases hk
    · rcases hplace (m1.w.s.cur c) with h | h <;> rw [h] at hk <;> cases hk
    · rw [iterate_fixed hnone] at hi
      cases hi
  obtain ⟨hrun2, _⟩ := (Run.tick hrun1 Nat.one_pos hquiet htick).acts Nat.one_pos honly1 hacts2
  exact ⟨m2, hrun2, hpc', htime, sleepRun_hasTimer oneTask_booted hrun2⟩

def sleepLost : Except Fault Sleeping := do
  let m1 ← acts 0 10 1 12 (.start Sched.oneTask)
  let s ← m1.w.s.clockIsr 0
  let m2 ← acts 0 10 1 9 { m1 with w := { m1.w with s } }
  assertk ((m2.w.pc 1).slept = true ∧ m2.w.s.links.next .blockList = TaskNode.run 1 ∧
    m2.w.s.links.next .timerHead = TaskNode.timerHead)
  .ok m2

/-- A task sleeps for 10 ms, and the tick comes when its timer is armed: it finds the task running and
takes the timer. -/
theorem sleepRun_lostWakeup :
    ∃ m, Run 1 Undisturbed (fun _ _ => True) (.start Sched.oneTask) m ∧ ¬HasTimer m.w := by
  obtain ⟨_, hall⟩ := exists_ok (x := sleepLost) (by decide +kernel)
  obtain ⟨m1, hacts1, hall⟩ := bind_eq_ok hall
  simp only [bind_ok_iff] at hall
  obtain ⟨s, htick, m2, hacts2, _, hassert, _⟩ := hall
  obtain ⟨hslept, hblock, hnone⟩ := of_assertk hassert
  obtain ⟨hrun1, honly1⟩ := Run.acts (n := 1) (C := fun _ _ => True) .start Nat.one_pos
    (fun _ _ => ⟨rfl, rfl⟩) hacts1
  obtain ⟨hrun2, _⟩ := (Run.tick hrun1 Nat.one_pos trivial htick).acts Nat.one_pos honly1 hacts2
  refine ⟨m2, hrun2, fun h => ?_⟩
  obtain ⟨k, ⟨i, hi⟩, _⟩ := h 1 hslept ⟨1, hblock⟩
  rw [iterate_fixed hnone] at hi
  cases hi

end Sleeping

end QuarkOS
