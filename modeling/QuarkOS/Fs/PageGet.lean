import QuarkOS.Fs.Writeback

/-!
# Concurrent lookups

`page_get` as the steps that other threads can come between: the search under the read lock, the new
buffer, and the insertion under the write lock. A thread that has missed does not search again before it
inserts, so two threads that miss the same sector both insert a page for it. `Alone` rules this out: no
thread searches for a sector that another one is about to insert.
-/

namespace QuarkOS

open Function

/-- Where a thread is in `page_get`. -/
inductive GetPc
  | idle
  | missed (noSecs : Nat)
  | created (b : Nat)
deriving DecidableEq, Repr

structure GetWorld where
  cache : CacheAllocator
  pc : Nat → GetPc

inductive GetEvent
  | search (t noSecs : Nat)
  | create (t : Nat)
  | insert (t : Nat)
deriving DecidableEq, Repr

namespace GetWorld

def setPc (w : GetWorld) (t : Nat) (pc : GetPc) : GetWorld :=
  { w with pc := update w.pc t pc }

/-- One section of `page_get`; `none` when the thread is at another one. A thread that finds its page
returns it. -/
def step (w : GetWorld) : GetEvent → Except Fault (Option GetWorld)
  | .search t noSecs =>
    match w.pc t with
    | .idle => do
      assertk (noSecs &&& 7 = 0)
      match w.cache.search noSecs with
      | some b =>
        assertk (w.cache.pages b).cache
        .ok (some w)
      | none => .ok (some (w.setPc t (.missed noSecs)))
    | _ => .ok none
  | .create t =>
    match w.pc t with
    | .missed noSecs => do
      let (b, cache) ← w.cache.newBuf noSecs
      .ok (some ({ w with cache }.setPc t (.created b)))
    | _ => .ok none
  | .insert t =>
    match w.pc t with
    | .created b => .ok (some ({ w with cache := w.cache.insert b }.setPc t .idle))
    | _ => .ok none

/-- The sector that a thread is about to insert a page for. -/
def pending (w : GetWorld) (t : Nat) : Option Nat :=
  match w.pc t with
  | .idle => none
  | .missed noSecs => some noSecs
  | .created b => some (w.cache.pages b).noSecs

end GetWorld

/-- No thread is about to insert a page for a sector that is searched for. -/
def Alone (w : GetWorld) : GetEvent → Prop
  | .search t noSecs => ∀ t' ≠ t, w.pending t' ≠ some noSecs
  | _ => True

inductive GetRun (C : GetWorld → GetEvent → Prop) (w0 : GetWorld) : GetWorld → Prop
  | start : GetRun C w0 w0
  | step {w w' : GetWorld} (hrun : GetRun C w0 w) (ev : GetEvent) (hcond : C w ev)
      (hstep : w.step ev = .ok (some w')) : GetRun C w0 w'

/-- No sector has two pages in the list. -/
def OnePage (c : CacheAllocator) : Prop := (c.list.map fun b => (c.pages b).noSecs).Nodup

structure GetInv (w : GetWorld) : Prop where
  onePage : OnePage w.cache
  free_nodup : w.cache.free.Nodup
  free_notMem : ∀ b ∈ w.cache.free, b ∉ w.cache.list
  free_created : ∀ t b, w.pc t = .created b → b ∉ w.cache.free
  /-- Threads are about to insert different sectors. -/
  pending_inj : ∀ t t' s, w.pending t = some s → w.pending t' = some s → t = t'
  /-- A miss stays a miss. -/
  pending_absent : ∀ t s, w.pending t = some s → ∀ b ∈ w.cache.list, (w.cache.pages b).noSecs ≠ s

variable {w w' w0 : GetWorld} {t t' noSecs b : Nat} {pc : GetPc} {ev : GetEvent}

namespace GetWorld

theorem pc_setPc_self : (w.setPc t pc).pc t = pc := update_self ..

theorem pc_setPc_of_ne (h : t' ≠ t) : (w.setPc t pc).pc t' = w.pc t' := update_of_ne h ..

theorem pending_setPc_of_ne (h : t' ≠ t) : (w.setPc t pc).pending t' = w.pending t' := by
  rw [pending, pc_setPc_of_ne h]
  rfl

theorem pending_idle (h : w.pc t = .idle) : w.pending t = none := by
  rw [pending, h]

theorem pending_missed (h : w.pc t = .missed noSecs) : w.pending t = some noSecs := by
  rw [pending, h]

theorem pending_created (h : w.pc t = .created b) : w.pending t = some (w.cache.pages b).noSecs := by
  rw [pending, h]

end GetWorld

namespace GetInv

open GetWorld

theorem missed (h : GetInv w) (hnone : w.cache.search noSecs = none)
    (halone : ∀ t' ≠ t, w.pending t' ≠ some noSecs) : GetInv (w.setPc t (.missed noSecs)) where
  onePage := h.onePage
  free_nodup := h.free_nodup
  free_notMem := h.free_notMem
  free_created := by
    intro t' b hpc
    by_cases ht : t' = t
    · rw [ht, pc_setPc_self] at hpc
      cases hpc
    · rw [pc_setPc_of_ne ht] at hpc
      exact h.free_created t' b hpc
  pending_inj := by
    have hself : (w.setPc t (.missed noSecs)).pending t = some noSecs := pending_missed pc_setPc_self
    intro t1 t2 s h1 h2
    by_cases ht1 : t1 = t
    · by_cases ht2 : t2 = t
      · rw [ht1, ht2]
      · rw [ht1, hself] at h1
        rw [pending_setPc_of_ne ht2, ← h1] at h2
        exact absurd h2 (halone t2 ht2)
    · rw [pending_setPc_of_ne ht1] at h1
      by_cases ht2 : t2 = t
      · rw [ht2, hself] at h2
        exact absurd (h1.trans h2.symm) (halone t1 ht1)
      · rw [pending_setPc_of_ne ht2] at h2
        exact h.pending_inj t1 t2 s h1 h2
  pending_absent := by
    intro t' s hs b hb
    by_cases ht : t' = t
    · rw [ht, pending_missed pc_setPc_self] at hs
      cases hs
      exact Tidy.search_eq_none hnone hb
    · rw [pending_setPc_of_ne ht] at hs
      exact h.pending_absent t' s hs b hb

/-- A free page becomes the buffer of a thread that has missed; no other page changes. -/
theorem created {cache : CacheAllocator} (h : GetInv w) (hpc : w.pc t = .missed noSecs)
    (hnew : w.cache.newBuf noSecs = .ok (b, cache)) :
    GetInv ({ w with cache }.setPc t (.created b)) := by
  unfold CacheAllocator.newBuf at hnew
  split at hnew
  · cases hnew
  · rename_i b' free hfree
    cases hnew
    have hbfree : b ∈ w.cache.free := hfree ▸ List.mem_cons_self
    have hsub : ∀ a ∈ free, a ∈ w.cache.free := fun a ha => hfree ▸ List.mem_cons_of_mem b ha
    have hnodup : (b :: free).Nodup := hfree ▸ h.free_nodup
    have hb := h.free_notMem b hbfree
    generalize hcache : ({ w.cache with free, dirty := w.cache.dirty.nodeInit b } :
        CacheAllocator).setPage b { w.cache.pages b with cache := true, noSecs } = cache
    have hlist : cache.list = w.cache.list := by
      rw [← hcache]
      rfl
    have hfree' : cache.free = free := by
      rw [← hcache]
      rfl
    have hself : (cache.pages b).noSecs = noSecs := by
      rw [← hcache, CacheAllocator.setPage]
      dsimp only
      rw [update_self]
    have hpage : ∀ a ≠ b, cache.pages a = w.cache.pages a := by
      intro a hab
      rw [← hcache, CacheAllocator.setPage]
      exact update_of_ne hab ..
    have hmem : ∀ a ∈ w.cache.list, cache.pages a = w.cache.pages a := by
      intro a ha
      apply hpage
      rintro rfl
      exact hb ha
    -- The sectors that threads are about to insert have not changed.
    have hpending : ∀ t', ({ w with cache }.setPc t (.created b)).pending t' = w.pending t' := by
      intro t'
      by_cases ht : t' = t
      · rw [ht, pending_created pc_setPc_self, pending_missed hpc]
        exact congrArg some hself
      · rw [pending_setPc_of_ne ht, pending, pending]
        dsimp only
        split
        · rfl
        · rfl
        · rename_i a ha
          rw [hpage a]
          rintro rfl
          exact h.free_created t' a ha hbfree
    refine ⟨?_, ?_, ?_, ?_, ?_, ?_⟩
    · change (cache.list.map fun a => (cache.pages a).noSecs).Nodup
      rw [hlist, List.map_congr_left fun a ha => congrArg CachePage.noSecs (hmem a ha)]
      exact h.onePage
    · change cache.free.Nodup
      rw [hfree']
      exact (List.nodup_cons.1 hnodup).2
    · change ∀ a ∈ cache.free, a ∉ cache.list
      rw [hfree', hlist]
      exact fun a ha => h.free_notMem a (hsub a ha)
    · intro t' a ha
      change a ∉ cache.free
      rw [hfree']
      by_cases ht : t' = t
      · rw [ht, pc_setPc_self] at ha
        cases ha
        exact (List.nodup_cons.1 hnodup).1
      · rw [pc_setPc_of_ne ht] at ha
        exact fun hmem => h.free_created t' a ha (hsub a hmem)
    · intro t1 t2 s h1 h2
      rw [hpending] at h1 h2
      exact h.pending_inj t1 t2 s h1 h2
    · intro t' s hs a ha
      rw [hpending] at hs
      change a ∈ cache.list at ha
      change (cache.pages a).noSecs ≠ s
      rw [hlist] at ha
      rw [hmem a ha]
      exact h.pending_absent t' s hs a ha

theorem inserted (h : GetInv w) (hpc : w.pc t = .created b) :
    GetInv ({ w with cache := w.cache.insert b }.setPc t .idle) := by
  have hold := pending_created hpc
  have hpending : ∀ t' ≠ t, ({ w with cache := w.cache.insert b }.setPc t .idle).pending t' =
      w.pending t' := fun t' ht => pending_setPc_of_ne ht
  have hidle : ({ w with cache := w.cache.insert b }.setPc t .idle).pending t = none :=
    pending_idle pc_setPc_self
  have hsome : ∀ t' s, ({ w with cache := w.cache.insert b }.setPc t .idle).pending t' = some s →
      t' ≠ t ∧ w.pending t' = some s := by
    intro t' s hs
    by_cases ht : t' = t
    · rw [ht, hidle] at hs
      cases hs
    · exact ⟨ht, hpending t' ht ▸ hs⟩
  refine ⟨?_, h.free_nodup, ?_, ?_, ?_, ?_⟩
  · change ((w.cache.list ++ [b]).map fun a => (w.cache.pages a).noSecs).Nodup
    rw [List.map_append, List.map_singleton]
    apply List.Nodup.append h.onePage (List.nodup_singleton _)
    rw [List.disjoint_singleton]
    intro hmem
    obtain ⟨a, ha, heq⟩ := List.mem_map.1 hmem
    exact h.pending_absent t _ hold a ha heq
  · intro a ha hmem
    rcases List.mem_append.1 hmem with hlist | hself
    · exact h.free_notMem a ha hlist
    · rw [List.mem_singleton.1 hself] at ha
      exact h.free_created t b hpc ha
  · intro t' a ha
    by_cases ht : t' = t
    · rw [ht, pc_setPc_self] at ha
      cases ha
    · rw [pc_setPc_of_ne ht] at ha
      exact h.free_created t' a ha
  · intro t1 t2 s h1 h2
    exact h.pending_inj t1 t2 s (hsome t1 s h1).2 (hsome t2 s h2).2
  · intro t' s hs a ha heq
    obtain ⟨ht, hs⟩ := hsome t' s hs
    rcases List.mem_append.1 ha with hlist | hself
    · exact h.pending_absent t' s hs a hlist heq
    · rw [List.mem_singleton.1 hself] at heq
      change (w.cache.pages b).noSecs = s at heq
      exact ht (h.pending_inj t' t s hs (heq ▸ hold))

theorem step (h : GetInv w) (halone : Alone w ev) (hstep : w.step ev = .ok (some w')) : GetInv w' := by
  cases ev with
  | search t noSecs =>
    rw [GetWorld.step] at hstep
    split at hstep
    · obtain ⟨_, _, hstep⟩ := bind_eq_ok hstep
      split at hstep
      · obtain ⟨_, _, hstep⟩ := bind_eq_ok hstep
        cases hstep
        exact h
      · rename_i hnone
        cases hstep
        exact h.missed hnone halone
    · cases hstep
  | create t =>
    rw [GetWorld.step] at hstep
    split at hstep
    · rename_i noSecs hpc
      obtain ⟨⟨b, cache⟩, hnew, hstep⟩ := bind_eq_ok hstep
      cases hstep
      exact h.created hpc hnew
    · cases hstep
  | insert t =>
    rw [GetWorld.step] at hstep
    split at hstep
    · rename_i b hpc
      cases hstep
      exact h.inserted hpc
    · cases hstep

end GetInv

/-- All threads are outside `page_get`, and the list and the free pages are in order. -/
structure GetStart (w : GetWorld) : Prop where
  onePage : OnePage w.cache
  free_nodup : w.cache.free.Nodup
  free_notMem : ∀ b ∈ w.cache.free, b ∉ w.cache.list
  idle : ∀ t, w.pc t = .idle

theorem GetStart.inv (h : GetStart w) : GetInv w where
  onePage := h.onePage
  free_nodup := h.free_nodup
  free_notMem := h.free_notMem
  free_created := by
    intro t b hpc
    rw [h.idle t] at hpc
    cases hpc
  pending_inj := by
    intro t t' s hs
    rw [GetWorld.pending_idle (h.idle t)] at hs
    cases hs
  pending_absent := by
    intro t s hs
    rw [GetWorld.pending_idle (h.idle t)] at hs
    cases hs

/-- Every sector has one page in every run where no thread searches for a sector that another one is
about to insert. -/
theorem getRun_onePage (hstart : GetStart w0) (hrun : GetRun Alone w0 w) : OnePage w.cache := by
  have hinv : GetInv w := by
    induction hrun with
    | start => exact hstart.inv
    | step _ ev hcond hstep ih => exact ih.step hcond hstep
  exact hinv.onePage

def smallWorld : GetWorld := { cache := smallCache, pc := fun _ => .idle }

theorem smallWorld_start : GetStart smallWorld where
  onePage := List.nodup_nil
  free_nodup := by decide
  free_notMem := fun _ _ => List.not_mem_nil
  idle := fun _ => rfl

/-- Two threads miss different sectors and insert their pages, and then each finds the other's. -/
theorem getRun_onePage_smallWorld : ∃ w, GetRun Alone smallWorld w ∧ w.cache.list = [0, 1] ∧
    (w.cache.pages 0).noSecs = 8 ∧ (w.cache.pages 1).noSecs = 16 ∧ OnePage w.cache := by
  have hstart : GetRun Alone smallWorld smallWorld := .start
  have hmissed := (hstart.step (.search 0 8) (fun _ _ => nofun) rfl).step (.search 1 16)
    (fun t _ => match t with | 0 => nofun | 1 => nofun | _ + 2 => nofun) rfl
  have hcreated := (hmissed.step (.create 0) trivial rfl).step (.create 1) trivial rfl
  have hinserted := (hcreated.step (.insert 0) trivial rfl).step (.insert 1) trivial rfl
  have hrun := (hinserted.step (.search 0 16)
    (fun t _ => match t with | 0 => nofun | 1 => nofun | _ + 2 => nofun) rfl).step (.search 1 8)
    (fun t _ => match t with | 0 => nofun | 1 => nofun | _ + 2 => nofun) rfl
  exact ⟨_, hrun, rfl, rfl, rfl, getRun_onePage smallWorld_start hrun⟩

/-- Two threads miss the same sector, and both insert a page for it. -/
theorem bothMiss_not_onePage : ∃ w, GetRun (fun _ _ => True) smallWorld w ∧ w.cache.list = [0, 1] ∧
    (w.cache.pages 0).noSecs = (w.cache.pages 1).noSecs ∧ ¬ OnePage w.cache := by
  have hmissed := (GetRun.start.step (C := fun _ _ => True) (.search 0 8) trivial
    (w := smallWorld) rfl).step (.search 1 8) trivial rfl
  have hcreated := (hmissed.step (.create 0) trivial rfl).step (.create 1) trivial rfl
  have hrun := (hcreated.step (.insert 0) trivial rfl).step (.insert 1) trivial rfl
  refine ⟨_, hrun, rfl, rfl, fun hone => ?_⟩
  revert hone
  unfold OnePage
  decide

end QuarkOS
