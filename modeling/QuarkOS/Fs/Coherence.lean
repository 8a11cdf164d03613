import QuarkOS.Fs.Writeback

/-!
# What cached pages hold

The contents of the pages against the disk and against what was written to them, over whole runs. The
direction of a transfer is that of the flag `PG_DIRTY`, so a page that is written back keeps its bytes and
one that is read gets those of the disk. The driver sends 28 bits of a sector number: pages whose numbers
differ by a multiple of 2^28 share their sectors on the disk, and the last one written back is left there.
-/

namespace QuarkOS

open Bytes Queue Function

variable {c c' c0 : CacheAllocator} {a b noSecs : Nat} {l : List Nat} {ops : List CacheOp}
  {op : CacheOp}

/-- What was last written to the page `b`, by one operation more. -/
def wroteBy (b : Nat) (last : Option Area) : CacheOp → Option Area
  | .write b' data => if b' = b then some data else last
  | _ => last

def lastWrite (b : Nat) (ops : List CacheOp) : Option Area := ops.foldl (wroteBy b) none

theorem lastWrite_concat (b : Nat) (ops : List CacheOp) (op : CacheOp) :
    lastWrite b (ops ++ [op]) = wroteBy b (lastWrite b ops) op := by
  rw [lastWrite, List.foldl_append]
  rfl

/-- `page_get`, `page_read`, writes and `page_fsync`. -/
def InScope : CacheOp → Prop
  | .get noSecs => noSecs % 8 = 0 ∧ noSecs < 2 ^ 32
  | .read _ | .write _ _ | .fsync => True
  | .readSync _ | .mark _ | .sync _ => False

/-- The driver can send the sector number. -/
def Below28 : CacheOp → Prop
  | .get noSecs => noSecs < 2 ^ 28
  | _ => True

/-- What the pages hold after some operations. -/
structure Coherent (ops : List CacheOp) (c : CacheAllocator) : Prop where
  below : ∀ b ∈ c.list, (c.pages b).noSecs < 2 ^ 28
  clean : ∀ b ∈ c.list, (c.pages b).valid = true → (c.pages b).dirty = false →
    c.disk (c.pages b).noSecs = (c.pages b).data
  written : ∀ b data, lastWrite b ops = some data →
    b ∈ c.list ∧ (c.pages b).valid = true ∧ (c.pages b).data = data
  unwritten : ∀ b ∈ c.list, (c.pages b).dirty = true → lastWrite b ops ≠ none

theorem lba28_of_lt (h : noSecs < 2 ^ 28) : lba28 noSecs = noSecs := Nat.mod_eq_of_lt h

namespace Coherent

section

variable (h : Coherent ops c)
include h

theorem transferred (hwf : CacheWf c) (hb : b ∈ c.list) :
    Coherent ops (c.transferred b) := by
  have hlba : lba28 (c.pages b).noSecs = (c.pages b).noSecs := lba28_of_lt (h.below b hb)
  have hpage : ∀ a ≠ b, (c.transferred b).pages a = c.pages a := fun a hab =>
    update_of_ne hab ..
  have hself : (c.transferred b).pages b = c.transferredPage b := update_self ..
  have hmem : ∀ a, a ∈ (c.transferred b).list ↔ a ∈ c.list := fun a => mem_cons_erase hb
  have hother : ∀ a ∈ c.list, a ≠ b →
      (c.transferred b).disk (c.pages a).noSecs = c.disk (c.pages a).noSecs := by
    intro a ha hab
    unfold CacheAllocator.transferred
    dsimp only
    split
    · rw [hlba]
      exact update_of_ne (fun heq => hab (hwf.sector_inj a ha b hb heq)) ..
    · rfl
  refine ⟨?_, ?_, ?_, ?_⟩
  · intro a ha
    by_cases hab : a = b
    · subst hab
      rw [hself]
      exact h.below a hb
    · rw [hpage a hab]
      exact h.below a ((hmem a).1 ha)
  · intro a ha
    by_cases hab : a = b
    · subst hab
      rw [hself]
      intro _ _
      unfold CacheAllocator.transferred CacheAllocator.transferredPage
      dsimp only
      rw [hlba]
      split
      · exact update_self ..
      · rfl
    · rw [hpage a hab, hother a ((hmem a).1 ha) hab]
      exact h.clean a ((hmem a).1 ha)
  · intro a data hlast
    obtain ⟨ha, hvalid, hdata⟩ := h.written a data hlast
    refine ⟨(hmem a).2 ha, ?_⟩
    by_cases hab : a = b
    · subst hab
      rw [hself]
      refine ⟨rfl, ?_⟩
      unfold CacheAllocator.transferredPage
      dsimp only
      split
      · exact hdata
      · rename_i hdirty
        rw [hlba, h.clean a ha hvalid (Bool.eq_false_of_not_eq_true hdirty), hdata]
    · rw [hpage a hab]
      exact ⟨hvalid, hdata⟩
  · intro a ha hdirty
    by_cases hab : a = b
    · subst hab
      rw [hself] at hdirty
      cases hdirty
    · rw [hpage a hab] at hdirty
      exact h.unwritten a ((hmem a).1 ha) hdirty

theorem concat (hop : ∀ b, wroteBy b (lastWrite b ops) op = lastWrite b ops) :
    Coherent (ops ++ [op]) c where
  below := h.below
  clean := h.clean
  written := by
    intro b data hlast
    rw [lastWrite_concat, hop] at hlast
    exact h.written b data hlast
  unwritten := by
    intro b hb hdirty
    rw [lastWrite_concat, hop]
    exact h.unwritten b hb hdirty

theorem newBuf (ht : Tidy c l) (hnone : c.search noSecs = none)
    (hlt : noSecs < 2 ^ 28) (hnew : c.newBuf noSecs = .ok (b, c')) : Coherent ops (c'.insert b) := by
  obtain ⟨_, hb, hlist, hpage, hsecs, hclean, hinvalid, hdisk⟩ := ht.newBuf hnone hnew
  have hne : ∀ a ∈ c.list, a ≠ b := by
    rintro a ha rfl
    exact hb ha
  have hmem : ∀ a, a ∈ (c'.insert b).list ↔ a ∈ c.list ∨ a = b := by
    intro a
    rw [CacheAllocator.insert]
    dsimp only
    rw [hlist, List.mem_append, List.mem_singleton]
  have hpages : ∀ a, (c'.insert b).pages a = c'.pages a := fun _ => rfl
  refine ⟨?_, ?_, ?_, ?_⟩
  · intro a ha
    rw [hpages]
    rcases (hmem a).1 ha with hold | rfl
    · rw [hpage a (hne a hold)]
      exact h.below a hold
    · rw [hsecs]
      exact hlt
  · intro a ha
    rw [hpages, show (c'.insert b).disk = c.disk from hdisk]
    rcases (hmem a).1 ha with hold | rfl
    · rw [hpage a (hne a hold)]
      exact h.clean a hold
    · intro hvalid
      rw [hinvalid] at hvalid
      cases hvalid
  · intro a data hlast
    obtain ⟨ha, hold⟩ := h.written a data hlast
    rw [hpages, hpage a (hne a ha)]
    exact ⟨(hmem a).2 (Or.inl ha), hold⟩
  · intro a ha
    rw [hpages]
    rcases (hmem a).1 ha with hold | rfl
    · rw [hpage a (hne a hold)]
      exact h.unwritten a hold
    · intro hdirty
      rw [hclean] at hdirty
      cases hdirty

theorem write {data : Area} (hwf : CacheWf c) (hb : b ∈ c.list)
    (hwrite : c.write b data = .ok c') : Coherent (ops ++ [.write b data]) c' := by
  obtain ⟨q, hok⟩ := hwf.write_ok hb data
  rw [hok] at hwrite
  cases hwrite
  have hpage : ∀ a ≠ b, update c.pages b { c.pages b with data, dirty := true, valid := true } a =
      c.pages a := fun a hab => update_of_ne hab ..
  have hself : update c.pages b { c.pages b with data, dirty := true, valid := true } b =
      { c.pages b with data, dirty := true, valid := true } := update_self ..
  unfold CacheAllocator.setPage
  refine ⟨?_, ?_, ?_, ?_⟩ <;> dsimp only
  · intro a ha
    by_cases hab : a = b
    · rw [hab, hself]
      exact h.below b hb
    · rw [hpage a hab]
      exact h.below a ha
  · intro a ha
    by_cases hab : a = b
    · rw [hab, hself]
      exact fun _ hclean => absurd hclean nofun
    · rw [hpage a hab]
      exact h.clean a ha
  · intro a data' hlast
    rw [lastWrite_concat, wroteBy] at hlast
    by_cases hab : a = b
    · subst hab
      rw [if_pos rfl] at hlast
      rw [hself]
      exact ⟨hb, rfl, Option.some.inj hlast⟩
    · rw [if_neg (Ne.symm hab)] at hlast
      rw [hpage a hab]
      exact h.written a data' hlast
  · intro a ha hdirty
    rw [lastWrite_concat, wroteBy]
    by_cases hab : a = b
    · rw [if_pos hab.symm]
      exact nofun
    · rw [hpage a hab] at hdirty
      rw [if_neg (Ne.symm hab)]
      exact h.unwritten a ha hdirty

theorem fsync (ht : Tidy c l) :
    ∃ c', c.pageFsync = .ok c' ∧ Tidy c' [] ∧ Coherent ops c' :=
  ht.pageFsync (fun _ _ hc => ⟨hc.below, hc.clean, hc.written, hc.unwritten⟩)
    (fun _ _ hwf hb hc => hc.transferred hwf hb) h

theorem step (ht : Tidy c l) (hcached : Caches c op) (hscope : InScope op)
    (hlow : Below28 op) (hstep : cacheStep c op = .ok c') : Coherent (ops ++ [op]) c' := by
  cases op with
  | get noSecs =>
    apply Coherent.concat _ fun _ => rfl
    obtain ⟨⟨b, c1⟩, hget, hret⟩ := bind_eq_ok hstep
    cases hret
    obtain ⟨_, _, hget⟩ := bind_eq_ok hget
    split at hget
    · obtain ⟨_, _, hget⟩ := bind_eq_ok hget
      cases hget
      exact h
    · rename_i hnone
      obtain ⟨⟨b', c2⟩, hnew, hget⟩ := bind_eq_ok hget
      cases hget
      exact h.newBuf ht hnone hlow hnew
  | read b =>
    apply Coherent.concat _ fun _ => rfl
    rw [cacheStep, CacheAllocator.pageRead] at hstep
    split at hstep
    · cases hstep
      exact h
    · rw [CacheAllocator.pageRw_eq] at hstep
      cases hstep
      exact h.transferred ht.toCacheWf hcached
  | write b data => exact h.write ht.toCacheWf hcached hstep
  | fsync =>
    apply Coherent.concat _ fun _ => rfl
    obtain ⟨c1, hok, _, hcoherent⟩ := h.fsync ht
    rw [cacheStep, hok] at hstep
    cases hstep
    exact hcoherent
  | readSync b => exact absurd hscope id
  | mark b => exact absurd hscope id
  | sync b => exact absurd hscope id

end

end Coherent

/-- The page cache as a store of disk pages, after the operations `ops`. -/
structure StoresPages (ops : List CacheOp) (c : CacheAllocator) : Prop where
  one_page : ∀ a ∈ c.list, ∀ b ∈ c.list, (c.pages a).noSecs = (c.pages b).noSecs → a = b
  read_valid : ∀ b ∈ c.list, (c.pages b).valid = true → c.pageRead b = .ok c
  contents : ∀ b ∈ c.list, (c.pages b).valid = true → lastWrite b ops = some (c.pages b).data ∨
    lastWrite b ops = none ∧ (c.pages b).data = c.disk (c.pages b).noSecs
  fsync : ∃ c', c.pageFsync = .ok c' ∧ c'.dirty.Waiting [] ∧
    (∀ b ∈ c'.list, (c'.pages b).dirty = false) ∧
    ∀ b ∈ c'.list, (c'.pages b).valid = true → c'.disk (c'.pages b).noSecs = (c'.pages b).data
  returns : ∀ op, Caches c op → InScope op →
    (∃ c', cacheStep c op = .ok c') ∨ cacheStep c op = .error .outOfMemory

theorem inScope_cleanSync (h : InScope op) : CleanSync c op := by
  cases op with
  | readSync b => exact absurd h id
  | sync b => exact absurd h id
  | get noSecs => trivial
  | read b => trivial
  | mark b => trivial
  | write b data => trivial
  | fsync => trivial

theorem Tidy.returns (h : Tidy c l) (hcached : Caches c op) (hscope : InScope op) :
    (∃ c', cacheStep c op = .ok c') ∨ cacheStep c op = .error .outOfMemory := by
  cases op with
  | get noSecs =>
    have halign : noSecs &&& 7 = 0 := (Nat.and_two_pow_sub_one_eq_mod noSecs 3).trans hscope.1
    rw [cacheStep, CacheAllocator.pageGet, assertk_pos halign]
    split
    · rename_i b hsome
      rw [h.cached b (Tidy.of_search hsome).1]
      exact Or.inl ⟨c, rfl⟩
    · cases hnew : c.newBuf noSecs with
      | error e =>
        right
        unfold CacheAllocator.newBuf at hnew
        split at hnew
        · cases hnew
          rfl
        · cases hnew
      | ok r => exact Or.inl ⟨_, rfl⟩
  | read b =>
    left
    rw [cacheStep, CacheAllocator.pageRead]
    split
    · exact ⟨c, rfl⟩
    · exact ⟨_, CacheAllocator.pageRw_eq c b⟩
  | write b data =>
    obtain ⟨q, hok⟩ := h.write_ok hcached data
    exact Or.inl ⟨_, hok⟩
  | fsync =>
    obtain ⟨c', hok, _⟩ := h.pageFsync_ok
    exact Or.inl ⟨c', hok⟩
  | readSync b => exact absurd hscope id
  | mark b => exact absurd hscope id
  | sync b => exact absurd hscope id

theorem Coherent.storesPages (h : Coherent ops c) (ht : Tidy c l) : StoresPages ops c where
  one_page := ht.sector_inj
  read_valid := by
    intro b _ hvalid
    rw [CacheAllocator.pageRead, if_pos hvalid]
  contents := by
    intro b hb hvalid
    cases hlast : lastWrite b ops with
    | some data =>
      left
      rw [(h.written b data hlast).2.2]
    | none =>
      refine Or.inr ⟨rfl, (h.clean b hb hvalid ?_).symm⟩
      by_contra hdirty
      exact h.unwritten b hb (Bool.eq_true_of_not_eq_false hdirty) hlast
  fsync := by
    obtain ⟨c', hok, htidy, hcoherent⟩ := h.fsync ht
    have hclean : ∀ b ∈ c'.list, (c'.pages b).dirty = false := by
      intro b hb
      by_contra hdirty
      exact List.not_mem_nil ((htidy.mem_iff b).2 ⟨hb, Bool.eq_true_of_not_eq_false hdirty⟩)
    exact ⟨c', hok, htidy.holds, hclean, fun b hb hvalid => hcoherent.clean b hb hvalid (hclean b hb)⟩
  returns := fun _ hcached hscope => ht.returns hcached hscope

theorem CacheRun.coherent (hboot : Booted c0)
    (hrun : CacheRun (fun _ op => InScope op ∧ Below28 op) c0 ops c) :
    Coherent ops c ∧ ∃ l, Tidy c l := by
  induction hrun with
  | nil =>
    refine ⟨⟨?_, ?_, fun b data h => absurd h nofun, ?_⟩, [], hboot.tidy⟩ <;> rw [hboot.list]
    · exact fun b hb => absurd hb List.not_mem_nil
    · exact fun b hb => absurd hb List.not_mem_nil
    · exact fun b hb => absurd hb List.not_mem_nil
  | snoc _ _ hcached hcond hstep ih =>
    obtain ⟨hcoherent, l, htidy⟩ := ih
    exact ⟨hcoherent.step htidy hcached hcond.1 hcond.2 hstep,
      htidy.step hcached (inScope_cleanSync hcond.1) hstep⟩

/-- The cache stores pages in every run whose sector numbers the driver can send. -/
theorem cacheRun_storesPages (hboot : Booted c0)
    (hrun : CacheRun (fun _ op => InScope op ∧ Below28 op) c0 ops c) : StoresPages ops c := by
  obtain ⟨hcoherent, l, htidy⟩ := hrun.coherent hboot
  exact hcoherent.storesPages htidy

/-- A page is looked up, written and written back. -/
theorem cacheRun_storesPages_smallCache : ∃ c,
    CacheRun (fun _ op => InScope op ∧ Below28 op) smallCache [.get 8, .write 0 fun _ => 1] c ∧
      StoresPages [.get 8, .write 0 fun _ => 1] c := by
  obtain ⟨_, hok⟩ := exists_ok (x := do
      let a ← cacheStep smallCache (.get 8)
      let b ← cacheStep a (.write 0 fun _ => 1)
      assertk (0 ∈ a.list))
    (by decide +kernel)
  simp only [bind_ok_iff] at hok
  obtain ⟨a, ha, b, hb, hmem⟩ := hok
  have hcached : 0 ∈ a.list := of_assertk hmem
  have hfirst := (CacheRun.nil (C := fun _ op => InScope op ∧ Below28 op)).snoc (.get 8) trivial
    ⟨⟨by decide, by decide⟩, show 8 < 2 ^ 28 by decide⟩ ha
  have hsecond := hfirst.snoc (.write 0 fun _ => 1) hcached ⟨trivial, trivial⟩ hb
  exact ⟨b, hsecond, cacheRun_storesPages smallCache_booted hsecond⟩

/-- Sectors 0 and 2^28 are one for the driver: the page of sector 0 is not what the disk holds there
after `page_fsync`. -/
theorem highSector_not_storesPages : ∃ ops c,
    CacheRun (fun _ op => InScope op) smallCache ops c ∧ ¬ StoresPages ops c := by
  obtain ⟨_, hok⟩ := exists_ok (x := do
      let a ← cacheStep smallCache (.get 0)
      let b ← cacheStep a (.get (2 ^ 28))
      let c ← cacheStep b (.write 0 fun _ => 1)
      let d ← cacheStep c (.write 1 fun _ => 2)
      let e ← d.pageFsync
      assertk (0 ∈ b.list ∧ 1 ∈ c.list ∧ 0 ∈ e.list ∧ (e.pages 0).valid = true ∧
        e.disk (e.pages 0).noSecs 0 ≠ (e.pages 0).data 0))
    (by decide +kernel)
  simp only [bind_ok_iff] at hok
  obtain ⟨a, ha, b, hb, c, hc, d, hd, e, he, hok⟩ := hok
  obtain ⟨hcached0, hcached1, hmem, hvalid, hne⟩ := of_assertk hok
  have hrun := ((((CacheRun.nil (C := fun _ op => InScope op)).snoc (.get 0) trivial
    ⟨by decide, by decide⟩ ha).snoc (.get (2 ^ 28)) trivial ⟨by decide, by decide⟩ hb).snoc
    (.write 0 fun _ => 1) hcached0 trivial hc).snoc (.write 1 fun _ => 2) hcached1 trivial hd
  refine ⟨_, d, hrun, fun hstores => ?_⟩
  obtain ⟨c', hfsync, _, _, hdisk⟩ := hstores.fsync
  obtain rfl := Except.ok.inj (he.symm.trans hfsync)
  exact hne (congrFun (hdisk 0 hmem hvalid) 0)

end QuarkOS
