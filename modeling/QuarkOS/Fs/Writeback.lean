import Mathlib.Data.List.Perm.Subperm
import QuarkOS.Fs.DirtyQueue
import QuarkOS.Fs.PageCache

/-!
# Writing back dirty pages

`writeback.c` with its cache list, its dirty queue and the interrupt of the disk, for one thread. Pages
are named by their number in the page allocator, so that two pages of one sector can be told apart. The
queue is linked through the pages: `page_sync` and `page_read_sync` clear `PG_DIRTY` and leave a page
where it is in the queue. `Tidy` is what holds between the operations as long as they are only called for
clean pages.

Left out are the locks, which one thread takes and releases within each function, and the time stamps,
which only `page_recycle` reads. The queue of inodes is empty.
-/

namespace QuarkOS

open Bytes Function

/-- A `struct page` as the cache sees it, with the bits `PG_DIRTY`, `PG_VALID` and `PG_CACHE` of its flags. -/
structure CachePage where
  noSecs : Nat
  data : Area
  dirty : Bool
  valid : Bool
  cache : Bool

structure CacheAllocator where
  pages : Nat → CachePage
  /-- `list`, from its head on. -/
  list : List Nat
  dirty : LfQueue Nat
  pageWriting : Option Nat
  /-- Whether `thread` is set. -/
  thread : Bool
  disk : Nat → Area
  /-- The pages that `__alloc_page` has to give, in the order in which it gives them. -/
  free : List Nat

namespace CacheAllocator

variable (c : CacheAllocator)

def setPage (b : Nat) (page : CachePage) : CacheAllocator :=
  { c with pages := update c.pages b page }

def newBuf (noSecs : Nat) : Except Fault (Nat × CacheAllocator) :=
  match c.free with
  | [] => .error .outOfMemory
  | b :: free =>
    let page := { c.pages b with cache := true, noSecs }
    .ok (b, { c with free, dirty := c.dirty.nodeInit b }.setPage b page)

/-- The search of `page_get` under the read lock. -/
def search (noSecs : Nat) : Option Nat := c.list.find? fun b => (c.pages b).noSecs = noSecs

/-- The insertion of `page_get` under the write lock. -/
def insert (b : Nat) : CacheAllocator := { c with list := c.list ++ [b] }

def pageGet (noSecs : Nat) : Except Fault (Nat × CacheAllocator) := do
  assertk (noSecs &&& 7 = 0)
  match c.search noSecs with
  | some b =>
    assertk (c.pages b).cache
    .ok (b, c)
  | none =>
    let (b, c) ← c.newBuf noSecs
    .ok (b, c.insert b)

/-- `ide_start`: the bytes of a dirty page go to the drive. -/
def ideStart (b : Nat) (write : Bool) : CacheAllocator :=
  if write then { c with disk := update c.disk (lba28 (c.pages b).noSecs) (c.pages b).data }
  else c

/-- `ide_isr`: the bytes of any other page come from it. -/
def ideIsr (b : Nat) (write : Bool) : CacheAllocator :=
  if write then c
  else c.setPage b { c.pages b with data := c.disk (lba28 (c.pages b).noSecs) }

def diskIsr : Except Fault CacheAllocator :=
  match c.pageWriting with
  | none => .ok c
  | some b => do
    let c := c.ideIsr b (c.pages b).dirty
    let c := c.setPage b { c.pages b with dirty := false, valid := true }
    let c := { c with pageWriting := none }
    assertk c.thread
    .ok { c with thread := false }

/-- The interrupt of the transfer comes before `page_rw` goes on. -/
def pageRw (b : Nat) : Except Fault CacheAllocator := do
  let c := { c with pageWriting := some b, thread := true }
  let c := c.ideStart b (c.pages b).dirty
  let c ← c.diskIsr
  .ok { c with list := b :: c.list.erase b }

def pageRead (b : Nat) : Except Fault CacheAllocator :=
  if (c.pages b).valid then .ok c else c.pageRw b

def markPageDirty (b : Nat) : Except Fault CacheAllocator := do
  assertk (c.pages b).cache
  if (c.pages b).dirty then .ok c
  else
    let c := c.setPage b { c.pages b with dirty := true, valid := true }
    .ok { c with dirty := c.dirty.put b }

def pageSync (b : Nat) : Except Fault CacheAllocator :=
  (c.setPage b { c.pages b with dirty := true, valid := true }).pageRw b

def pageReadSync (b : Nat) : Except Fault CacheAllocator := c.pageRw b

def pageFlush (b : Nat) : Except Fault CacheAllocator := do
  assertk (c.pages b).dirty
  c.pageRw b

def flushPages : Nat → CacheAllocator → Except Fault CacheAllocator
  | 0, _ => .error .spin
  | fuel + 1, c =>
    match c.dirty.get with
    | (none, _) => .ok c
    -- `page_dirty_entry`
    | (some .dummy, _) => .error .undefined
    | (some (.node b), dirty) => do
      let c ← { c with dirty }.pageFlush b
      flushPages fuel c

/-- Links that do not go round in a circle lead through every page once. -/
def pageFsync : Except Fault CacheAllocator := flushPages (c.list.length + 1) c

/-- A store through `page->data`, and the mark. -/
def write (b : Nat) (data : Area) : Except Fault CacheAllocator :=
  (c.setPage b { c.pages b with data }).markPageDirty b

end CacheAllocator

variable {c c' c0 : CacheAllocator} {a b noSecs : Nat} {l : List Nat}

namespace CacheAllocator

/-- The page of a transfer when it is over. -/
def transferredPage (c : CacheAllocator) (b : Nat) : CachePage :=
  { c.pages b with
    data := if (c.pages b).dirty then (c.pages b).data else c.disk (lba28 (c.pages b).noSecs)
    dirty := false
    valid := true }

/-- The cache after a transfer; its page is now the first of the list. -/
def transferred (c : CacheAllocator) (b : Nat) : CacheAllocator :=
  { c with
    pages := update c.pages b (c.transferredPage b)
    disk := if (c.pages b).dirty then
        update c.disk (lba28 (c.pages b).noSecs) (c.pages b).data
      else c.disk
    list := b :: c.list.erase b
    pageWriting := none
    thread := false }

theorem pageRw_eq (c : CacheAllocator) (b : Nat) : c.pageRw b = .ok (c.transferred b) := by
  unfold pageRw ideStart diskIsr ideIsr transferred transferredPage setPage
  cases hdirty : (c.pages b).dirty with
  | true => simp [hdirty]
  | false => simp [hdirty, update_idem]

end CacheAllocator

/-- The list and the free pages. -/
structure CacheWf (c : CacheAllocator) : Prop where
  nodup : c.list.Nodup
  free_nodup : c.free.Nodup
  free_notMem : ∀ b ∈ c.free, b ∉ c.list
  free_clean : ∀ b ∈ c.free, (c.pages b).dirty = false ∧ (c.pages b).valid = false
  cached : ∀ b ∈ c.list, (c.pages b).cache = true
  sector_inj : ∀ a ∈ c.list, ∀ b ∈ c.list, (c.pages a).noSecs = (c.pages b).noSecs → a = b
  valid_of_dirty : ∀ b ∈ c.list, (c.pages b).dirty = true → (c.pages b).valid = true

/-- The queue has the pages of `l`, which are the dirty ones. -/
structure Tidy (c : CacheAllocator) (l : List Nat) : Prop extends CacheWf c where
  holds : c.dirty.Waiting l
  mem_iff : ∀ b, b ∈ l ↔ b ∈ c.list ∧ (c.pages b).dirty = true

theorem mem_cons_erase (hb : b ∈ c.list) : a ∈ b :: c.list.erase b ↔ a ∈ c.list :=
  (List.perm_cons_erase hb).mem_iff.symm

theorem CacheWf.setPage (h : CacheWf c) (hb : b ∈ c.list) (page : CachePage)
    (hsecs : page.noSecs = (c.pages b).noSecs) (hcache : page.cache = (c.pages b).cache)
    (hvalid : page.dirty = true → page.valid = true) : CacheWf (c.setPage b page) := by
  have hfree : ∀ a ∈ c.free, a ≠ b := by
    rintro a ha rfl
    exact h.free_notMem a ha hb
  have hsame : ∀ a, ((c.setPage b page).pages a).noSecs = (c.pages a).noSecs := by
    intro a
    rw [CacheAllocator.setPage]
    dsimp only
    rw [update_apply]
    split
    · rename_i heq
      rw [heq, hsecs]
    · rfl
  refine ⟨h.nodup, h.free_nodup, h.free_notMem, ?_, ?_, ?_, ?_⟩
  · intro a ha
    rw [CacheAllocator.setPage]
    dsimp only
    rw [update_of_ne (hfree a ha)]
    exact h.free_clean a ha
  · intro a ha
    rw [CacheAllocator.setPage]
    dsimp only
    rw [update_apply]
    split
    · rw [hcache]
      exact h.cached b hb
    · exact h.cached a ha
  · intro a ha a' ha' heq
    rw [hsame, hsame] at heq
    exact h.sector_inj a ha a' ha' heq
  · intro a ha
    rw [CacheAllocator.setPage]
    dsimp only
    rw [update_apply]
    split
    · exact hvalid
    · exact h.valid_of_dirty a ha

theorem CacheWf.front (h : CacheWf c) (hb : b ∈ c.list) :
    CacheWf { c with list := b :: c.list.erase b } where
  nodup := (List.perm_cons_erase hb).nodup_iff.1 h.nodup
  free_nodup := h.free_nodup
  free_notMem := fun a ha hmem => h.free_notMem a ha ((mem_cons_erase hb).1 hmem)
  free_clean := h.free_clean
  cached := fun a ha => h.cached a ((mem_cons_erase hb).1 ha)
  sector_inj := fun a ha a' ha' =>
    h.sector_inj a ((mem_cons_erase hb).1 ha) a' ((mem_cons_erase hb).1 ha')
  valid_of_dirty := fun a ha => h.valid_of_dirty a ((mem_cons_erase hb).1 ha)

theorem CacheWf.congr (h : CacheWf c) (hpages : c'.pages = c.pages) (hlist : c'.list = c.list)
    (hfree : c'.free = c.free) : CacheWf c' where
  nodup := hlist ▸ h.nodup
  free_nodup := hfree ▸ h.free_nodup
  free_notMem := by
    rw [hfree, hlist]
    exact h.free_notMem
  free_clean := by
    rw [hfree, hpages]
    exact h.free_clean
  cached := by
    rw [hlist, hpages]
    exact h.cached
  sector_inj := by
    rw [hlist, hpages]
    exact h.sector_inj
  valid_of_dirty := by
    rw [hlist, hpages]
    exact h.valid_of_dirty

section

variable (h : CacheWf c) (hb : b ∈ c.list)
include h hb

theorem CacheWf.transferred : CacheWf (c.transferred b) := by
  have hpage : CacheWf (c.setPage b (c.transferredPage b)) := h.setPage hb _ rfl rfl nofun
  exact (hpage.front hb).congr rfl rfl rfl

theorem CacheWf.transferred_tidy (hholds : c.dirty.Waiting l)
    (hbl : b ∉ l) (hmem : ∀ a ≠ b, a ∈ l ↔ a ∈ c.list ∧ (c.pages a).dirty = true) :
    Tidy (c.transferred b) l where
  toCacheWf := h.transferred hb
  holds := hholds
  mem_iff := by
    intro a
    unfold CacheAllocator.transferred
    dsimp only
    rw [mem_cons_erase hb, update_apply]
    by_cases hab : a = b
    · subst hab
      rw [if_pos rfl]
      exact iff_of_false hbl fun hdirty => Bool.false_ne_true hdirty.2
    · rw [if_neg hab]
      exact hmem a hab

theorem CacheWf.markPageDirty_ok :
    ∃ q, c.markPageDirty b = .ok { c.setPage b { c.pages b with dirty := true, valid := true } with
      dirty := q } := by
  rw [CacheAllocator.markPageDirty, h.cached b hb, assertk_true, ok_bind]
  split
  · rename_i hdirty
    refine ⟨c.dirty, ?_⟩
    have hpage : { c.pages b with dirty := true, valid := true } = c.pages b := by
      have hvalid := h.valid_of_dirty b hb hdirty
      cases hp : c.pages b
      rw [hp] at hdirty hvalid
      dsimp only at hdirty hvalid
      rw [hdirty, hvalid]
    rw [hpage, CacheAllocator.setPage, update_eq_self]
  · exact ⟨c.dirty.put b, rfl⟩

theorem CacheWf.write_ok (data : Area) :
    ∃ q, c.write b data = .ok { c.setPage b { c.pages b with data, dirty := true, valid := true } with
      dirty := q } := by
  have hwf := h.setPage hb { c.pages b with data } rfl rfl (h.valid_of_dirty b hb)
  obtain ⟨q, hok⟩ := hwf.markPageDirty_ok hb
  refine ⟨q, hok.trans ?_⟩
  unfold CacheAllocator.setPage
  dsimp only
  rw [update_idem, update_self]

end

namespace Tidy

theorem notMem_of_clean (h : Tidy c l) (hclean : (c.pages b).dirty = false) : b ∉ l := by
  intro hb
  rw [((h.mem_iff b).1 hb).2] at hclean
  cases hclean

theorem pageRw (h : Tidy c l) (hb : b ∈ c.list) (hclean : (c.pages b).dirty = false) :
    Tidy (c.transferred b) l :=
  h.transferred_tidy hb h.holds (h.notMem_of_clean hclean) fun a _ => h.mem_iff a

theorem dirty_of_invalid (h : Tidy c l) (hb : b ∈ c.list) (hvalid : (c.pages b).valid = false) :
    (c.pages b).dirty = false := by
  by_contra hdirty
  rw [h.valid_of_dirty b hb (Bool.eq_true_of_not_eq_false hdirty)] at hvalid
  cases hvalid

theorem search_eq_none (hnone : c.search noSecs = none) (hb : b ∈ c.list) :
    (c.pages b).noSecs ≠ noSecs := by
  have := List.find?_eq_none.1 hnone b hb
  exact fun heq => this (decide_eq_true heq)

theorem of_search (hsome : c.search noSecs = some b) : b ∈ c.list ∧ (c.pages b).noSecs = noSecs := by
  have hfound := List.find?_some hsome
  exact ⟨List.mem_of_find?_eq_some hsome, of_decide_eq_true hfound⟩

theorem newBuf (h : Tidy c l) (hnone : c.search noSecs = none)
    (hnew : c.newBuf noSecs = .ok (b, c')) : Tidy (c'.insert b) l ∧ b ∉ c.list ∧
      c'.list = c.list ∧ (∀ a ≠ b, c'.pages a = c.pages a) ∧ (c'.pages b).noSecs = noSecs ∧
      (c'.pages b).dirty = false ∧ (c'.pages b).valid = false ∧ c'.disk = c.disk := by
  unfold CacheAllocator.newBuf at hnew
  split at hnew
  · cases hnew
  · rename_i b' free hfree
    cases hnew
    have hbfree : b ∈ c.free := hfree ▸ List.mem_cons_self
    have hsub : ∀ a ∈ free, a ∈ c.free := fun a ha => hfree ▸ List.mem_cons_of_mem b ha
    have hb := h.free_notMem b hbfree
    have hnodup : (b :: free).Nodup := hfree ▸ h.free_nodup
    have hne : ∀ a ∈ c.list, a ≠ b := by
      rintro a ha rfl
      exact hb ha
    have hneFree : ∀ a ∈ free, a ≠ b := by
      rintro a ha rfl
      exact (List.nodup_cons.1 hnodup).1 ha
    have hpage : ∀ a ≠ b, update c.pages b
        { c.pages b with cache := true, noSecs } a = c.pages a :=
      fun a hab => update_of_ne hab ..
    have hself : update c.pages b { c.pages b with cache := true, noSecs } b =
        { c.pages b with cache := true, noSecs } := update_self ..
    refine ⟨?_, hb, rfl, hpage, ?_, ?_, ?_, rfl⟩
    · refine { nodup := ?_, free_nodup := (List.nodup_cons.1 hnodup).2, free_notMem := ?_,
               free_clean := ?_, cached := ?_, sector_inj := ?_, valid_of_dirty := ?_,
               holds := ?_, mem_iff := ?_ }
      · exact List.Nodup.append h.nodup (List.nodup_singleton b) (List.disjoint_singleton.2 hb)
      · intro a ha hmem
        rcases List.mem_append.1 hmem with hold | hnew
        · exact h.free_notMem a (hsub a ha) hold
        · exact hneFree a ha (List.mem_singleton.1 hnew)
      · intro a ha
        change (update c.pages b _ a).dirty = false ∧ (update c.pages b _ a).valid = false
        rw [hpage a (hneFree a ha)]
        exact h.free_clean a (hsub a ha)
      · intro a ha
        change (update c.pages b _ a).cache = true
        rcases List.mem_append.1 ha with hold | hnew
        · rw [hpage a (hne a hold)]
          exact h.cached a hold
        · rw [List.mem_singleton.1 hnew, hself]
      · intro a ha a' ha' heq
        change (update c.pages b _ a).noSecs = (update c.pages b _ a').noSecs at heq
        rcases List.mem_append.1 ha with hold | hnew <;>
          rcases List.mem_append.1 ha' with hold' | hnew'
        · rw [hpage a (hne a hold), hpage a' (hne a' hold')] at heq
          exact h.sector_inj a hold a' hold' heq
        · rw [List.mem_singleton.1 hnew', hself, hpage a (hne a hold)] at heq
          exact absurd heq (search_eq_none hnone hold)
        · rw [List.mem_singleton.1 hnew, hself, hpage a' (hne a' hold')] at heq
          exact absurd heq.symm (search_eq_none hnone hold')
        · rw [List.mem_singleton.1 hnew, List.mem_singleton.1 hnew']
      · intro a ha
        change (update c.pages b _ a).dirty = true → (update c.pages b _ a).valid = true
        rcases List.mem_append.1 ha with hold | hnew
        · rw [hpage a (hne a hold)]
          exact h.valid_of_dirty a hold
        · rw [List.mem_singleton.1 hnew, hself]
          intro hdirty
          rw [(h.free_clean b hbfree).1] at hdirty
          cases hdirty
      · exact h.holds.nodeInit fun hmem => hb ((h.mem_iff b).1 hmem).1
      · intro a
        change a ∈ l ↔ a ∈ c.list ++ [b] ∧ (update c.pages b _ a).dirty = true
        rw [List.mem_append, List.mem_singleton]
        by_cases hab : a = b
        · subst hab
          rw [hself]
          refine iff_of_false (fun ha => hb ((h.mem_iff a).1 ha).1) fun hdirty => ?_
          rw [(h.free_clean a hbfree).1] at hdirty
          exact Bool.false_ne_true hdirty.2
        · rw [hpage a hab, or_iff_left hab]
          exact h.mem_iff a
    · change (update c.pages b _ b).noSecs = noSecs
      rw [hself]
    · change (update c.pages b _ b).dirty = false
      rw [hself]
      exact (h.free_clean b hbfree).1
    · change (update c.pages b _ b).valid = false
      rw [hself]
      exact (h.free_clean b hbfree).2

theorem mark (h : Tidy c l) (hb : b ∈ c.list) (hclean : (c.pages b).dirty = false) :
    Tidy { c.setPage b { c.pages b with dirty := true, valid := true } with
      dirty := c.dirty.put b } (l ++ [b]) := by
  have hwf := h.setPage hb { c.pages b with dirty := true, valid := true } rfl rfl fun _ => rfl
  refine { toCacheWf := hwf.congr rfl rfl rfl, holds := ?_, mem_iff := ?_ }
  · exact h.holds.put (h.notMem_of_clean hclean)
  · intro a
    change a ∈ l ++ [b] ↔ a ∈ c.list ∧ (update c.pages b _ a).dirty = true
    rw [List.mem_append, List.mem_singleton, update_apply]
    by_cases hab : a = b
    · subst hab
      rw [if_pos rfl]
      exact iff_of_true (Or.inr rfl) ⟨hb, rfl⟩
    · rw [if_neg hab, or_iff_left hab]
      exact h.mem_iff a

/-- The loop of `flush_pages` empties the queue; every page it takes out is dirty. What a transfer keeps,
the loop keeps. -/
theorem flushPages {P : CacheAllocator → Prop} {fuel : Nat} (hqueue : ∀ c q, P c → P { c with dirty := q })
    (htransfer : ∀ c b, CacheWf c → b ∈ c.list → P c → P (c.transferred b)) (h : Tidy c l)
    (hfuel : l.length < fuel) (hP : P c) :
    ∃ c', CacheAllocator.flushPages fuel c = .ok c' ∧ Tidy c' [] ∧ P c' := by
  induction fuel generalizing c l with
  | zero => exact absurd hfuel (Nat.not_lt_zero _)
  | succ fuel ih =>
    rw [CacheAllocator.flushPages]
    cases l with
    | nil =>
      rw [h.holds.get_nil]
      exact ⟨c, rfl, h, hP⟩
    | cons b l =>
      obtain ⟨q, hget, hrest⟩ := h.holds.get_cons
      obtain ⟨hb, hdirty⟩ := (h.mem_iff b).1 List.mem_cons_self
      have hbl := (List.nodup_cons.1 h.holds.nodup).1
      rw [hget]
      dsimp only
      rw [CacheAllocator.pageFlush]
      dsimp only
      rw [hdirty, assertk_true, ok_bind, CacheAllocator.pageRw_eq, ok_bind]
      have hwf : CacheWf { c with dirty := q } := h.congr rfl rfl rfl
      refine ih (hwf.transferred_tidy hb hrest hbl fun a hab => ?_) (Nat.lt_of_succ_lt_succ hfuel)
        (htransfer _ b hwf hb (hqueue c _ hP))
      rw [← h.mem_iff a, List.mem_cons, or_iff_right hab]

theorem length_lt (h : Tidy c l) : l.length < c.list.length + 1 := by
  apply Nat.lt_succ_of_le
  apply (List.subperm_of_subset h.holds.nodup ?_).length_le
  exact fun b hb => ((h.mem_iff b).1 hb).1

theorem pageFsync {P : CacheAllocator → Prop} (hqueue : ∀ c q, P c → P { c with dirty := q })
    (htransfer : ∀ c b, CacheWf c → b ∈ c.list → P c → P (c.transferred b)) (h : Tidy c l)
    (hP : P c) : ∃ c', c.pageFsync = .ok c' ∧ Tidy c' [] ∧ P c' :=
  h.flushPages hqueue htransfer h.length_lt hP

theorem pageFsync_ok (h : Tidy c l) : ∃ c', c.pageFsync = .ok c' ∧ Tidy c' [] := by
  obtain ⟨c', hok, htidy, _⟩ := h.pageFsync (P := fun _ => True) (fun _ _ _ => trivial)
    (fun _ _ _ _ _ => trivial) trivial
  exact ⟨c', hok, htidy⟩

end Tidy

/-- The operations on the cache; pages are those that `page_get` has returned. -/
inductive CacheOp
  | get (noSecs : Nat)
  | read (b : Nat)
  | readSync (b : Nat)
  | mark (b : Nat)
  | sync (b : Nat)
  /-- A change of the contents, followed by `mark_page_dirty`. -/
  | write (b : Nat) (data : Area)
  | fsync

def cacheStep (c : CacheAllocator) : CacheOp → Except Fault CacheAllocator
  | .get noSecs => do
    let (_, c) ← c.pageGet noSecs
    .ok c
  | .read b => c.pageRead b
  | .readSync b => c.pageReadSync b
  | .mark b => c.markPageDirty b
  | .sync b => c.pageSync b
  | .write b data => c.write b data
  | .fsync => c.pageFsync

def Caches (c : CacheAllocator) : CacheOp → Prop
  | .read b | .readSync b | .mark b | .sync b | .write b _ => b ∈ c.list
  | .get _ | .fsync => True

/-- The states after a sequence of operations that meet a condition. -/
inductive CacheRun (C : CacheAllocator → CacheOp → Prop) (c0 : CacheAllocator) :
    List CacheOp → CacheAllocator → Prop
  | nil : CacheRun C c0 [] c0
  | snoc {ops : List CacheOp} {c c' : CacheAllocator} (hrun : CacheRun C c0 ops c) (op : CacheOp)
      (hcached : Caches c op) (hcond : C c op) (hstep : cacheStep c op = .ok c') :
      CacheRun C c0 (ops ++ [op]) c'

/-- The cache after `page_cache_init`. -/
structure Booted (c : CacheAllocator) : Prop where
  list : c.list = []
  dirty : c.dirty.Waiting []
  free_nodup : c.free.Nodup
  free_clean : ∀ b ∈ c.free, (c.pages b).dirty = false ∧ (c.pages b).valid = false

theorem Booted.tidy (h : Booted c) : Tidy c [] where
  nodup := h.list ▸ List.nodup_nil
  free_nodup := h.free_nodup
  free_notMem := by
    rw [h.list]
    exact fun _ _ => List.not_mem_nil
  free_clean := h.free_clean
  cached := by
    rw [h.list]
    exact fun _ hb => absurd hb List.not_mem_nil
  sector_inj := by
    rw [h.list]
    exact fun _ ha => absurd ha List.not_mem_nil
  valid_of_dirty := by
    rw [h.list]
    exact fun _ hb => absurd hb List.not_mem_nil
  holds := h.dirty
  mem_iff := by
    rw [h.list]
    exact fun _ => iff_of_false List.not_mem_nil fun hb => List.not_mem_nil hb.1

/-- `page_sync` and `page_read_sync` are called for clean pages only. -/
def CleanSync (c : CacheAllocator) : CacheOp → Prop
  | .readSync b | .sync b => (c.pages b).dirty = false
  | _ => True

theorem Tidy.step {op : CacheOp} (h : Tidy c l) (hcached : Caches c op) (hclean : CleanSync c op)
    (hstep : cacheStep c op = .ok c') : ∃ l', Tidy c' l' := by
  have hmark : ∀ {c : CacheAllocator} {l : List Nat} {b : Nat}, Tidy c l → b ∈ c.list →
      c.markPageDirty b = .ok c' → ∃ l', Tidy c' l' := by
    intro c l b h hb hok
    obtain ⟨_, _, hok⟩ := bind_eq_ok hok
    split at hok
    · cases hok
      exact ⟨l, h⟩
    · rename_i hdirty
      cases hok
      exact ⟨l ++ [b], h.mark hb (Bool.eq_false_of_not_eq_true hdirty)⟩
  cases op with
  | get noSecs =>
    obtain ⟨⟨b, c1⟩, hget, hret⟩ := bind_eq_ok hstep
    cases hret
    obtain ⟨_, _, hget⟩ := bind_eq_ok hget
    split at hget
    · obtain ⟨_, _, hget⟩ := bind_eq_ok hget
      cases hget
      exact ⟨l, h⟩
    · rename_i hnone
      obtain ⟨⟨b', c2⟩, hnew, hget⟩ := bind_eq_ok hget
      cases hget
      exact ⟨l, (h.newBuf hnone hnew).1⟩
  | read b =>
    rw [cacheStep, CacheAllocator.pageRead] at hstep
    split at hstep
    · cases hstep
      exact ⟨l, h⟩
    · rename_i hvalid
      rw [CacheAllocator.pageRw_eq] at hstep
      cases hstep
      exact ⟨l, h.pageRw hcached
        (h.dirty_of_invalid hcached (Bool.eq_false_of_not_eq_true hvalid))⟩
  | readSync b =>
    rw [cacheStep, CacheAllocator.pageReadSync, CacheAllocator.pageRw_eq] at hstep
    cases hstep
    exact ⟨l, h.pageRw hcached hclean⟩
  | mark b => exact hmark h hcached hstep
  | sync b =>
    rw [cacheStep, CacheAllocator.pageSync, CacheAllocator.pageRw_eq] at hstep
    cases hstep
    have hwf := h.setPage hcached { c.pages b with dirty := true, valid := true } rfl rfl
      fun _ => rfl
    refine ⟨l, hwf.transferred_tidy hcached h.holds (h.notMem_of_clean hclean) fun a hab => ?_⟩
    change a ∈ l ↔ a ∈ c.list ∧ (update c.pages b _ a).dirty = true
    rw [update_of_ne hab]
    exact h.mem_iff a
  | write b data =>
    have hwf := h.setPage hcached { c.pages b with data } rfl rfl
      (h.valid_of_dirty b hcached)
    refine hmark (l := l) { toCacheWf := hwf, holds := h.holds, mem_iff := fun a => ?_ } hcached hstep
    change a ∈ l ↔ a ∈ c.list ∧ (update c.pages b _ a).dirty = true
    rw [h.mem_iff a, update_apply]
    split
    · rename_i heq
      rw [heq]
    · rfl
  | fsync =>
    obtain ⟨c1, hok, htidy⟩ := h.pageFsync_ok
    rw [cacheStep, hok] at hstep
    cases hstep
    exact ⟨[], htidy⟩

theorem CacheRun.tidy {C : CacheAllocator → CacheOp → Prop} {ops : List CacheOp}
    (hclean : ∀ c op, C c op → CleanSync c op) (hboot : Booted c0) (hrun : CacheRun C c0 ops c) :
    ∃ l, Tidy c l := by
  induction hrun with
  | nil => exact ⟨[], hboot.tidy⟩
  | snoc _ _ hcached hcond hstep ih =>
    obtain ⟨l, htidy⟩ := ih
    exact htidy.step hcached (hclean _ _ hcond) hstep

/-- The flags `PG_DIRTY` and the queue say the same, and `page_fsync` comes to its end. -/
structure QueueAgrees (c : CacheAllocator) : Prop where
  queued : ∃ l, c.dirty.Waiting l ∧ l.Nodup ∧ ∀ b ∈ c.list, (c.pages b).dirty = true ↔ b ∈ l
  fsync : ∃ c', c.pageFsync = .ok c'

theorem Tidy.queueAgrees (h : Tidy c l) : QueueAgrees c := by
  refine ⟨⟨l, h.holds, h.holds.nodup, fun b hb => ?_⟩, ?_⟩
  · rw [h.mem_iff b, and_iff_right hb]
  · obtain ⟨c', hok, _⟩ := h.pageFsync_ok
    exact ⟨c', hok⟩

/-- The queue and the flags agree in every run that calls `page_sync` and `page_read_sync` for clean
pages only. -/
theorem cacheRun_queueAgrees {ops : List CacheOp} (hboot : Booted c0)
    (hrun : CacheRun CleanSync c0 ops c) : QueueAgrees c := by
  obtain ⟨l, htidy⟩ := hrun.tidy (fun _ _ h => h) hboot
  exact htidy.queueAgrees

def blankPage : CachePage where
  noSecs := 0
  data := fun _ => 0
  dirty := false
  valid := false
  cache := false

def smallCache : CacheAllocator where
  pages := fun _ => blankPage
  list := []
  dirty := .init { head := .dummy, tail := .dummy, next := fun _ => none }
  pageWriting := none
  thread := false
  disk := fun _ _ => 0
  free := [0, 1]

theorem smallCache_booted : Booted smallCache where
  list := rfl
  dirty := .init _
  free_nodup := by decide
  free_clean := fun _ _ => ⟨rfl, rfl⟩

/-- A page is looked up and marked. -/
theorem cacheRun_queueAgrees_smallCache : ∃ c, CacheRun CleanSync smallCache [.get 0, .mark 0] c ∧
    QueueAgrees c := by
  obtain ⟨_, hok⟩ := exists_ok (x := do
      let a ← cacheStep smallCache (.get 0)
      let b ← cacheStep a (.mark 0)
      assertk (0 ∈ a.list))
    (by decide +kernel)
  simp only [bind_ok_iff] at hok
  obtain ⟨a, ha, b, hb, hmem⟩ := hok
  have hfirst := (CacheRun.nil (C := CleanSync)).snoc (.get 0) trivial trivial ha
  have hcached : 0 ∈ a.list := of_assertk hmem
  have hsecond := hfirst.snoc (.mark 0) hcached trivial hb
  exact ⟨b, hsecond, cacheRun_queueAgrees smallCache_booted hsecond⟩

/-- A page is marked and then written by `page_sync`: it is clean and still queued, and `page_fsync`
fails. -/
theorem markSync_not_queueAgrees : ∃ c,
    CacheRun (fun _ _ => True) smallCache [.get 0, .mark 0, .sync 0] c ∧ ¬ QueueAgrees c ∧
      c.pageFsync = .error .assertk := by
  obtain ⟨_, hok⟩ := exists_ok (x := do
      let a ← cacheStep smallCache (.get 0)
      let b ← cacheStep a (.mark 0)
      let c ← cacheStep b (.sync 0)
      assertk (0 ∈ a.list ∧ 0 ∈ b.list ∧ faults c.pageFsync .assertk = true))
    (by decide +kernel)
  simp only [bind_ok_iff] at hok
  obtain ⟨a, ha, b, hb, c, hc, hassert⟩ := hok
  obtain ⟨hcached, hcached', hfsync⟩ := of_assertk hassert
  have hfail := eq_error_of_faults hfsync
  have hfirst := (CacheRun.nil (C := fun _ _ => True)).snoc (.get 0) trivial trivial ha
  have hsecond := hfirst.snoc (.mark 0) hcached trivial hb
  have hthird := hsecond.snoc (.sync 0) hcached' trivial hc
  refine ⟨c, hthird, fun hagrees => ?_, hfail⟩
  obtain ⟨c', hok⟩ := hagrees.fsync
  rw [hfail] at hok
  cases hok

end QuarkOS
