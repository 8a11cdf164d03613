import QuarkOS.Mm.Kmalloc

/-!
# Giving back empty slabs

`slab_recycle` is to give the slabs without a chunk in use back to the page allocator. It never does.
`recycle` holds the write lock of a page when it calls `__free_page`, which takes that lock again, so the
first empty slab of a size class blocks it. And for a cache it walks over the list of all caches instead
of the cache's own slabs: the first node it comes to is taken for a page and is none. What is left are the
states where there is nothing to give back and no cache, and there nothing changes.
-/

namespace QuarkOS

open CList Dyadic BuddyAllocator FreeList

namespace Vm

variable {s s' : Vm} {A : Set Block} {N : PageNode → List PageNode} {p : Nat} {G : Nat → Option Slab}
  {size : PageNode → Nat} {caches : List SlabCache}

/-- The page is a slab, and none of its chunks is in use. -/
def EmptySlab (s : Vm) (G : Nat → Option Slab) (p : Nat) : Prop :=
  (∃ g, G p = some g) ∧ (s.slabs p).nAllocated = 0

/-- A node of a list of slabs that is to stay there. -/
def inUse (s : Vm) : PageNode → Bool
  | .page p => (s.slabs p).nAllocated ≠ 0
  | _ => true

/-- The empty slabs are out of their lists, free and not mapped any more; all other slabs are what and
where they were. -/
structure Recycled (s s' : Vm) (N : PageNode → List PageNode) (G : Nat → Option Slab) : Prop where
  lists : ∀ a ∈ heads, a ∉ roots → Linked s'.alloc.links a ((N a).filter s.inUse)
  free : s'.alloc.freePages = s.alloc.freePages ∪ {p | s.EmptySlab G p}
  unmapped : ∀ p, s.EmptySlab G p → s'.kPageTables (s.frame p) &&& vmPres = 0
  kept : ∀ p g, G p = some g → ¬ s.EmptySlab G p → s'.slabs p = s.slabs p ∧
    s'.alloc.pages p = s.alloc.pages p ∧ s'.kPageTables (s.frame p) = s.kPageTables (s.frame p) ∧
    s'.mem (s.frame p) = s.mem (s.frame p)

theorem modifyPage_undo {f g : Page → Page} (h : g (f (s.alloc.pages p)) = s.alloc.pages p) :
    (s.modifyPage p f).modifyPage p g = s := by
  have hpages : ((s.modifyPage p f).modifyPage p g).alloc.pages = s.alloc.pages := by
    funext i
    by_cases hi : i = p
    · subst hi
      simp only [modifyPage_alloc, modifyPage_pages, if_pos]
      exact h
    · simp only [modifyPage_alloc, modifyPage_pages, if_neg hi]
  calc (s.modifyPage p f).modifyPage p g
      = s.setAlloc { s.alloc with pages := ((s.modifyPage p f).modifyPage p g).alloc.pages } := rfl
    _ = s := by rw [hpages]; rfl

theorem recyclePage_inUse (hlock : (s.alloc.pages p).rwlock.writelock = false)
    (huse : (s.slabs p).nAllocated ≠ 0) : s.recyclePage p = .ok s := by
  obtain ⟨lk, hlk⟩ := wlockLock_of_free hlock
  rw [recyclePage, hlk, ok_bind]
  refine (if_neg huse).trans (congrArg Except.ok (modifyPage_undo ?_))
  change { s.alloc.pages p with rwlock := wlockUnlock lk } = _
  rw [(wlock_cancel hlk).1]

theorem recyclePage_empty (hlock : (s.alloc.pages p).rwlock.writelock = false)
    (hempty : (s.slabs p).nAllocated = 0) (href : 0 < (s.alloc.pages p).refCnt)
    (hhead : pageHead (s.alloc.pages p) = true) : s.recyclePage p = .error .spin := by
  let s1 := s.modifyPage p fun q => { q with rwlock := { (s.alloc.pages p).rwlock with writelock := true } }
  let s2 := s1.setAlloc (s1.alloc.setLinks (listDel s1.alloc.links (.page p)))
  have hpage : s2.alloc.pages p =
      { s.alloc.pages p with rwlock := { (s.alloc.pages p).rwlock with writelock := true } } := if_pos rfl
  have hfree : s2._freePage p = .error .spin := by
    have href2 : decide (0 < (s2.alloc.pages p).refCnt) = true := by
      rw [hpage]
      exact decide_eq_true href
    have hhead2 : pageHead (s2.alloc.pages p) = true := by
      rw [hpage]
      exact hhead
    have hlock2 : wlockLock (s2.alloc.pages p).rwlock = .error .spin := by
      rw [hpage]
      rfl
    rw [_freePage, BuddyAllocator._freePage, href2, hhead2, assertk_true, ok_bind, ok_bind, hlock2]
    rfl
  have hlk : wlockLock (s.alloc.pages p).rwlock =
      .ok { (s.alloc.pages p).rwlock with writelock := true } := by
    rw [wlockLock, hlock]
    rfl
  rw [recyclePage, hlk, ok_bind]
  refine (if_pos hempty).trans ?_
  change (s2._freePage p >>= _) = _
  rw [hfree, error_bind]

/-- What `recycle` needs of the page of a node. -/
structure SlabPage (s : Vm) (p : Nat) : Prop where
  unlocked : (s.alloc.pages p).rwlock.writelock = false
  used : 0 < (s.alloc.pages p).refCnt
  head : pageHead (s.alloc.pages p) = true

theorem recycleLoop_eq {head : PageNode} (l : List PageNode) : ∀ {a : PageNode} {fuel : Nat},
    Seg s.alloc.links a l head → head ∉ l → (∀ x ∈ l, ∃ p, x = .page p ∧ SlabPage s p) →
    l.length < fuel →
    recycleLoop (fun s hdr => s.alloc.links.next hdr) pageEntry head fuel s (s.alloc.links.next a) =
      if l.all s.inUse then .ok s else .error .spin := by
  induction l with
  | nil =>
    intro a fuel hseg _ _ hfuel
    obtain ⟨fuel, rfl⟩ := Nat.exists_eq_succ_of_ne_zero (Nat.ne_of_gt hfuel)
    rw [recycleLoop, if_pos hseg.1]
    rfl
  | cons x l ih =>
    intro a fuel hseg hhead hpages hfuel
    obtain ⟨hnext, _, hrest⟩ := hseg
    rw [List.mem_cons, not_or] at hhead
    obtain ⟨fuel, rfl⟩ := Nat.exists_eq_succ_of_ne_zero (Nat.ne_of_gt (Nat.zero_lt_of_lt hfuel))
    obtain ⟨p, rfl, hp⟩ := hpages x List.mem_cons_self
    rw [recycleLoop, hnext, if_neg (Ne.symm hhead.1), pageEntry, ok_bind, List.all_cons]
    by_cases huse : (s.slabs p).nAllocated = 0
    · rw [recyclePage_empty hp.unlocked huse hp.used hp.head, error_bind, inUse,
        decide_eq_false (not_not.2 huse)]
      rfl
    · rw [recyclePage_inUse hp.unlocked huse, ok_bind, inUse, decide_eq_true huse, Bool.true_and]
      exact ih hrest hhead.2 (fun y hy => hpages y (List.mem_cons_of_mem _ hy))
        (Nat.lt_of_succ_lt_succ hfuel)

section

variable (hh : Heap s A N size G)
include hh

theorem Heap.slabPage {g : Slab} (hg : G p = some g) : SlabPage s p where
  unlocked := (hh.slabs.ok p g hg).rwlock
  used := hh.counted.pos _ (hh.slabs.mem p g hg)
  head := hh.kernel.owns.head (hh.slabs.mem p g hg)

theorem Heap.length_le {a : PageNode} (ha : a ∈ heads) (hroot : a ∉ roots) :
    (N a).length ≤ s.alloc.pageCnt := by
  have hsub : N a ⊆ (List.range s.alloc.pageCnt).map PageNode.page := by
    intro x hx
    obtain ⟨p, g, rfl, hg, _⟩ := (hh.slabs.lists a ha hroot x).1 hx
    exact List.mem_map_of_mem (List.mem_range.2 (hh.slab_lt hg))
  have hle := ((hh.kernel.owns.linked ha hroot).nodup.subperm hsub).length_le
  rwa [List.length_map, List.length_range] at hle

theorem Heap.recycle_eq {a : PageNode} (ha : a ∈ heads) (hroot : a ∉ roots) :
    s.recycle a = if (N a).all s.inUse then .ok s else .error .spin := by
  have hlinked := hh.kernel.owns.linked ha hroot
  refine recycleLoop_eq (N a) hlinked.1 hlinked.head_notMem ?_ (Nat.lt_succ_of_le (hh.length_le ha hroot))
  intro x hx
  obtain ⟨p, g, rfl, hg, _⟩ := (hh.slabs.lists a ha hroot x).1 hx
  exact ⟨p, rfl, hh.slabPage hg⟩

theorem Heap.recycleAll_eq (l : List Nat) (hl : ∀ i ∈ l, i < listSize) :
    l.foldlM (fun s i => s.recycle (.slab i)) s =
      if ∀ i ∈ l, (N (.slab i)).all s.inUse then .ok s else .error .spin := by
  induction l with
  | nil => rfl
  | cons i l ih =>
    obtain ⟨hi, hroot⟩ := mem_heads_of_part (Or.inl ⟨i, hl i List.mem_cons_self, rfl⟩)
    rw [List.foldlM_cons, hh.recycle_eq hi hroot]
    simp only [List.forall_mem_cons]
    by_cases huse : (N (.slab i)).all s.inUse
    · rw [if_pos huse, ok_bind, ih fun j hj => hl j (List.mem_cons_of_mem i hj)]
      simp only [huse, true_and]
    · rw [if_neg huse, error_bind, if_neg fun h => huse h.1]

end

theorem registry_linked (hnodup : (caches.map SlabCache.id).Nodup) :
    Linked (registryLinks caches) .registry (caches.map fun cache => .head cache.id) := by
  induction caches with
  | nil => exact ⟨⟨rfl, rfl⟩, List.nodup_singleton _⟩
  | cons cache caches ih =>
    rw [List.map_cons, List.nodup_cons] at hnodup
    have hnew : CacheNode.head cache.id ∉ CacheNode.registry ::
        caches.map fun cache => CacheNode.head cache.id := by
      rintro (_ | ⟨_, hmem⟩)
      obtain ⟨other, hother, he⟩ := List.mem_map.1 hmem
      exact hnodup.1 (List.mem_map.2 ⟨other, hother, CacheNode.head.inj he⟩)
    exact ((ih hnodup.2).listHeaderInit_other hnew).listAddNext hnew

theorem recycleCaches_ne_ok (hnodup : (caches.map SlabCache.id).Nodup) (hne : caches ≠ []) (s s' : Vm) :
    recycleCaches caches (caches.length + 1) s ((registryLinks caches).next .registry) ≠ .ok s' := by
  obtain ⟨cache, rest, rfl⟩ := List.exists_cons_of_ne_nil hne
  obtain ⟨⟨hfirst, _, hseg⟩, hnodup'⟩ := registry_linked hnodup
  have hnext : (registryLinks (cache :: rest)).next (.head cache.id) ≠ .head cache.id := by
    intro he
    rcases hseg.next_mem List.mem_cons_self with hmem | hlast
    · rw [he] at hmem
      exact (List.nodup_cons.1 (List.nodup_cons.1 hnodup').2).1 hmem
    · rw [he] at hlast
      cases hlast
  rw [hfirst, recycleCaches, List.find?_cons_of_pos (by simp)]
  intro hok
  obtain ⟨_, _, hok⟩ := bind_eq_ok hok
  obtain ⟨s1, hloop, _⟩ := bind_eq_ok hok
  rw [List.length_cons, recycleLoop, if_neg hnext] at hloop
  cases hloop

/-- Every slab that `slab_recycle` comes to has a chunk in use. -/
def ClassesInUse (s : Vm) (N : PageNode → List PageNode) : Prop :=
  ∀ i < listSize, ∀ p, .page p ∈ N (.slab i) → (s.slabs p).nAllocated ≠ 0

section

variable (hh : Heap s A N size G)
include hh

theorem Heap.classesInUse_iff :
    s.ClassesInUse N ↔ ∀ i ∈ List.range listSize, (N (.slab i)).all s.inUse := by
  refine forall_congr' fun i => ?_
  rw [List.mem_range]
  refine forall_congr' fun hi => ?_
  obtain ⟨hhead, hroot⟩ := mem_heads_of_part (Or.inl ⟨i, hi, rfl⟩)
  rw [List.all_eq_true]
  constructor
  · intro h x hx
    obtain ⟨p, g, rfl, _, _⟩ := (hh.slabs.lists _ hhead hroot x).1 hx
    exact decide_eq_true (h p hx)
  · intro h p hp
    exact of_decide_eq_true (h _ hp)

theorem Heap.slabRecycle_ok_iff (hlock : s.slabLock = false)
    (hnodup : (caches.map SlabCache.id).Nodup) :
    s.slabRecycle caches = .ok s' ↔ caches = [] ∧ s.ClassesInUse N ∧ s' = s := by
  have hall := (hh.setSlabLock true).recycleAll_eq (List.range listSize) fun _ => List.mem_range.1
  have hiff := (hh.setSlabLock true).classesInUse_iff
  have hunlock : (s.setSlabLock true).setSlabLock spinlockUnlock = s := by
    rw [spinlockUnlock, ← hlock]
    rfl
  rw [slabRecycle, hlock, spinlockLock, if_neg Bool.false_ne_true, ok_bind, hall]
  by_cases huse : s.ClassesInUse N
  · rw [if_pos (hiff.1 huse), ok_bind]
    dsimp only
    rw [hunlock]
    constructor
    · intro hok
      by_cases hc : caches = []
      · subst hc
        cases hok
        exact ⟨rfl, huse, rfl⟩
      · exact absurd hok (recycleCaches_ne_ok hnodup hc s s')
    · rintro ⟨rfl, _, rfl⟩
      rfl
  · rw [if_neg fun h => huse (hiff.2 h), error_bind]
    constructor
    · intro h
      cases h
    · intro h
      exact absurd h.2.1 huse

theorem Heap.emptySlab_mem (hsize : Sized size) (hp : s.EmptySlab G p) :
    ∃ a ∈ partHeads, .page p ∈ N a := by
  obtain ⟨⟨g, hg⟩, hzero⟩ := hp
  have hhome := hh.slabs.home p g hg
  obtain ⟨hmin, hmax⟩ := hsize g.home hhome
  have hcap : 0 < 4096 / size g.home := Nat.div_pos hmax (by omega)
  have hfree : g.free ≠ [] := by
    intro he
    have hcount := (hh.slabs.ok p g hg).count
    rw [he, hzero] at hcount
    exact absurd hcount (Nat.ne_of_lt hcap)
  obtain ⟨hhead, hroot⟩ := mem_heads_of_part hhome
  refine ⟨g.home, hhome, (hh.slabs.mem_list hg hhead hroot).2 ?_⟩
  rw [Slab.list, if_neg hfree]

theorem Heap.recycled_self (hnone : ∀ p, ¬ s.EmptySlab G p) :
    Recycled s s N G where
  lists a ha hroot := by
    have hfilter : (N a).filter s.inUse = N a := by
      refine List.filter_eq_self.2 ?_
      intro x hx
      obtain ⟨p, g, rfl, hg, _⟩ := (hh.slabs.lists a ha hroot x).1 hx
      exact decide_eq_true fun hzero => hnone p ⟨⟨g, hg⟩, hzero⟩
    rw [hfilter]
    exact hh.kernel.owns.linked ha hroot
  free := by
    have hempty : {p | s.EmptySlab G p} = ∅ := Set.eq_empty_iff_forall_notMem.2 hnone
    rw [hempty, Set.union_empty]
  unmapped p hp := absurd hp (hnone p)
  kept _ _ _ _ := ⟨rfl, rfl, rfl, rfl⟩

end

/-- With the slabs of all caches registered, `slab_recycle` gives back the empty slabs exactly when there
is no cache and no empty slab of a size class. -/
theorem slabRecycle_recycled_iff (hh : Heap s A N size G) (hsize : Sized size)
    (hlock : s.slabLock = false) (hnodup : (caches.map SlabCache.id).Nodup)
    (hreg : ∀ id, N (.cacheList id) ≠ [] → id ∈ caches.map SlabCache.id) :
    (∃ s', s.slabRecycle caches = .ok s' ∧ Recycled s s' N G) ↔ caches = [] ∧ s.ClassesInUse N := by
  constructor
  · rintro ⟨s', hok, _⟩
    obtain ⟨hc, huse, _⟩ := (hh.slabRecycle_ok_iff hlock hnodup).1 hok
    exact ⟨hc, huse⟩
  · rintro ⟨rfl, huse⟩
    refine ⟨s, (hh.slabRecycle_ok_iff hlock hnodup).2 ⟨rfl, huse, rfl⟩, hh.recycled_self ?_⟩
    intro p hp
    obtain ⟨a, ⟨i, hi, rfl⟩ | ⟨id, rfl⟩, hmem⟩ := hh.emptySlab_mem hsize hp
    · exact huse i hi p hmem hp.2
    · exact absurd (hreg id (List.ne_nil_of_mem hmem)) List.not_mem_nil

/-- No slab has the chunks of a cache of four bytes, and `slab_recycle` may be called. -/
def classesOnly (s : Vm) : Bool :=
  !s.slabLock && (List.range s.alloc.pageCnt).all fun p => (s.slabs p).size ≠ 4

theorem slabLock_of_classesOnly (h : s.classesOnly = true) : s.slabLock = false := by
  rw [classesOnly, Bool.and_eq_true, Bool.not_eq_true'] at h
  exact h.1

theorem Heap.cacheList_eq_nil (hh : Heap s A N (chunkSize 4) G) (h : s.classesOnly = true) (id : Nat) :
    N (.cacheList id) = [] := by
  obtain ⟨hhead, hroot⟩ := mem_heads_of_part (Or.inr ⟨id, rfl⟩)
  refine List.eq_nil_iff_forall_not_mem.2 fun x hx => ?_
  obtain ⟨p, g, rfl, hg, hlist⟩ := (hh.slabs.lists _ hhead hroot x).1 hx
  have hhome : g.home = .cacheList id := by
    rw [Slab.list] at hlist
    split at hlist
    · cases hgh : g.home <;> rw [hgh] at hlist <;> cases hlist
    · exact hlist
  have hsize := (hh.slabs.ok p g hg).size
  rw [hhome] at hsize
  have hall := List.all_eq_true.1 (Bool.and_eq_true_iff.1 h).2 p (List.mem_range.2 (hh.slab_lt hg))
  exact of_decide_eq_true hall hsize

def recycleUsed : Except Fault (Nat × Vm) := do
  let (addr, s) ← (boot 4).kmalloc 100
  assertk s.classesOnly
  let _ ← s.slabRecycle []
  .ok (addr, s)

theorem slabRecycle_recycled_used : ∃ (s : Vm) (addr : Nat), (boot 4).kmalloc 100 = .ok (addr, s) ∧
    ∃ A N G, Heap s A N (chunkSize 4) G ∧ ∃ s', s.slabRecycle [] = .ok s' ∧ Recycled s s' N G := by
  obtain ⟨⟨addr, s⟩, hok⟩ := exists_ok (x := recycleUsed) (by decide +kernel)
  obtain ⟨⟨_, s1⟩, hrun, hok⟩ := bind_eq_ok hok
  obtain ⟨_, hassert, hok⟩ := bind_eq_ok hok
  obtain ⟨s2, hrecycle, hret⟩ := bind_eq_ok hok
  cases hret
  have hclasses := assertk_eq_ok hassert
  have hlock := slabLock_of_classesOnly hclasses
  obtain ⟨A, N, G, hinv⟩ := KmallocRun.inv clientMask_slab (boot_freshHeap (by decide))
    (boot_clean clientMask_slab 4) (KmallocRun.start.kmalloc (by decide) (by decide) hrun)
  obtain ⟨_, huse, _⟩ := (hinv.heap.slabRecycle_ok_iff hlock (by decide)).1 hrecycle
  refine ⟨s, addr, hrun, A, N, G, hinv.heap, ?_⟩
  refine (slabRecycle_recycled_iff hinv.heap sized_four hlock (by decide) ?_).2 ⟨rfl, huse⟩
  exact fun id hne => absurd (hinv.heap.cacheList_eq_nil hclasses id) hne

def recycleEmpty : Except Fault (Nat × Vm × Vm) := do
  let (addr, s) ← (boot 4).kmalloc 100
  let s' ← s.kfree addr
  assertk s'.classesOnly
  assertk (faults (s'.slabRecycle []) .spin)
  .ok (addr, s, s')

/-- A single empty slab blocks `slab_recycle`. -/
theorem slabRecycle_spins : ∃ s A N G, Heap s A N (chunkSize 4) G ∧ s.slabLock = false ∧
    (∀ id, N (.cacheList id) = []) ∧ s.slabRecycle [] = .error .spin := by
  obtain ⟨⟨addr, s1, s⟩, hok⟩ := exists_ok (x := recycleEmpty) (by decide +kernel)
  obtain ⟨⟨_, _⟩, halloc, hok⟩ := bind_eq_ok hok
  simp only [bind_ok_iff] at hok
  obtain ⟨_, hfree, _, hassert, _, hspin, hret⟩ := hok
  cases hret
  have hclasses := assertk_eq_ok hassert
  have hrun := (KmallocRun.start.kmalloc (by decide) (by decide) halloc).kfree List.mem_cons_self hfree
  obtain ⟨A, N, G, hinv⟩ := KmallocRun.inv clientMask_slab (boot_freshHeap (by decide))
    (boot_clean clientMask_slab 4) hrun
  exact ⟨s, A, N, G, hinv.heap, slabLock_of_classesOnly hclasses,
    hinv.heap.cacheList_eq_nil hclasses, eq_error_of_faults (assertk_eq_ok hspin)⟩

end Vm

end QuarkOS
