import Mathlib.Data.List.Perm.Subperm
import QuarkOS.Mm.PageSetup
import QuarkOS.Mm.VmSpec
import QuarkOS.Lib.Splice

/-!
# Giving back cached pages

`page_recycle` walks the list of the page cache from its end and takes out the pages that are clean and
were not used for long. `recycle` frees the memory of such a page, and then hands the page structure
itself to `kfree`. The page structures are one array below the memory of the page allocator, so `kfree`
finds no page for it and its assertion fails.
-/

namespace QuarkOS

open CList BuddyAllocator

namespace BuddyAllocator

theorem coalesce_addr (fuel : Nat) : ∀ {s s' : BuddyAllocator} {page order p : Nat},
    coalesce s page order fuel = .ok (p, s') → s'.addr = s.addr := by
  induction fuel with
  | zero =>
    intro s s' page order p h
    cases h
    rfl
  | succ fuel ih =>
    intro s s' page order p h
    rw [coalesce] at h
    split at h
    · cases h
      rfl
    · split at h
      · cases h
        rfl
      · split at h
        · cases h
          rfl
        · obtain ⟨_, _, h⟩ := bind_eq_ok h
          have haddr := ih h
          exact haddr

theorem _freePage_addr {s s' : BuddyAllocator} {page : Nat} (h : s._freePage page = .ok s') :
    s'.addr = s.addr := by
  obtain ⟨_, _, h⟩ := bind_eq_ok h
  obtain ⟨_, _, h⟩ := bind_eq_ok h
  obtain ⟨rwlock, _, h⟩ := bind_eq_ok h
  dsimp only at h
  split at h
  · cases h
    rfl
  · obtain ⟨order, _, h⟩ := bind_eq_ok h
    obtain ⟨lock, _, h⟩ := bind_eq_ok h
    obtain ⟨⟨p, s1⟩, hcoalesce, h⟩ := bind_eq_ok h
    cases h
    have haddr := coalesce_addr _ hcoalesce
    exact haddr

end BuddyAllocator

namespace Vm

/-- The page allocator starts where it did, and mappings of the kernel only go away. -/
structure Shrinks (s s' : Vm) : Prop where
  addr : s'.alloc.addr = s.alloc.addr
  entry : ∀ i, s'.kPageTables i = s.kPageTables i ∨ s'.kPageTables i = vmNpres

variable {s s' : Vm} {addr page : Nat}

theorem Shrinks.of_eq (haddr : s'.alloc.addr = s.alloc.addr) (h : s'.kPageTables = s.kPageTables) :
    Shrinks s s' := ⟨haddr, fun i => Or.inl (by rw [h])⟩

theorem storeBytes_shrinks (w : Nat) : ∀ {s s' : Vm} {va v : Nat}, storeBytes s va v w = .ok s' →
    Shrinks s s' := by
  induction w with
  | zero =>
    intro s s' va v h
    cases h
    exact .of_eq rfl rfl
  | succ w ih =>
    intro s s' va v h
    obtain ⟨s1, hbyte, h⟩ := bind_eq_ok h
    obtain ⟨frame, _, hbyte⟩ := bind_eq_ok hbyte
    cases hbyte
    have hrest := ih h
    exact ⟨hrest.addr, hrest.entry⟩

theorem store_shrinks {value : BitVec 32} (h : s.store addr value = .ok s') : Shrinks s s' := by
  rw [store] at h
  split at h
  · obtain ⟨frame, _, h⟩ := bind_eq_ok h
    cases h
    exact .of_eq rfl rfl
  · exact storeBytes_shrinks 4 h

theorem slabFree_shrinks (h : s.slabFree addr = .ok s') : Shrinks s s' := by
  obtain ⟨page, _, h⟩ := bind_eq_ok h
  simp only [bind_ok_iff] at h
  obtain ⟨idx, _, lock, _, s1, hfree, h⟩ := h
  cases h
  obtain ⟨page', _, hfree⟩ := bind_eq_ok hfree
  simp only [bind_ok_iff] at hfree
  obtain ⟨_, _, _, _, s2, hstore, hfree⟩ := hfree
  cases hfree
  have hrest := store_shrinks hstore
  exact ⟨hrest.addr, hrest.entry⟩

theorem kvmUnmap_shrinks (h : s.kvmUnmap page = .ok s') : Shrinks s s' := by
  obtain ⟨_, _, h⟩ := bind_eq_ok h
  obtain ⟨_, _, h⟩ := bind_eq_ok h
  obtain ⟨pte, _, h⟩ := bind_eq_ok h
  cases h
  rw [kvmUnmapLoop_eq]
  refine ⟨rfl, fun i => ?_⟩
  rw [unmapFrames]
  dsimp only
  split
  · exact Or.inr rfl
  · exact Or.inl rfl

theorem kfree_shrinks (h : s.kfree addr = .ok s') : Shrinks s s' := by
  obtain ⟨page, _, h⟩ := bind_eq_ok h
  cases page with
  | none => cases h
  | some page =>
    dsimp only at h
    split at h
    · exact slabFree_shrinks h
    · obtain ⟨s1, hunmap, h⟩ := bind_eq_ok h
      obtain ⟨alloc, hfree, h⟩ := bind_eq_ok h
      cases h
      have hrest := kvmUnmap_shrinks hunmap
      exact ⟨(_freePage_addr hfree).trans hrest.addr, hrest.entry⟩

theorem not_kfree {pa : Nat} (hpa : s.v2p (pageCeil addr) = .ok pa) (hlt : pa < s.alloc.addr) :
    s.kfree addr ≠ .ok s' := by
  intro h
  obtain ⟨page, hpage, h⟩ := bind_eq_ok h
  obtain ⟨pa', hpa', hpage⟩ := bind_eq_ok hpage
  cases hpa.symm.trans hpa'
  obtain ⟨_, _, hpage⟩ := bind_eq_ok hpage
  obtain ⟨page', hget, hpage⟩ := bind_eq_ok hpage
  have hnone : s.alloc.getPage pa = .ok none := by
    rw [getPage, if_pos hlt, ite_self]
  cases hnone.symm.trans hget
  cases hpage
  cases h

end Vm

/-- `CACHE_EXPIRES`, in seconds. -/
def cacheExpires : Nat := 30

/-- The page cache as `page_recycle` sees it. -/
structure BufferCache where
  vm : Vm
  /-- The lock of the list. -/
  rwlock : RwLock
  /-- In seconds; 0 for a page that was never read or written. -/
  timestamp : Nat → Nat
  /-- The address of the array of page structures. -/
  pages : Nat

namespace BufferCache

variable (c : BufferCache)

def pageStruct (buf : Nat) : Nat := (c.pages + pageStructSize * buf) % 2 ^ 32

def isDirty (buf : Nat) : Bool := (c.vm.alloc.pages buf).flag &&& pgDirty ≠ 0

def recycle (buf : Nat) : Except Fault BufferCache := do
  let vm := c.vm.setAlloc (c.vm.alloc.setLinks (listDel c.vm.alloc.links (.page buf)))
  let vm ← vm.kfree (vm.alloc.pages buf).data
  let vm ← vm.kfree (c.pageStruct buf)
  .ok { c with vm }

/-- The test of `page_recycle`, with 64-bit times. -/
def expired (cur buf : Nat) : Bool :=
  !c.isDirty buf && cacheExpires * 1000 ≤ (cur + 2 ^ 64 - c.timestamp buf) % 2 ^ 64

end BufferCache

/-- The loop of `page_recycle`, for as many nodes as the first argument says. The test of `size` within
the loop of the source never holds. -/
def pageRecycleLoop (cur : Nat) : Nat → BufferCache → Nat → PageNode → Except Fault BufferCache
  | 0, _, _, _ => .error .spin
  | fuel + 1, c, size, hdr =>
    if hdr = .pageCache ∨ size = 0 then .ok c
    else do
      let buf ← pageEntry hdr
      let prev := c.vm.alloc.links.prev hdr
      if c.expired cur buf then
        let c ← c.recycle buf
        pageRecycleLoop cur fuel c ((size + 2 ^ 32 - pageSize) % 2 ^ 32) prev
      else pageRecycleLoop cur fuel c size prev

/-- The list has no more nodes than there are pages; `cur` is `cur_timestamp()`. -/
def BufferCache.pageRecycle (c : BufferCache) (cur size : Nat) : Except Fault BufferCache := do
  let rwlock ← wlockLock c.rwlock
  let c := { c with rwlock }
  let c ← pageRecycleLoop cur (c.vm.alloc.pageCnt + 1) c size (c.vm.alloc.links.prev .pageCache)
  .ok { c with rwlock := wlockUnlock c.rwlock }

namespace BufferCache

variable {c : BufferCache} {cur size buf : Nat} {l : List Nat}

/-- The pages `l` are in the list, and their structures lie below the memory of the page allocator, where
the kernel maps what it used before. -/
structure Cached (c : BufferCache) (l : List Nat) : Prop where
  list : Linked c.vm.alloc.links .pageCache (l.map .page)
  bound : ∀ buf ∈ l, buf < c.vm.alloc.pageCnt
  struct : ∀ buf ∈ l, ∃ pa, c.vm.v2p (pageCeil (c.pageStruct buf)) = .ok pa ∧ pa < c.vm.alloc.addr

/-- What is asked of a call that has taken out the pages `removed`. -/
structure Recycled (c c' : BufferCache) (l removed : List Nat) (cur size : Nat) : Prop where
  list : Linked c'.vm.alloc.links .pageCache ((l.filter (· ∉ removed)).map .page)
  mem : ∀ buf ∈ removed, buf ∈ l
  nodup : removed.Nodup
  clean : ∀ buf ∈ removed, c.isDirty buf = false
  /-- The page was read or written, and that was long ago. -/
  old : ∀ buf ∈ removed, c.timestamp buf ≠ 0 ∧ c.timestamp buf + cacheExpires ≤ cur
  few : removed.length ≤ (size + 4095) / 4096
  /-- The memory of the pages, and no other, goes back to the page allocator. -/
  freed : ∀ A N, c.vm.Kernel A N → ∃ N', c'.vm.Kernel {b | b ∈ A ∧ b.start ∉ removed} N'
  same : ∀ buf ∈ l, buf ∉ removed → c'.vm.alloc.pages buf = c.vm.alloc.pages buf ∧
    c'.timestamp buf = c.timestamp buf ∧ c'.vm.mem (c.vm.frame buf) = c.vm.mem (c.vm.frame buf)

theorem Cached.not_recycle {c' : BufferCache} (h : Cached c l) (hbuf : buf ∈ l) :
    c.recycle buf ≠ .ok c' := by
  intro hok
  obtain ⟨vm1, hdata, hok⟩ := bind_eq_ok hok
  obtain ⟨vm2, hstruct, _⟩ := bind_eq_ok hok
  have hshrinks := Vm.kfree_shrinks hdata
  obtain ⟨pa, hpa, hlt⟩ := h.struct buf hbuf
  obtain ⟨pte, hpte, hpa⟩ := bind_eq_ok hpa
  cases hpa
  -- The mapping of the structure is still there, or it is empty.
  have haddr : vm1.alloc.addr = c.vm.alloc.addr := hshrinks.addr
  have hv2p : ∃ pa, vm1.v2p (pageCeil (c.pageStruct buf)) = .ok pa ∧ pa < vm1.alloc.addr := by
    refine ⟨pageCeil (vm1.kPageTables pte).toNat, by rw [Vm.v2p, hpte, ok_bind], ?_⟩
    rw [haddr]
    rcases hshrinks.entry pte with heq | heq
    · rw [heq]
      exact hlt
    · rw [heq]
      exact Nat.zero_lt_of_lt hlt
  obtain ⟨pa, hpa, hlt⟩ := hv2p
  exact Vm.not_kfree hpa hlt hstruct

theorem Cached.loop (h : Cached c l) (cur : Nat) (hsize : size ≠ 0) {fuel : Nat} {before after : List Nat}
    (hl : l = before ++ after) (hfuel : before.length < fuel) :
    (∀ buf ∈ before, c.expired cur buf = false) ∧
        pageRecycleLoop cur fuel c size ((before.map .page).getLastD .pageCache) = .ok c ∨
      (∃ buf ∈ before, c.expired cur buf = true) ∧
        ∀ c', pageRecycleLoop cur fuel c size ((before.map .page).getLastD .pageCache) ≠ .ok c' := by
  -- The walk goes from the end of the list to its front.
  induction before using List.reverseRecOn generalizing fuel after with
  | nil =>
    obtain ⟨fuel, rfl⟩ := Nat.exists_eq_succ_of_ne_zero (Nat.ne_of_gt hfuel)
    refine Or.inl ⟨nofun, ?_⟩
    rw [pageRecycleLoop]
    exact if_pos (Or.inl rfl)
  | append_singleton before buf ih =>
    obtain ⟨fuel, rfl⟩ := Nat.exists_eq_succ_of_ne_zero (Nat.ne_of_gt (Nat.zero_lt_of_lt hfuel))
    have hmem : buf ∈ l := by
      rw [hl]
      exact List.mem_append_left _ (List.mem_append_right _ List.mem_cons_self)
    have hprev : c.vm.alloc.links.prev (.page buf) = (before.map .page).getLastD .pageCache := by
      have hlist := h.list
      rw [hl, List.append_assoc, List.map_append, List.singleton_append, List.map_cons] at hlist
      exact hlist.prev_append
    have hlast : ((before ++ [buf]).map PageNode.page).getLastD .pageCache = .page buf := by
      rw [List.map_append, List.map_singleton, List.getLastD_concat]
    have hopen : ¬(PageNode.page buf = .pageCache ∨ size = 0) := by
      rintro (heq | heq)
      · cases heq
      · exact hsize heq
    rw [hlast, pageRecycleLoop, if_neg hopen, pageEntry, ok_bind]
    dsimp only
    rw [hprev]
    cases hexpired : c.expired cur buf with
    | true =>
      refine Or.inr ⟨⟨buf, List.mem_append_right _ List.mem_cons_self, hexpired⟩, fun c' hok => ?_⟩
      rw [if_pos rfl] at hok
      obtain ⟨c1, hrecycle, _⟩ := bind_eq_ok hok
      exact h.not_recycle hmem hrecycle
    | false =>
      rw [if_neg Bool.false_ne_true]
      rw [List.append_assoc] at hl
      rw [List.length_append, List.length_singleton] at hfuel
      rcases ih hl (Nat.lt_of_succ_lt_succ hfuel) with ⟨hnone, hok⟩ | ⟨⟨buf', hbuf', hsome⟩, hnot⟩
      · refine Or.inl ⟨fun buf' hbuf' => ?_, hok⟩
        rcases List.mem_append.1 hbuf' with hbuf' | hbuf'
        · exact hnone buf' hbuf'
        · rw [List.mem_singleton.1 hbuf']
          exact hexpired
      · exact Or.inr ⟨⟨buf', List.mem_append_left _ hbuf', hsome⟩, hnot⟩

theorem Cached.length_le (h : Cached c l) : l.length ≤ c.vm.alloc.pageCnt := by
  have hsubperm := List.subperm_of_subset h.list.nodup.of_map fun buf hbuf =>
    List.mem_range.2 (h.bound buf hbuf)
  have hlength := hsubperm.length_le
  rwa [List.length_range] at hlength

theorem Recycled.none (h : Cached c l) : Recycled c c l [] cur size where
  list := by
    have hall : l.filter (· ∉ ([] : List Nat)) = l := List.filter_eq_self.2 fun _ _ => rfl
    rw [hall]
    exact h.list
  mem := nofun
  nodup := List.nodup_nil
  clean := nofun
  old := nofun
  few := Nat.zero_le _
  freed A N hk := by
    have hall : {b | b ∈ A ∧ b.start ∉ ([] : List Nat)} = A := by
      ext b
      exact and_iff_left List.not_mem_nil
    rw [hall]
    exact ⟨N, hk⟩
  same _ _ _ := ⟨rfl, rfl, rfl⟩

/-- A call does what it is for exactly when it has nothing to do. -/
theorem pageRecycle_iff (h : Cached c l) (hlock : c.rwlock = rwlockInit) (hsize : 0 < size) :
    (∃ c' removed, c.pageRecycle cur size = .ok c' ∧ Recycled c c' l removed cur size) ↔
      ∀ buf ∈ l, c.expired cur buf = false := by
  have hheld : Cached { c with rwlock := { rwlockInit with writelock := true } } l :=
    ⟨h.list, h.bound, h.struct⟩
  have hloop := hheld.loop cur hsize.ne' (List.append_nil l).symm (Nat.lt_succ_of_le h.length_le)
  have hcall : c.pageRecycle cur size = (do
      let c ← pageRecycleLoop cur (c.vm.alloc.pageCnt + 1)
        { c with rwlock := { rwlockInit with writelock := true } } size
        ((l.map .page).getLastD .pageCache)
      .ok { c with rwlock := wlockUnlock c.rwlock }) := by
    rw [← h.list.prev_head, pageRecycle, hlock]
    rfl
  rw [hcall]
  rcases hloop with ⟨hnone, hok⟩ | ⟨⟨buf, hbuf, hexpired⟩, hnot⟩
  · refine iff_of_true ⟨c, [], ?_, .none h⟩ hnone
    rw [hok, ok_bind]
    have hback : wlockUnlock { rwlockInit with writelock := true } = c.rwlock := hlock.symm
    rw [hback]
  · refine iff_of_false ?_ fun hnone => ?_
    · rintro ⟨c', removed, hok, _⟩
      obtain ⟨c1, hok, _⟩ := bind_eq_ok hok
      exact hnot c1 hok
    · cases hexpired.symm.trans (hnone buf hbuf)

def oneBuffer (flag : BitVec 16) (timestamp : Nat) : BufferCache where
  vm :=
    { alloc :=
        { links := listAddPrev ⟨id, id⟩ (.page 0) .pageCache
          pages := fun _ =>
            { size := pageSize
              flag := pgHead ||| pgPage ||| pgCache ||| flag
              refCnt := 1
              data := kernelStart + 0x101000
              magic := pageMagic
              rwlock := rwlockInit }
          lock := spinlockInit
          addr := 0x101000
          size := 0
          pageCnt := 1 }
      slabs := fun _ => { chunk := 0, size := 0, nAllocated := 0, magic := 0 }
      slabLock := spinlockInit
      kPageTables := fun i => BitVec.ofNat 32 (4096 * i) ||| vmPres ||| vmKrw
      pageDir := fun _ => vmNpres
      mem := fun _ _ => 0
      cr3 := 0 }
  rwlock := rwlockInit
  timestamp := fun _ => timestamp
  pages := kernelStart + 0x100000

theorem oneBuffer_cached (flag : BitVec 16) (timestamp : Nat) : Cached (oneBuffer flag timestamp) [0] where
  list := ⟨⟨rfl, rfl, rfl, rfl⟩, by decide⟩
  bound := by
    intro buf hbuf
    rw [List.mem_singleton.1 hbuf]
    exact Nat.one_pos
  struct := by
    intro buf hbuf
    rw [List.mem_singleton.1 hbuf]
    have hpa : (do
        let pte ← Vm.getPageTableEntry (pageCeil ((kernelStart + 0x100000 + pageStructSize * 0) % 2 ^ 32))
        Except.ok (pageCeil (BitVec.ofNat 32 (4096 * pte) ||| vmPres ||| vmKrw).toNat)) =
          (.ok 0x100000 : Except Fault Nat) := by decide +kernel
    have hlt : 0x100000 < 0x101000 := by decide
    exact ⟨0x100000, hpa, hlt⟩

/-- A page that is still to be written stays where it is. -/
theorem pageRecycle_iff_oneDirty : ∃ c' removed, (oneBuffer pgDirty 1).pageRecycle 100000 4096 = .ok c' ∧
    Recycled (oneBuffer pgDirty 1) c' [0] removed 100000 4096 :=
  (pageRecycle_iff (oneBuffer_cached pgDirty 1) rfl (by decide)).2 (by decide)

/-- A clean page that was last used a day ago. -/
theorem oneBuffer_not_pageRecycle : ¬∃ c' removed, (oneBuffer pgValid 1).pageRecycle 100000 4096 = .ok c' ∧
    Recycled (oneBuffer pgValid 1) c' [0] removed 100000 4096 := by
  rintro ⟨c', _, hok, _⟩
  have hfaults : faults ((oneBuffer pgValid 1).pageRecycle 100000 4096) .assertk = true := by
    decide +kernel
  rw [eq_error_of_faults hfaults] at hok
  cases hok

end BufferCache

end QuarkOS
