import QuarkOS.Mm.SlabHeap
import QuarkOS.Mm.Boot

/-!
# Runs of the slab allocator

Calls of `slab_alloc`, `slab_free`, `cache_alloc` and `cache_free` in any order, with writes of the
owners to their chunks in between. The chunks that are in use are a list of addresses, each with the
list of slabs it was taken for.
-/

namespace QuarkOS

open CList Dyadic BuddyAllocator FreeList Function

namespace Vm

variable {s s' : Vm} {A A' : Set Block} {N N' : PageNode → List PageNode} {p o n : Nat} {l : List Nat}
  {a : PageNode} {size : PageNode → Nat} {G G' : Nat → Option Slab} {live : List (Nat × PageNode)}

/-- What calls of the slab allocator do, with one cache; `live` are the chunks in use. -/
inductive SlabCall (s : Vm) (cache : SlabCache) (live : List (Nat × PageNode)) :
    Vm → SlabCache → List (Nat × PageNode) → Prop
  | slabAlloc {s' : Vm} {size addr : Nat} (hok : s.slabAlloc size = .ok (addr, s')) :
      SlabCall s cache live s' cache ((addr, .slab (slabIndex size)) :: live)
  | slabFree {s' : Vm} {i addr : Nat} (hlive : (addr, .slab i) ∈ live) (hok : s.slabFree addr = .ok s') :
      SlabCall s cache live s' cache (live.erase (addr, .slab i))
  | cacheAlloc {s' : Vm} {cache' : SlabCache} {addr : Nat}
      (hok : s.cacheAlloc cache = .ok (addr, cache', s')) :
      SlabCall s cache live s' cache' ((addr, .cacheList cache.id) :: live)
  | cacheFree {s' : Vm} {cache' : SlabCache} {addr : Nat} (hlive : (addr, .cacheList cache.id) ∈ live)
      (hok : s.cacheFree cache addr = .ok (cache', s')) :
      SlabCall s cache live s' cache' (live.erase (addr, .cacheList cache.id))
  | write {s' : Vm} {addr i : Nat} {a : PageNode} {x : BitVec 8} (hlive : (addr, a) ∈ live)
      (hi : i < chunkSize cache.size a) (hok : s.storeByte (addr + i) x = .ok s') :
      SlabCall s cache live s' cache live

inductive SlabRun (s0 : Vm) (cache0 : SlabCache) : Vm → SlabCache → List (Nat × PageNode) → Prop
  | start : SlabRun s0 cache0 s0 cache0 []
  | step {s s' : Vm} {cache cache' : SlabCache} {live live' : List (Nat × PageNode)}
      (hrun : SlabRun s0 cache0 s cache live) (hstep : SlabCall s cache live s' cache' live') :
      SlabRun s0 cache0 s' cache' live'

/-- The slabs of the state, and the chunks in use. -/
structure SlabInv (s : Vm) (n : Nat) (live : List (Nat × PageNode)) (A : Set Block)
    (N : PageNode → List PageNode) (G : Nat → Option Slab) : Prop where
  heap : Heap s A N (chunkSize n) G
  marked : Marked s A G
  chunk : ∀ c ∈ live, IsChunk s (chunkSize n) G c.1 c.2
  nodup : (live.map Prod.fst).Nodup

theorem SlabInv.took (h : SlabInv s n live A N G) (hsize : Sized (chunkSize n))
    (hh' : Heap s' A' N' (chunkSize n) G') (hstep : SlabStep s s' A A' ∅ G G')
    (htook : Took G G' (chunkSize n) a p o) :
    SlabInv s' n ((s'.kva p + o, a) :: live) A' N' G' := by
  have hold : ∀ c ∈ live, IsChunk s' (chunkSize n) G' c.1 c.2 ∧ c.1 ≠ s'.kva p + o := fun c hc =>
    (h.chunk c hc).took hh' hsize hstep.grows.addr htook
  refine ⟨hh', hstep.marked h.marked, ?_, ?_⟩
  · intro c hc
    rcases List.mem_cons.1 hc with rfl | hc
    · exact htook.isChunk
    · exact (hold c hc).1
  · rw [List.map_cons, List.nodup_cons]
    refine ⟨fun hmem => ?_, h.nodup⟩
    obtain ⟨c, hc, he⟩ := List.mem_map.1 hmem
    exact (hold c hc).2 he

theorem SlabInv.gave (h : SlabInv s n live A N G) (hc : (s.kva p + o, a) ∈ live) (hg : G p = some ⟨a, l⟩)
    (hh' : Heap s' A N' (chunkSize n) (update G p (some ⟨a, o :: l⟩)))
    (hstep : SlabStep s s' A A {p} G (update G p (some ⟨a, o :: l⟩))) :
    SlabInv s' n (live.erase (s.kva p + o, a)) A N' (update G p (some ⟨a, o :: l⟩)) := by
  refine ⟨hh', hstep.marked h.marked, ?_, ?_⟩
  · intro c hc'
    exact (h.chunk c (List.mem_of_mem_erase hc')).gave hstep.grows.addr hg
      (ne_of_mem_erase h.nodup hc hc')
  · exact h.nodup.sublist (List.erase_sublist.map _)

theorem SlabInv.write {addr i : Nat} {x : BitVec 8} (h : SlabInv s n live A N G)
    (hsize : Sized (chunkSize n)) (hc : (addr, a) ∈ live) (hi : i < chunkSize n a)
    (hok : s.storeByte (addr + i) x = .ok s') : SlabInv s' n live A N G := by
  obtain ⟨s1, hrun, hh', halloc, _⟩ := h.heap.write hsize (h.chunk _ hc) hi x
  rw [hok] at hrun
  cases hrun
  refine ⟨hh', ?_, fun c hc => (h.chunk c hc).congr (by rw [halloc]), h.nodup⟩
  rw [Marked, halloc]
  exact h.marked

def SlabStart (s : Vm) (cache : SlabCache) : Prop :=
  (∃ A N, Kernel s A N ∧ Counted s.alloc A ∧ (∀ c ∈ heads, c ∉ roots → N c = []) ∧
    ∀ b ∈ A, isSlab (s.alloc.pages b.start) = false) ∧ 4 ≤ cache.size ∧ cache.size ≤ 4096

theorem SlabStart.inv {cache : SlabCache} (h : SlabStart s cache) :
    ∃ A N G, SlabInv s cache.size [] A N G := by
  obtain ⟨⟨A, N, hk, hc, hlists, hflag⟩, _⟩ := h
  refine ⟨A, N, fun _ => none, ⟨hk, hc, slabs_none hlists⟩, ?_, ?_, List.nodup_nil⟩
  · intro b hb h
    rw [hflag b hb] at h
    cases h
  · exact fun c hc => absurd hc List.not_mem_nil

theorem SlabInv.step {cache cache' : SlabCache} {live' : List (Nat × PageNode)}
    (hinv : SlabInv s cache.size live A N G) (hpos : 4 ≤ cache.size) (hle : cache.size ≤ 4096)
    (hstep : SlabCall s cache live s' cache' live') :
    (∃ A N G, SlabInv s' cache'.size live' A N G) ∧ cache'.size = cache.size := by
  have hsize := sized_chunkSize hpos hle
  cases hstep with
  | slabAlloc hok =>
    obtain ⟨A', N', G', p, o, hh', hstep, rfl, htook, _⟩ := hinv.heap.slabAlloc hsize hok
    exact ⟨⟨A', N', G', hinv.took hsize hh' hstep htook⟩, rfl⟩
  | slabFree hlive hok =>
    obtain ⟨p, l, o, hg, rfl, hslot, hout⟩ := hinv.chunk _ hlive
    obtain ⟨_, herr⟩ | ⟨s1, N', hrun, hh', hstep⟩ := hinv.heap.slabFree hsize hg hslot hout
    · rw [hok] at herr
      cases herr
    · rw [hok] at hrun
      cases hrun
      exact ⟨⟨A, N', _, hinv.gave hlive hg hh' hstep⟩, rfl⟩
  | cacheAlloc hok =>
    obtain ⟨_, _, hok⟩ := bind_eq_ok hok
    obtain ⟨⟨addr, s1⟩, hrun, hret⟩ := bind_eq_ok hok
    cases hret
    rw [Nat.mod_eq_of_lt (by omega)] at hrun
    obtain ⟨A', N', G', p, o, hh', hstep, rfl, htook⟩ :=
      hinv.heap.alloc hsize (Or.inr ⟨_, rfl⟩) hrun
    exact ⟨⟨A', N', G', hinv.took hsize hh' hstep htook⟩, rfl⟩
  | cacheFree hlive hok =>
    obtain ⟨_, _, hok⟩ := bind_eq_ok hok
    obtain ⟨s1, hrun, hret⟩ := bind_eq_ok hok
    cases hret
    obtain ⟨p, l, o, hg, rfl, hslot, hout⟩ := hinv.chunk _ hlive
    obtain ⟨s2, N', hrun', hh', hstep⟩ := hinv.heap.give hsize hg hslot hout
    rw [hrun] at hrun'
    cases hrun'
    exact ⟨⟨A, N', _, hinv.gave hlive hg hh' hstep⟩, rfl⟩
  | write hlive hi hok => exact ⟨⟨A, N, G, hinv.write hsize hlive hi hok⟩, rfl⟩

theorem SlabRun.inv {s0 : Vm} {cache0 cache : SlabCache} (h0 : SlabStart s0 cache0)
    (hrun : SlabRun s0 cache0 s cache live) :
    (∃ A N G, SlabInv s cache.size live A N G) ∧ cache.size = cache0.size := by
  induction hrun with
  | start => exact ⟨h0.inv, rfl⟩
  | step _ hstep ih =>
    obtain ⟨⟨A, N, G, hinv⟩, hcache⟩ := ih
    obtain ⟨hinv', hsame⟩ := hinv.step (hcache ▸ h0.2.1) (hcache ▸ h0.2.2) hstep
    exact ⟨hinv', hsame.trans hcache⟩

/-- The chunks one finds from the address `c` on. -/
def ChunkList (s : Vm) : Nat → List Nat → Prop
  | c, [] => c = 0
  | c, x :: l => c = x ∧ c ≠ 0 ∧ ∃ next, s.load x = .ok next ∧ s.ChunkList next.toNat l

/-- The page `p` is linked in the list `c`. -/
def InList (s : Vm) (c : PageNode) (p : Nat) : Prop := ∃ l, Linked s.alloc.links c l ∧ .page p ∈ l

/-- Every slab in use counts its chunks, has a chunk list of different free chunks and is in the one
list where it belongs, and no two chunks in use overlap. The chunks of the cache have `n` bytes. -/
structure SlabSound (s : Vm) (n : Nat) (live : List (Nat × PageNode)) : Prop where
  slab : ∀ p < s.alloc.pageCnt, 0 < (s.alloc.pages p).refCnt → isSlab (s.alloc.pages p) = true →
    ∃ a ∈ partHeads, ∃ l : List Nat, (s.slabs p).size = chunkSize n a ∧
      s.ChunkList (s.slabs p).chunk (l.map (s.kva p + ·)) ∧
      (s.slabs p).nAllocated + l.length = 4096 / (s.slabs p).size ∧ l.Nodup ∧
      (∀ o ∈ l, (s.slabs p).size ∣ o ∧ o + (s.slabs p).size ≤ 4096) ∧
      (∀ o ∈ l, ∀ c ∈ live, s.kva p + o + (s.slabs p).size ≤ c.1 ∨
        c.1 + chunkSize n c.2 ≤ s.kva p + o) ∧
      ∀ c ∈ partHeads ∪ fullHeads, s.InList c p ↔ c = if l = [] then fullOf a else a
  apart : live.Pairwise fun c c' => c.1 + chunkSize n c.2 ≤ c'.1 ∨ c'.1 + chunkSize n c'.2 ≤ c.1

theorem KMapped.chunkList (hm : KMapped s p) (hmod : s.alloc.pageAddr p % 4096 = 0) :
    ∀ {l : List Nat} {c : Nat}, (∀ o ∈ l, o + 4 ≤ 4096) → Threaded (s.kva p) (s.bytes p) c l →
      s.ChunkList c (l.map (s.kva p + ·)) := by
  intro l
  induction l with
  | nil => exact fun _ h => h
  | cons o l ih =>
    rintro c hl ⟨rfl, hrest⟩
    have hpos := kva_pos s p
    refine ⟨rfl, by omega, _, hm.loadWord hmod (hl o List.mem_cons_self), ?_⟩
    rw [toNat_word]
    exact ih (fun x hx => hl x (List.mem_cons_of_mem o hx)) hrest

theorem Kernel.inList_iff {c : PageNode} (hk : Kernel s A N) (hc : c ∈ heads) (hroot : c ∉ roots) :
    s.InList c p ↔ .page p ∈ N c := by
  have hlinked := hk.owns.linked hc hroot
  constructor
  · rintro ⟨l, hl, hp⟩
    rwa [hlinked.unique hl]
  · intro hp
    exact ⟨N c, hlinked, hp⟩

theorem SlabInv.sound (h : SlabInv s n live A N G) (hsize : Sized (chunkSize n)) : SlabSound s n live := by
  have hh := h.heap
  refine ⟨?_, ?_⟩
  swap
  · refine (List.pairwise_map.1 h.nodup).imp_of_mem fun {c c'} hc hc' hne => ?_
    exact (h.chunk c hc).apart (h.chunk c' hc') hh hne
  intro p hp href hflag
  obtain ⟨b, hb, rfl⟩ : ∃ b ∈ A, b.start = p := by
    by_contra hno
    have hzero := hh.counted.zero p hp fun b hb he => hno ⟨b, hb, he⟩
    omega
  obtain ⟨⟨a, l⟩, hg⟩ := h.marked b hb hflag
  have ha := hh.slabs.home _ _ hg
  have hok : SlabOk s b.start (chunkSize n a) l := hh.slabs.ok _ _ hg
  have hpos : 4 ≤ chunkSize n a := (hsize a ha).1
  have hle : ∀ o ∈ l, o + chunkSize n a ≤ 4096 := fun o ho => (hok.chunks.slot o ho).le
  refine ⟨a, ha, l, hok.size, ?_, ?_, hok.chunks.nodup, ?_, ?_, ?_⟩
  · refine hok.mapped.chunkList (hh.kernel.pageAddr_mod hp) (fun o ho => ?_) hok.chunks.threaded
    have := hle o ho
    omega
  · rw [hok.size]
    exact hok.count
  · intro o ho
    rw [hok.size]
    obtain ⟨i, _, rfl⟩ := hok.chunks.slot o ho
    exact ⟨Nat.dvd_mul_left _ i, hle _ ho⟩
  · intro o ho c hc
    obtain ⟨q, l', o', hg', haddr, hslot, hout⟩ := h.chunk c hc
    rw [hok.size, haddr]
    refine hh.chunks_apart hg hg' (hok.chunks.slot o ho) hslot ?_
    rintro rfl rfl
    rw [hg] at hg'
    cases hg'
    exact hout ho
  · rintro c hc
    obtain ⟨hheads, hroot⟩ : c ∈ heads ∧ c ∉ roots := by
      rcases hc with hc | hc
      · exact mem_heads_of_part hc
      · exact mem_heads_of_full hc
    rw [hh.kernel.inList_iff hheads hroot, hh.slabs.mem_list hg hheads hroot]
    rfl

/-- The representation invariant of the slab allocator holds after every run. -/
theorem slabRun_sound {s0 : Vm} {cache0 cache : SlabCache} (h0 : SlabStart s0 cache0)
    (hrun : SlabRun s0 cache0 s cache live) : SlabSound s cache.size live := by
  obtain ⟨⟨A, N, G, hinv⟩, hcache⟩ := hrun.inv h0
  refine hinv.sound ?_
  rw [hcache]
  exact sized_chunkSize h0.2.1 h0.2.2

theorem boot_slabStart {k : Nat} (hk : k ≤ maxOrder) {cache : SlabCache} (hlow : 4 ≤ cache.size)
    (hhigh : cache.size ≤ 4096) : SlabStart (boot k) cache := by
  obtain ⟨hkernel, hcounted⟩ := boot_kernel hk
  refine ⟨⟨∅, _, hkernel, hcounted, fun _ _ _ => rfl, ?_⟩, hlow, hhigh⟩
  exact fun b hb => absurd hb (Set.notMem_empty b)

def smallSlabs : Except Fault (Nat × Nat × SlabCache × Vm) := do
  let (addr, s) ← (boot 4).slabAlloc 3
  let (addr', cache, s) ← s.cacheAlloc { id := 0, size := 4096, lock := false }
  let s ← s.slabFree addr
  .ok (addr, addr', cache, s)

theorem slabRun_sound_small : ∃ (s : Vm) (cache : SlabCache) (addr : Nat),
    SlabRun (boot 4) { id := 0, size := 4096, lock := false } s cache [(addr, .cacheList 0)] ∧
      SlabSound s cache.size [(addr, .cacheList 0)] := by
  obtain ⟨⟨addr, addr', cache, s⟩, hok⟩ := exists_ok (x := smallSlabs) (by decide +kernel)
  obtain ⟨⟨_, s1⟩, halloc, hok⟩ := bind_eq_ok hok
  obtain ⟨⟨_, cache1, s2⟩, hcache, hok⟩ := bind_eq_ok hok
  obtain ⟨s3, hfree, hret⟩ := bind_eq_ok hok
  cases hret
  have hrun := ((SlabRun.start.step (.slabAlloc halloc)).step (.cacheAlloc hcache)).step
    (.slabFree (List.mem_cons_of_mem _ List.mem_cons_self) hfree)
  refine ⟨s, cache, addr', ?_⟩
  have hlive : [(addr', PageNode.cacheList 0), (addr, .slab 0)].erase (addr, .slab 0) =
      [(addr', .cacheList 0)] := by
    simp
  have hindex : slabIndex 3 = 0 := by decide
  rw [hindex, hlive] at hrun
  exact ⟨hrun, slabRun_sound (boot_slabStart (by decide) (by decide) (by decide)) hrun⟩

end Vm

end QuarkOS
