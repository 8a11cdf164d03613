import QuarkOS.Mm.Slabs

/-!
# The slab allocator between two calls

`Heap` is the state of the slab allocator between two calls, and `IsChunk` says of an address that it
is a chunk in use. `__slab_alloc` and `__slab_free` each change one slab: the chunk that is taken is new
among those in use, and the others stay in use. The owner of a chunk may write to it in between.
-/

namespace QuarkOS

open CList Dyadic BuddyAllocator FreeList Function

namespace Vm

variable {s s' s'' : Vm} {A A' A'' : Set Block} {N N' : PageNode → List PageNode} {P : Set Nat}
  {p o n : Nat} {l : List Nat} {a : PageNode} {size : PageNode → Nat} {G G' G'' : Nat → Option Slab}

structure Heap (s : Vm) (A : Set Block) (N : PageNode → List PageNode) (size : PageNode → Nat)
    (G : Nat → Option Slab) : Prop where
  kernel : Kernel s A N
  counted : Counted s.alloc A
  slabs : Slabs s A N size G

/-- No block in use looks like a slab but the slabs. -/
def Marked (s : Vm) (A : Set Block) (G : Nat → Option Slab) : Prop :=
  ∀ b ∈ A, isSlab (s.alloc.pages b.start) = true → ∃ g, G b.start = some g

/-- No free page carries one of the flags `m`. -/
def Clean (m : BitVec 16) (s : Vm) (A : Set Block) : Prop :=
  ∀ q < s.alloc.pageCnt, (∀ c ∈ A, q ∉ c) → (s.alloc.pages q).flag &&& m = 0#16

/-- What a call of the slab allocator keeps besides the slabs. -/
structure SlabStep (s s' : Vm) (A A' : Set Block) (P : Set Nat) (G G' : Nat → Option Slab) : Prop where
  grows : Grows s s' A A' P
  ready : Ready s A → Ready s' A'
  marked : Marked s A G → Marked s' A' G'
  clean : ∀ m, ClientMask m → Clean m s A → Clean m s' A'

theorem SlabStep.trans (h1 : SlabStep s s' A A' P G G') (h2 : SlabStep s' s'' A' A'' P G' G'') :
    SlabStep s s'' A A'' P G G'' where
  grows := h1.grows.trans h2.grows
  ready h := h2.ready (h1.ready h)
  marked h := h2.marked (h1.marked h)
  clean m hm h := h2.clean m hm (h1.clean m hm h)

theorem SlabStep.locked {lock : Bool} (h : SlabStep (s.setSlabLock lock) s' A A' P G G') :
    SlabStep s (s'.setSlabLock false) A A' P G G' := by
  obtain ⟨hg, hready, hmarked, hclean⟩ := h
  refine ⟨⟨hg.sub, hg.addr, hg.pageCnt, hg.page, hg.entry, hg.mem, hg.pageDir, hg.cr3⟩, ?_, hmarked, hclean⟩
  intro h
  have h' := hready ⟨h.top, h.unmapped⟩
  exact ⟨h'.top, h'.unmapped⟩

theorem Slabs.congr (hs : Slabs s A N size G) (halloc : s'.alloc = s.alloc)
    (htab : s'.kPageTables = s.kPageTables) (hmem : s'.mem = s.mem) (hslabs : s'.slabs = s.slabs) :
    Slabs s' A N size G := by
  refine ⟨hs.mem, hs.home, fun p g hg => (hs.ok p g hg).keep ?_ ?_ ?_ ?_ ?_, hs.lists⟩
  · rw [halloc]
  · rw [halloc]
  · rw [htab]
  · rw [hmem]
  · rw [hslabs]

theorem slabs_none (hlists : ∀ c ∈ heads, c ∉ roots → N c = []) : Slabs s A N size fun _ => none := by
  refine ⟨?_, ?_, ?_, ?_⟩
  · exact fun p g hg => absurd hg.symm (Option.some_ne_none g)
  · exact fun p g hg => absurd hg.symm (Option.some_ne_none g)
  · exact fun p g hg => absurd hg.symm (Option.some_ne_none g)
  · intro c hc hroot x
    rw [hlists c hc hroot]
    refine iff_of_false List.not_mem_nil ?_
    rintro ⟨p, g, _, hg, _⟩
    exact absurd hg.symm (Option.some_ne_none g)

variable {g : Slab} {addr i : Nat} {a' : PageNode}

theorem Heap.slab_lt (hh : Heap s A N size G) (hg : G p = some g) : p < s.alloc.pageCnt :=
  hh.kernel.owns.start_lt (hh.slabs.mem p g hg)

theorem Heap.setSlabLock (hh : Heap s A N size G) (lock : Bool) : Heap (s.setSlabLock lock) A N size G :=
  ⟨hh.kernel.congr rfl, hh.counted, hh.slabs.congr rfl rfl rfl rfl⟩

theorem Ready.of_same (hr : Ready s A) (haddr : s'.alloc.addr = s.alloc.addr)
    (hcnt : s'.alloc.pageCnt = s.alloc.pageCnt) (htab : s'.kPageTables = s.kPageTables) :
    Ready s' A := by
  refine ⟨?_, ?_⟩
  · rw [haddr, hcnt]
    exact hr.top
  · intro q hq hfree
    rw [htab, frame, pageAddr, haddr]
    exact hr.unmapped q (hcnt ▸ hq) hfree

theorem SlabStep.of_pages (hg : Grows s s' A A P) (hpages : s'.alloc.pages = s.alloc.pages)
    (htab : s'.kPageTables = s.kPageTables) :
    SlabStep s s' A A P G (update G p (some g)) := by
  refine ⟨hg, fun hr => hr.of_same hg.addr hg.pageCnt htab, ?_, ?_⟩
  · intro hm b hb hflag
    rw [hpages] at hflag
    obtain ⟨g', hbg⟩ := hm b hb hflag
    by_cases hbp : b.start = p
    · exact ⟨g, by rw [hbp, update_self]⟩
    · exact ⟨g', by rw [update_of_ne hbp]; exact hbg⟩
  · intro m _ hc q hq hfree
    rw [hpages]
    exact hc q (hg.pageCnt ▸ hq) hfree

theorem NewSlab.step (hnew : NewSlab s s' A N a n p) (hk : Kernel s A N) :
    SlabStep s s' A (insert ⟨p, 0⟩ A) ∅ G (update G p (some g)) := by
  have hfree : ∀ q, (∀ c ∈ insert (⟨p, 0⟩ : Block) A, q ∉ c) → q ≠ p ∧ ∀ c ∈ A, q ∉ c := by
    intro q hq
    refine ⟨?_, fun c hc => hq c (Or.inr hc)⟩
    rintro rfl
    exact hq _ (Or.inl rfl) (Block.start_mem _)
  refine ⟨hnew.grows, ?_, ?_, ?_⟩
  · intro hr
    refine ⟨?_, ?_⟩
    · rw [hnew.grows.addr, hnew.grows.pageCnt]
      exact hr.top
    · intro q hq hout
      obtain ⟨hqp, hout⟩ := hfree q hout
      have hlt : q < s.alloc.pageCnt := hnew.grows.pageCnt ▸ hq
      rw [hnew.grows.frame, hnew.entry_other]
      · exact hr.unmapped q hlt hout
      · exact fun he => hqp (hk.frame_inj hlt hnew.fresh.lt he)
  · rintro hm b (rfl | hb) hflag
    · exact ⟨g, update_self _ _ _⟩
    · rw [hnew.grows.page b hb _ b.start_mem] at hflag
      obtain ⟨g', hbg⟩ := hm b hb hflag
      have hne : b.start ≠ p := fun he => hnew.fresh.notMem b hb (he ▸ b.start_mem)
      exact ⟨g', by rw [update_of_ne hne]; exact hbg⟩
  · intro m hm hc q hq hout
    obtain ⟨hqp, hout⟩ := hfree q hout
    rw [hm.congr (hnew.flag_other q hqp)]
    exact hc q (hnew.grows.pageCnt ▸ hq) hout

/-- From `G` to `G'` the chunk at the offset `o` of the slab `p` of the list `a` was taken. The slab may
be a new one. -/
structure Took (G G' : Nat → Option Slab) (size : PageNode → Nat) (a : PageNode) (p o : Nat) : Prop where
  slot : IsSlot 4096 (size a) o
  now : ∃ l, G' p = some ⟨a, l⟩ ∧ o ∉ l ∧ ∀ g, G p = some g → g = ⟨a, o :: l⟩
  other : ∀ q g, G q = some g → q ≠ p → G' q = some g

theorem Heap.take (hh : Heap s A N size G) (hsize : Sized size) (ha : a ∈ partHeads) (hne : N a ≠ [])
    (n : Nat) : ∃ s' N' G' p o, s._slabAlloc a (fullOf a) n = .ok (s.kva p + o, s') ∧
      Heap s' A N' size G' ∧ SlabStep s s' A A ∅ G G' ∧ Took G G' size a p o := by
  obtain ⟨p, o, l, s', hg, hrun, hgrows, hpages, _, htab, _, N', hk', hs'⟩ :=
    hh.slabs.take hh.kernel hsize ha hne n
  have hchunks := (hh.slabs.ok p _ hg).chunks
  refine ⟨s', N', _, p, o, hrun, ⟨hk', hh.counted.congr (fun i => by rw [hpages]) hgrows.pageCnt, hs'⟩,
    SlabStep.of_pages hgrows hpages htab,
    ⟨hchunks.slot o List.mem_cons_self, ⟨l, update_self _ _ _, hchunks.pop.2.2, ?_⟩, ?_⟩⟩
  · intro g hg'
    rw [hg] at hg'
    exact (Option.some.inj hg').symm
  · intro q g hq hqp
    rw [update_of_ne hqp]
    exact hq

theorem Took.of_add {q : Nat} (h : Took (update G p (some g)) G' size a q o)
    (hp : G p = none) : Took G G' size a q o := by
  have hold : ∀ r g', G r = some g' → update G p (some g) r = some g' := by
    intro r g' hr
    rw [update_of_ne]
    · exact hr
    · rintro rfl
      rw [hp] at hr
      cases hr
  obtain ⟨l, hnow, hout, hwas⟩ := h.now
  exact ⟨h.slot, ⟨l, hnow, hout, fun g' hg' => hwas g' (hold q g' hg')⟩,
    fun r g' hr hrq => h.other r g' (hold r g' hr) hrq⟩

theorem Heap.add (hh : Heap s A N size G) (hsize : Sized size) (ha : a ∈ partHeads)
    (hnew : NewSlab s s' A N a (size a) p) :
    Heap s' (insert ⟨p, 0⟩ A) (update N a (.page p :: N a)) size
      (update G p (some ⟨a, slotRun (size a) (4096 / size a) 0⟩)) :=
  ⟨hnew.kernel, hnew.fresh.counted hnew.grows.pageCnt hh.counted, hh.slabs.add hsize ha hnew⟩

theorem slab_bound (hsize : Sized size) (ha : a ∈ partHeads) :
    (pageSize / size a - 1) * size a + 4 ≤ 4096 := by
  obtain ⟨hn, hn'⟩ := hsize a ha
  have hcap : 1 ≤ pageSize / size a := (Nat.one_le_div_iff (by omega)).2 hn'
  have hle : pageSize / size a * size a ≤ 4096 := Nat.div_mul_le_self _ _
  rw [Nat.sub_mul]
  have hone : 1 * size a ≤ pageSize / size a * size a := Nat.mul_le_mul_right _ hcap
  omega

section

variable (hh : Heap s A N size G) (hsize : Sized size)
include hh hsize

theorem Heap.alloc (ha : a ∈ partHeads)
    (hok : s._slabAlloc a (fullOf a) (size a) = .ok (addr, s')) :
    ∃ A' N' G' p o, Heap s' A' N' size G' ∧ SlabStep s s' A A' ∅ G G' ∧ addr = s'.kva p + o ∧
      Took G G' size a p o := by
  obtain ⟨haheads, haroot⟩ := mem_heads_of_part ha
  by_cases hne : N a = []
  · obtain ⟨p, s1, hnew, hrest⟩ := _slabAlloc_empty hh.kernel haheads haroot hne (slab_bound hsize ha) hok
    have hlist : update N a (.page p :: N a) a ≠ [] := by
      rw [update_self]
      exact List.cons_ne_nil _ _
    obtain ⟨s2, N', G', q, o, hrun, hh', hstep, htook⟩ := (hh.add hsize ha hnew).take hsize ha hlist (size a)
    rw [hrest] at hrun
    cases hrun
    have hp : G p = none := by
      cases hg : G p with
      | none => rfl
      | some g => exact absurd (Block.start_mem _) (hnew.fresh.notMem _ (hh.slabs.mem p g hg))
    refine ⟨_, N', G', q, o, hh', (hnew.step hh.kernel).trans hstep, ?_, htook.of_add hp⟩
    rw [hstep.grows.kva]
  · obtain ⟨s1, N', G', q, o, hrun, hh', hstep, htook⟩ := hh.take hsize ha hne (size a)
    rw [hok] at hrun
    cases hrun
    refine ⟨A, N', G', q, o, hh', hstep, ?_, htook⟩
    rw [hstep.grows.kva]

theorem Heap.alloc_total (ha : a ∈ partHeads)
    (hr : Ready s A) (hlock : s.alloc.lock = false) :
    s._slabAlloc a (fullOf a) (size a) = .error .outOfMemory ∨
      ∃ addr s', s._slabAlloc a (fullOf a) (size a) = .ok (addr, s') := by
  obtain ⟨haheads, haroot⟩ := mem_heads_of_part ha
  by_cases hne : N a = []
  · have hlist := ((hh.kernel.owns.linked haheads haroot).listEmpty_iff).2 hne
    rcases addSlab_total (a := a) hh.kernel hr hlock (slab_bound hsize ha) with herr | ⟨s1, hadd⟩
    · rw [_slabAlloc, hlist, if_pos rfl, herr]
      exact Or.inl rfl
    · obtain ⟨p, hnew⟩ := addSlab_spec hh.kernel haheads haroot (slab_bound hsize ha) hadd
      have hne' : update N a (.page p :: N a) a ≠ [] := by
        rw [update_self]
        exact List.cons_ne_nil _ _
      have hlist' : listEmpty s1.alloc.links a = false := by
        rw [Bool.eq_false_iff, Ne, (hnew.kernel.owns.linked haheads haroot).listEmpty_iff]
        exact hne'
      obtain ⟨s2, _, _, q, o, hrun, _⟩ := (hh.add hsize ha hnew).take hsize ha hne' (size a)
      rw [_slabAlloc, hlist', if_neg Bool.false_ne_true] at hrun
      rw [_slabAlloc, hlist, if_pos rfl, hadd]
      exact Or.inr ⟨_, s2, hrun⟩
  · obtain ⟨s1, _, _, q, o, hrun, _⟩ := hh.take hsize ha hne (size a)
    exact Or.inr ⟨_, s1, hrun⟩

theorem Heap.give (hg : G p = some ⟨a, l⟩)
    (ho : IsSlot 4096 (size a) o) (hout : o ∉ l) :
    ∃ s' N', s._slabFree (s.kva p + o) a = .ok s' ∧
      Heap s' A N' size (update G p (some ⟨a, o :: l⟩)) ∧
      SlabStep s s' A A {p} G (update G p (some ⟨a, o :: l⟩)) := by
  obtain ⟨s', N', hrun, hk', hs', hgrows, hpages, htab⟩ := hh.slabs.give hh.kernel hsize hg ho hout
  exact ⟨s', N', hrun, ⟨hk', hh.counted.congr (fun i => by rw [hpages]) hgrows.pageCnt, hs'⟩,
    SlabStep.of_pages hgrows hpages htab⟩

end

/-- The chunk at the address, of the list `a`, is in use. -/
def IsChunk (s : Vm) (size : PageNode → Nat) (G : Nat → Option Slab) (addr : Nat) (a : PageNode) : Prop :=
  ∃ p l o, G p = some ⟨a, l⟩ ∧ addr = s.kva p + o ∧ IsSlot 4096 (size a) o ∧ o ∉ l

theorem kva_congr (haddr : s'.alloc.addr = s.alloc.addr) : s'.kva = s.kva := by
  funext q
  rw [kva, kva, pageAddr, pageAddr, haddr]

theorem IsChunk.congr (h : IsChunk s size G addr a) (haddr : s'.alloc.addr = s.alloc.addr) :
    IsChunk s' size G addr a := by
  rw [IsChunk, kva_congr haddr]
  exact h

theorem Heap.chunks_apart (hh : Heap s A N size G) {q o' : Nat} {l' : List Nat}
    (hg : G p = some ⟨a, l⟩) (hg' : G q = some ⟨a', l'⟩) (ho : IsSlot 4096 (size a) o)
    (ho' : IsSlot 4096 (size a') o') (hne : p = q → o ≠ o') :
    s.kva p + o + size a ≤ s.kva q + o' ∨ s.kva q + o' + size a' ≤ s.kva p + o := by
  by_cases hpq : p = q
  · subst hpq
    rw [hg] at hg'
    cases hg'
    rcases ho.apart ho' (hne rfl) with h | h <;> omega
  · have hle := ho.le
    have hle' := ho'.le
    rw [kva, kva, hh.kernel.pageAddr_eq (hh.slab_lt hg), hh.kernel.pageAddr_eq (hh.slab_lt hg')]
    omega

theorem IsChunk.apart {addr' : Nat} (h : IsChunk s size G addr a)
    (h' : IsChunk s size G addr' a') (hh : Heap s A N size G) (hne : addr ≠ addr') :
    addr + size a ≤ addr' ∨ addr' + size a' ≤ addr := by
  obtain ⟨p, l, o, hg, rfl, hslot, _⟩ := h
  obtain ⟨q, l', o', hg', rfl, hslot', _⟩ := h'
  refine hh.chunks_apart hg hg' hslot hslot' ?_
  rintro rfl rfl
  exact hne rfl

theorem Took.isChunk (htook : Took G G' size a p o) : IsChunk s size G' (s.kva p + o) a := by
  obtain ⟨l, hnow, hout, _⟩ := htook.now
  exact ⟨p, l, o, hnow, rfl, htook.slot, hout⟩

theorem IsChunk.took (h : IsChunk s size G addr a')
    (hh' : Heap s' A' N' size G') (hsize : Sized size) (haddr : s'.alloc.addr = s.alloc.addr)
    (htook : Took G G' size a p o) : IsChunk s' size G' addr a' ∧ addr ≠ s'.kva p + o := by
  obtain ⟨l, hnow, hout, hwas⟩ := htook.now
  obtain ⟨q, l', o', hg, rfl, hslot, hout'⟩ := h
  rw [← kva_congr haddr]
  by_cases hq : q = p
  · subst hq
    obtain ⟨rfl, rfl⟩ := Slab.mk.inj (hwas _ hg)
    rw [List.mem_cons, not_or] at hout'
    obtain ⟨hne, hout'⟩ := hout'
    exact ⟨⟨q, l, o', hnow, rfl, hslot, hout'⟩, fun he => hne (Nat.add_left_cancel he)⟩
  · have hg' := htook.other q _ hg hq
    refine ⟨⟨q, l', o', hg', rfl, hslot, hout'⟩, fun he => ?_⟩
    have hpos := (hsize a (hh'.slabs.home p _ hnow)).1
    have hpos' := (hsize a' (hh'.slabs.home q _ hg')).1
    rcases hh'.chunks_apart hg' hnow hslot htook.slot fun h => absurd h hq with h | h <;> omega

theorem IsChunk.gave (h : IsChunk s size G addr a')
    (haddr : s'.alloc.addr = s.alloc.addr) (hg : G p = some ⟨a, l⟩) (hne : addr ≠ s.kva p + o) :
    IsChunk s' size (update G p (some ⟨a, o :: l⟩)) addr a' := by
  obtain ⟨q, l', o', hg', rfl, hslot, hout⟩ := h
  rw [← kva_congr haddr] at hne ⊢
  by_cases hq : q = p
  · subst hq
    rw [hg] at hg'
    obtain ⟨rfl, rfl⟩ := Slab.mk.inj (Option.some.inj hg')
    refine ⟨q, o :: l, o', update_self _ _ _, rfl, hslot, ?_⟩
    rw [List.mem_cons, not_or]
    exact ⟨fun he => hne (by rw [he]), hout⟩
  · exact ⟨q, l', o', by rw [update_of_ne hq]; exact hg', rfl, hslot, hout⟩

theorem ne_of_mem_erase {α : Type} [DecidableEq α] {live : List (Nat × α)} {c c' : Nat × α}
    (hnodup : (live.map Prod.fst).Nodup) (hc : c ∈ live) (hc' : c' ∈ live.erase c) : c'.1 ≠ c.1 := by
  have hperm := (List.perm_cons_erase hc).map Prod.fst
  rw [hperm.nodup_iff, List.map_cons, List.nodup_cons] at hnodup
  intro he
  exact hnodup.1 (he ▸ List.mem_map_of_mem hc')

theorem Heap.write (hh : Heap s A N size G) (hsize : Sized size)
    (hc : IsChunk s size G addr a) (hi : i < size a) (x : BitVec 8) :
    ∃ s', s.storeByte (addr + i) x = .ok s' ∧ Heap s' A N size G ∧ s'.alloc = s.alloc ∧
      s'.kPageTables = s.kPageTables := by
  obtain ⟨p, l, o, hg, rfl, hslot, hout⟩ := hc
  have hok := hh.slabs.ok p _ hg
  have hlt := hh.slab_lt hg
  have hle := hslot.le
  have hrun := hok.mapped.storeByte (i := o + i) (hh.kernel.pageAddr_mod hlt) (by omega) x
  rw [← Nat.add_assoc] at hrun
  refine ⟨_, hrun, ⟨hh.kernel.congr rfl, hh.counted, ⟨hh.slabs.mem, hh.slabs.home, ?_, hh.slabs.lists⟩⟩,
    rfl, rfl⟩
  intro q g' hg'
  by_cases hq : q = p
  · subst hq
    rw [hg] at hg'
    cases hg'
    refine ⟨⟨hok.mapped.data, hok.mapped.lt, hok.mapped.entry⟩, hok.flag, hok.size, hok.magic, hok.count,
      ?_, hok.rwlock⟩
    rw [setFrame_bytes]
    have hchunks : FreeSlots _ 4096 (size a) _ _ l := hok.chunks
    refine hchunks.congr (hsize a (hh.slabs.home q _ hg)).1 hslot hout fun j hj => ?_
    exact update_of_ne (by omega) _ _
  · have hne : s.frame q ≠ s.frame p := fun he =>
      hq (hh.kernel.frame_inj (hh.slab_lt hg') hlt he)
    exact (hh.slabs.ok q g' hg').keep rfl rfl rfl (if_neg hne) rfl

/-- The chunk size of a list: that of a size class, or `n` for a cache. -/
def chunkSize (n : Nat) : PageNode → Nat
  | .slab i => slabMin <<< i
  | _ => n

theorem sized_chunkSize (hmin : 4 ≤ n) (hmax : n ≤ 4096) : Sized (chunkSize n) := by
  rintro a (⟨i, hi, rfl⟩ | ⟨c, rfl⟩)
  · have hpow : 1 ≤ 2 ^ i ∧ 2 ^ i ≤ 2 ^ 9 :=
      ⟨Nat.one_le_two_pow, Nat.pow_le_pow_right (by decide) (Nat.le_of_lt_succ hi)⟩
    rw [chunkSize, slabMin, Nat.shiftLeft_eq]
    omega
  · exact ⟨hmin, hmax⟩

theorem slabMin_shift (i : Nat) : slabMin <<< i = 2 ^ (i + 2) := by
  rw [slabMin, Nat.shiftLeft_eq, pow_add]
  exact Nat.mul_comm _ _

/-- The size class of a request. -/
def slabIndex (size : Nat) : Nat := Nat.log2 (fixSize (max (size % 2 ^ 16) slabMin)) - 2

theorem slabIndex_spec (hmax : n % 2 ^ 16 ≤ slabMax) :
    slabIndex n < listSize ∧ fixSize (max (n % 2 ^ 16) slabMin) = slabMin <<< slabIndex n ∧
      log2 (slabMin <<< slabIndex n) = .ok (slabIndex n + 2) ∧
      n % 2 ^ 16 ≤ slabMin <<< slabIndex n := by
  have hsm : slabMax = 2 ^ 11 := rfl
  have hmin : slabMin = 4 := rfl
  obtain ⟨k, hk, hle, hleast⟩ := fixSize_spec (n := max (n % 2 ^ 16) slabMin) (by omega) (by omega)
  have hk' : k ≤ 11 := hleast 11 (by omega)
  have h2 : 2 ≤ k := by
    by_contra h
    have hpow : 2 ^ k ≤ 2 ^ 1 := Nat.pow_le_pow_right (by decide) (by omega)
    omega
  obtain ⟨i, rfl⟩ : ∃ i, k = i + 2 := ⟨k - 2, by omega⟩
  have hidx : slabIndex n = i := by
    rw [slabIndex, hk, Nat.log2_two_pow]
    rfl
  rw [hidx, slabMin_shift]
  exact ⟨by change i < 10; omega, hk, log2_two_pow (by omega), (le_max_left _ _).trans hle⟩

theorem slabAlloc_eq (hpos : n % 2 ^ 16 ≠ 0) (hmax : n % 2 ^ 16 ≤ slabMax) : s.slabAlloc n = (do
      let lock ← spinlockLock s.slabLock
      let (chunk, s') ← (s.setSlabLock lock)._slabAlloc (.slab (slabIndex n)) .fullSlab
        (slabMin <<< slabIndex n)
      .ok (chunk, s'.setSlabLock false)) := by
  obtain ⟨_, hfix, hlog, _⟩ := slabIndex_spec hmax
  rw [slabAlloc, assertk_bind, if_pos (decide_eq_true ⟨hpos, hmax⟩)]
  simp only [hfix, hlog, ok_bind, Nat.add_sub_cancel]
  rfl

section

variable (hh : Heap s A N (chunkSize n) G)
include hh

theorem Heap.slabAlloc {k : Nat} (hsize : Sized (chunkSize n))
    (hok : s.slabAlloc k = .ok (addr, s')) :
    ∃ A' N' G' p o, Heap s' A' N' (chunkSize n) G' ∧ SlabStep s s' A A' ∅ G G' ∧ addr = s'.kva p + o ∧
      Took G G' (chunkSize n) (.slab (slabIndex k)) p o ∧ k % 2 ^ 16 ≤ slabMin <<< slabIndex k := by
  have hok' := hok
  obtain ⟨_, hassert, _⟩ := bind_eq_ok hok'
  obtain ⟨hpos, hmax⟩ := of_assertk hassert
  obtain ⟨hlt, _, _, hle⟩ := slabIndex_spec hmax
  rw [slabAlloc_eq hpos hmax] at hok
  obtain ⟨lock, _, hok⟩ := bind_eq_ok hok
  obtain ⟨⟨chunk, s1⟩, hrun, hret⟩ := bind_eq_ok hok
  cases hret
  obtain ⟨A', N', G', p, o, hh', hstep, haddr, htook⟩ :=
    (hh.setSlabLock lock).alloc hsize (Or.inl ⟨_, hlt, rfl⟩) hrun
  exact ⟨A', N', G', p, o, hh'.setSlabLock false, hstep.locked, haddr, htook, hle⟩

theorem Heap.slabAlloc_total (hsize : Sized (chunkSize n))
    (hr : Ready s A) (hlock : s.alloc.lock = false) (hslab : s.slabLock = false) {k : Nat}
    (hpos : k % 2 ^ 16 ≠ 0) (hmax : k % 2 ^ 16 ≤ slabMax) :
    s.slabAlloc k = .error .outOfMemory ∨ ∃ addr s', s.slabAlloc k = .ok (addr, s') := by
  obtain ⟨hlt, _⟩ := slabIndex_spec hmax
  have hspin : spinlockLock s.slabLock = .ok true := by
    rw [hslab]
    rfl
  rw [slabAlloc_eq hpos hmax, hspin, ok_bind]
  rcases (hh.setSlabLock true).alloc_total hsize (a := .slab (slabIndex k)) (Or.inl ⟨_, hlt, rfl⟩)
    ⟨hr.top, hr.unmapped⟩ hlock with herr | ⟨addr, s', hrun⟩
  · left
    change (s.setSlabLock true)._slabAlloc _ .fullSlab (slabMin <<< slabIndex k) = _ at herr
    rw [herr]
    rfl
  · right
    change (s.setSlabLock true)._slabAlloc _ .fullSlab (slabMin <<< slabIndex k) = _ at hrun
    rw [hrun]
    exact ⟨addr, _, rfl⟩

theorem Heap.slabFree_eq (hg : G p = some ⟨.slab i, l⟩)
    (ho : o < 4096) : s.slabFree (s.kva p + o) = (do
      let lock ← spinlockLock s.slabLock
      let s' ← (s.setSlabLock lock)._slabFree (s.kva p + o) (.slab i)
      .ok (s'.setSlabLock false)) := by
  have hslab := hh.slabs.ok p _ hg
  have hi : i < listSize := by
    rcases hh.slabs.home p _ hg with ⟨j, hj, he⟩ | ⟨c, he⟩
    · cases he
      exact hj
    · cases he
  have hlog : log2 (s.slabs p).size = .ok (i + 2) := by
    rw [hslab.size, chunkSize, slabMin_shift]
    change i < 10 at hi
    exact log2_two_pow (by omega)
  rw [slabFree, hh.kernel.slabPage (hh.slabs.mem p _ hg) hslab.mapped hslab.flag ho]
  simp only [ok_bind, hlog]
  rfl

theorem Heap.slabFree (hsize : Sized (chunkSize n))
    (hg : G p = some ⟨.slab i, l⟩) (ho : IsSlot 4096 (chunkSize n (.slab i)) o) (hout : o ∉ l) :
    s.slabLock = true ∧ s.slabFree (s.kva p + o) = .error .spin ∨
      ∃ s' N', s.slabFree (s.kva p + o) = .ok s' ∧
        Heap s' A N' (chunkSize n) (update G p (some ⟨.slab i, o :: l⟩)) ∧
        SlabStep s s' A A {p} G (update G p (some ⟨.slab i, o :: l⟩)) := by
  rw [hh.slabFree_eq hg (ho.lt (hsize _ (hh.slabs.home p _ hg)).1)]
  cases hlock : s.slabLock with
  | true => exact Or.inl ⟨rfl, rfl⟩
  | false =>
    right
    obtain ⟨s', N', hrun, hh', hstep⟩ := (hh.setSlabLock true).give hsize hg ho hout
    refine ⟨s'.setSlabLock false, N', ?_, hh'.setSlabLock false, hstep.locked⟩
    change (do
      let s' ← (s.setSlabLock true)._slabFree (s.kva p + o) (.slab i)
      .ok (s'.setSlabLock false)) = Except.ok (s'.setSlabLock false)
    rw [show s.kva p = (s.setSlabLock true).kva p from rfl, hrun]
    rfl

end

end Vm

end QuarkOS
