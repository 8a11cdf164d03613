import QuarkOS.Mm.SlabSpec

/-!
# The slab allocator

A slab is a page cut into chunks of one size. Its free chunks are linked through their first words, and
the page itself is in the list of the slabs with free chunks or in the list of the full ones. `Slabs`
relates the state to a map from pages to slabs: the offsets of the free chunks of each, and the list it
belongs to. Taking a chunk, giving one back and adding a slab each update one place of that map.
-/

namespace QuarkOS

open CList Dyadic BuddyAllocator FreeList Function

/-- The list a slab is in as long as it has free chunks, and the offsets of its free chunks. -/
structure Slab where
  home : PageNode
  free : List Nat

def Slab.list (g : Slab) : PageNode := if g.free = [] then Vm.fullOf g.home else g.home

namespace Vm

variable {s s' : Vm} {A A' B B' : Set Block} {N N' : PageNode → List PageNode} {p o n : Nat}
  {l : List Nat} {a f : PageNode} {g : Slab} {size : PageNode → Nat} {G : Nat → Option Slab}

/-- The page `p` is a slab with chunks of `n` bytes of which those at the offsets `l` are free. -/
structure SlabOk (s : Vm) (p n : Nat) (l : List Nat) : Prop where
  mapped : KMapped s p
  flag : isSlab (s.alloc.pages p) = true
  size : (s.slabs p).size = n
  magic : (s.slabs p).magic = slabMagic
  count : (s.slabs p).nAllocated + l.length = 4096 / n
  chunks : FreeSlots (s.kva p) 4096 n (s.bytes p) (s.slabs p).chunk l
  rwlock : (s.alloc.pages p).rwlock.writelock = false

theorem kva_pos (s : Vm) (p : Nat) : 0 < s.kva p := by
  have hks : kernelStart = 0xc0000000 := rfl
  rw [kva]
  omega

theorem SlabOk.chunk_lt (h : SlabOk s p n l) : (s.slabs p).chunk < 2 ^ 32 := by
  cases l with
  | nil =>
    rw [h.chunks.threaded]
    decide
  | cons o l =>
    have hle := (h.chunks.slot o List.mem_cons_self).le
    rw [h.chunks.threaded.1]
    exact kva_add_lt h.mapped (by omega)

theorem SlabOk.keep (h : SlabOk s p n l) (haddr : s'.alloc.addr = s.alloc.addr)
    (hpage : s'.alloc.pages p = s.alloc.pages p)
    (hentry : s'.kPageTables (s.frame p) = s.kPageTables (s.frame p))
    (hmem : s'.mem (s.frame p) = s.mem (s.frame p)) (hslab : s'.slabs p = s.slabs p) :
    SlabOk s' p n l := by
  have hpa : s'.alloc.pageAddr p = s.alloc.pageAddr p := by rw [pageAddr, pageAddr, haddr]
  have hkva : s'.kva p = s.kva p := by rw [kva, kva, hpa]
  have hframe : s'.frame p = s.frame p := by rw [frame, frame, hpa]
  have hbytes : s'.bytes p = s.bytes p := by rw [bytes, bytes, hframe, hmem]
  refine ⟨⟨?_, ?_, ?_⟩, ?_, ?_, ?_, ?_, ?_, ?_⟩
  · rw [hpage, hkva]
    exact h.mapped.data
  · rw [hpa]
    exact h.mapped.lt
  · rw [hframe, hentry]
    exact h.mapped.entry
  · rw [hpage]
    exact h.flag
  · rw [hslab]
    exact h.size
  · rw [hslab]
    exact h.magic
  · rw [hslab]
    exact h.count
  · rw [hkva, hbytes, hslab]
    exact h.chunks
  · rw [hpage]
    exact h.rwlock

theorem SlabOk.load (h : SlabOk s p n (o :: l)) (hmod : s.alloc.pageAddr p % 4096 = 0) (hn : 4 ≤ n) :
    s.load (s.slabs p).chunk = .ok (BitVec.ofNat 32 (Bytes.load (s.bytes p) o 4)) := by
  have hle := (h.chunks.slot o List.mem_cons_self).le
  rw [h.chunks.threaded.1]
  exact h.mapped.loadWord hmod (by omega)

theorem toNat_word (b : Bytes.Area) (o : Nat) :
    (BitVec.ofNat 32 (Bytes.load b o 4)).toNat = Bytes.load b o 4 := by
  rw [BitVec.toNat_ofNat]
  exact Nat.mod_eq_of_lt (Bytes.load_lt b o 4)

theorem SlabOk.next_eq_zero (h : SlabOk s p n (o :: l)) :
    BitVec.ofNat 32 (Bytes.load (s.bytes p) o 4) = 0 ↔ l = [] := by
  obtain ⟨_, hrest, _⟩ := h.chunks.pop
  have hword := toNat_word (s.bytes p) o
  rw [← hrest.eq_zero_iff (kva_pos s p)]
  constructor
  · intro he
    rw [he] at hword
    exact hword.symm
  · intro he
    rw [he]
    rfl

theorem slabTook_slabs (s : Vm) (p q : Nat) (f : PageNode) (next : BitVec 32) :
    (s.slabTook p f next).slabs q = if q = p then { s.slabs p with
      nAllocated := ((s.slabs p).nAllocated + 1) % 2 ^ 16, chunk := next.toNat } else s.slabs q := rfl

theorem slabGave_slabs (s : Vm) (p q o : Nat) (a : PageNode) :
    (s.slabGave p a o).slabs q = if q = p then { s.slabs p with
      nAllocated := (s.slabs p).nAllocated - 1, chunk := s.kva p + o } else s.slabs q := rfl

theorem SlabOk.took (h : SlabOk s p n (o :: l)) (hn : 4 ≤ n) :
    SlabOk (s.slabTook p f (BitVec.ofNat 32 (Bytes.load (s.bytes p) o 4))) p n l := by
  obtain ⟨_, hrest, _⟩ := h.chunks.pop
  have hcount := h.count
  have hcap : 4096 / n ≤ 1024 := Nat.div_le_div_left hn (by decide)
  rw [List.length_cons] at hcount
  refine ⟨⟨h.mapped.data, h.mapped.lt, h.mapped.entry⟩, h.flag, ?_, ?_, ?_, ?_, h.rwlock⟩ <;>
    rw [slabTook_slabs, if_pos rfl]
  · exact h.size
  · exact h.magic
  · change ((s.slabs p).nAllocated + 1) % 2 ^ 16 + l.length = 4096 / n
    rw [Nat.mod_eq_of_lt (by omega)]
    omega
  · change FreeSlots _ _ _ _ (BitVec.ofNat 32 _).toNat _
    rw [toNat_word]
    exact hrest

theorem SlabOk.gave (h : SlabOk s p n l) (hn : 4 ≤ n) (ho : IsSlot 4096 n o) (hout : o ∉ l) :
    SlabOk (s.slabGave p a o) p n (o :: l) := by
  have hlt := h.chunks.length_lt ho hout
  have hcount := h.count
  have hbytes : (s.slabGave p a o).bytes p = Bytes.store (s.bytes p) o 4 (s.slabs p).chunk :=
    setFrame_bytes (s.setAlloc (s.alloc.setLinks (givenLinks s.alloc.links p a (s.slabs p).chunk))) p _
  refine ⟨⟨h.mapped.data, h.mapped.lt, h.mapped.entry⟩, h.flag, ?_, ?_, ?_, ?_, h.rwlock⟩
  · rw [slabGave_slabs, if_pos rfl]
    exact h.size
  · rw [slabGave_slabs, if_pos rfl]
    exact h.magic
  · rw [slabGave_slabs, if_pos rfl, List.length_cons]
    change (s.slabs p).nAllocated - 1 + (l.length + 1) = 4096 / n
    omega
  · rw [slabGave_slabs, if_pos rfl, hbytes]
    exact h.chunks.push hn h.chunk_lt ho hout

/-- The slabs are those of the map `G`; a slab of the list `a` has chunks of `size a` bytes. -/
structure Slabs (s : Vm) (A : Set Block) (N : PageNode → List PageNode) (size : PageNode → Nat)
    (G : Nat → Option Slab) : Prop where
  mem : ∀ p g, G p = some g → ⟨p, 0⟩ ∈ A
  home : ∀ p g, G p = some g → g.home ∈ partHeads
  ok : ∀ p g, G p = some g → SlabOk s p (size g.home) g.free
  lists : ∀ c ∈ heads, c ∉ roots → ∀ x, x ∈ N c ↔ ∃ p g, x = .page p ∧ G p = some g ∧ g.list = c

/-- The chunk sizes that a list can have. -/
def Sized (size : PageNode → Nat) : Prop := ∀ a ∈ partHeads, 4 ≤ size a ∧ size a ≤ 4096

theorem Slab.list_mem (hg : g.home ∈ partHeads) : g.list ∈ heads ∧ g.list ∉ roots := by
  rw [Slab.list]
  split
  · exact mem_heads_of_full (fullOf_mem hg)
  · exact mem_heads_of_part hg

section

variable (hs : Slabs s A N size G)
include hs

theorem Slabs.mem_list (hg : G p = some g) {c : PageNode} (hc : c ∈ heads)
    (hroot : c ∉ roots) : .page p ∈ N c ↔ c = g.list := by
  rw [hs.lists c hc hroot]
  constructor
  · rintro ⟨q, g', he, hg', hlist⟩
    cases he
    rw [hg] at hg'
    cases hg'
    exact hlist.symm
  · rintro rfl
    exact ⟨p, g, rfl, hg, rfl⟩

theorem Slabs.lists_update (hN' : ∀ c ∈ heads, c ∉ roots → ∀ x,
      x ∈ N' c ↔ x = .page p ∧ c = g.list ∨ x ≠ .page p ∧ x ∈ N c) :
    ∀ c ∈ heads, c ∉ roots → ∀ x,
      x ∈ N' c ↔ ∃ q g', x = .page q ∧ update G p (some g) q = some g' ∧ g'.list = c := by
  intro c hc hroot x
  rw [hN' c hc hroot, hs.lists c hc hroot]
  constructor
  · rintro (⟨rfl, rfl⟩ | ⟨hx, q, g', rfl, hg', hlist⟩)
    · exact ⟨p, g, rfl, update_self p (some g) G, rfl⟩
    · refine ⟨q, g', rfl, ?_, hlist⟩
      rw [update_of_ne fun he => hx (congrArg PageNode.page he)]
      exact hg'
  · rintro ⟨q, g', rfl, hg', hlist⟩
    by_cases hq : q = p
    · subst hq
      rw [update_self] at hg'
      cases hg'
      exact Or.inl ⟨rfl, hlist.symm⟩
    · rw [update_of_ne hq] at hg'
      refine Or.inr ⟨fun he => hq (PageNode.page.inj he), q, g', rfl, hg', hlist⟩

theorem Slabs.replace (hsub : A ⊆ A') (hmem : ⟨p, 0⟩ ∈ A')
    (hhome : g.home ∈ partHeads) (hok : SlabOk s' p (size g.home) g.free)
    (hother : ∀ q g', G q = some g' → q ≠ p → SlabOk s' q (size g'.home) g'.free)
    (hN' : ∀ c ∈ heads, c ∉ roots → ∀ x, x ∈ N' c ↔ x = .page p ∧ c = g.list ∨ x ≠ .page p ∧ x ∈ N c) :
    Slabs s' A' N' size (update G p (some g)) := by
  have hcases : ∀ q g', update G p (some g) q = some g' →
      q = p ∧ g' = g ∨ q ≠ p ∧ G q = some g' := by
    intro q g' hg'
    by_cases hq : q = p
    · subst hq
      rw [update_self] at hg'
      exact Or.inl ⟨rfl, (Option.some.inj hg').symm⟩
    · rw [update_of_ne hq] at hg'
      exact Or.inr ⟨hq, hg'⟩
  refine ⟨?_, ?_, ?_, hs.lists_update hN'⟩
  · intro q g' hg'
    rcases hcases q g' hg' with ⟨rfl, rfl⟩ | ⟨_, hg'⟩
    · exact hmem
    · exact hsub (hs.mem q g' hg')
  · intro q g' hg'
    rcases hcases q g' hg' with ⟨rfl, rfl⟩ | ⟨_, hg'⟩
    · exact hhome
    · exact hs.home q g' hg'
  · intro q g' hg'
    rcases hcases q g' hg' with ⟨rfl, rfl⟩ | ⟨hq, hg'⟩
    · exact hok
    · exact hother q g' hg' hq

theorem Slabs.stays {g' : Slab} (hg : G p = some g) (hlist : g'.list = g.list) :
    ∀ c ∈ heads, c ∉ roots → ∀ x,
      x ∈ N c ↔ x = .page p ∧ c = g'.list ∨ x ≠ .page p ∧ x ∈ N c := by
  intro c hc hroot x
  by_cases hx : x = .page p
  · subst hx
    rw [hs.mem_list hg hc hroot, hlist]
    tauto
  · tauto

theorem Slabs.moves (hk : Kernel s A N) (hg : G p = some g) (f : PageNode) :
    ∀ c ∈ heads, c ∉ roots → ∀ x,
      x ∈ moved N (.page p) g.list f c ↔ x = .page p ∧ c = f ∨ x ≠ .page p ∧ x ∈ N c := by
  intro c hc hroot x
  obtain ⟨hlist, hlistroot⟩ := Slab.list_mem (hs.home p g hg)
  exact hk.owns.mem_moved hlist hlistroot ((hs.mem_list hg hlist hlistroot).2 rfl) hc hroot

theorem Slabs.take (hk : Kernel s A N) (hsize : Sized size)
    (ha : a ∈ partHeads) (hne : N a ≠ []) (n : Nat) :
    ∃ p o l s', G p = some ⟨a, o :: l⟩ ∧ s._slabAlloc a (fullOf a) n = .ok (s.kva p + o, s') ∧
      Grows s s' A A ∅ ∧ s'.alloc.pages = s.alloc.pages ∧ s'.alloc.lock = s.alloc.lock ∧
      s'.kPageTables = s.kPageTables ∧ s'.slabLock = s.slabLock ∧
      ∃ N', Kernel s' A N' ∧ Slabs s' A N' size (update G p (some ⟨a, l⟩)) := by
  obtain ⟨haheads, haroot⟩ := mem_heads_of_part ha
  obtain ⟨hfheads, hfroot⟩ := mem_heads_of_full (fullOf_mem ha)
  obtain ⟨x, rest, hNa⟩ := List.exists_cons_of_ne_nil hne
  have hx : x ∈ N a := hNa ▸ List.mem_cons_self
  obtain ⟨p, g, rfl, hg, hlist⟩ := (hs.lists a haheads haroot x).1 hx
  -- The slab is in the list of those with free chunks, so it has one.
  obtain ⟨o, l, rfl⟩ : ∃ o l, g = ⟨a, o :: l⟩ := by
    obtain ⟨home, free⟩ := g
    cases free with
    | nil => exact absurd hlist (part_ne_full ha (fullOf_mem (hs.home p _ hg))).symm
    | cons o l =>
      cases hlist
      exact ⟨o, l, rfl⟩
  have hok := hs.ok p _ hg
  have hn := (hsize a ha).1
  have hlt := hk.owns.start_lt (hs.mem p _ hg)
  have hchunk : (s.slabs p).chunk = s.kva p + o := hok.chunks.threaded.1
  have hrun := slabTake_eq (f := fullOf a) (c := n) hk haheads haroot hNa hok.rwlock
    (by rw [hchunk]; have := kva_pos s p; omega) (hok.load (hk.pageAddr_mod hlt) hn)
  have hkt := hk.slabTook haheads haroot hfheads hfroot hx
    (BitVec.ofNat 32 (Bytes.load (s.bytes p) o 4))
  rw [hchunk] at hrun
  refine ⟨p, o, l, _, hg, hrun, slabTook_grows _ _ _ _ _, rfl, rfl, rfl, rfl, _, hkt, ?_⟩
  refine hs.replace subset_rfl (hs.mem p _ hg) ha (hok.took hn) ?_ ?_
  · intro q g' hg' hq
    exact (hs.ok q g' hg').keep rfl rfl rfl rfl (if_neg hq)
  · rw [tookLists]
    by_cases hl : l = []
    · rw [if_pos (hok.next_eq_zero.2 hl)]
      have hfull : (⟨a, l⟩ : Slab).list = fullOf a := if_pos hl
      rw [hfull]
      exact hs.moves hk hg (fullOf a)
    · rw [if_neg fun h => hl (hok.next_eq_zero.1 h)]
      refine hs.stays hg ?_
      rw [Slab.list, if_neg hl]
      rfl

theorem Slabs.give (hk : Kernel s A N) (hsize : Sized size)
    (hg : G p = some ⟨a, l⟩) (ho : IsSlot 4096 (size a) o) (hout : o ∉ l) :
    ∃ s' N', s._slabFree (s.kva p + o) a = .ok s' ∧ Kernel s' A N' ∧
      Slabs s' A N' size (update G p (some ⟨a, o :: l⟩)) ∧ Grows s s' A A {p} ∧
      s'.alloc.pages = s.alloc.pages ∧ s'.kPageTables = s.kPageTables := by
  have ha := hs.home p _ hg
  obtain ⟨haheads, haroot⟩ := mem_heads_of_part ha
  obtain ⟨hfheads, hfroot⟩ := mem_heads_of_full (fullOf_mem ha)
  have hok := hs.ok p _ hg
  obtain ⟨hn, hn'⟩ := hsize a ha
  have hb := hs.mem p _ hg
  have hpos : 0 < (s.slabs p).nAllocated := by
    have hlt : l.length < 4096 / size a := hok.chunks.length_lt ho hout
    have hcount : _ + l.length = 4096 / size a := hok.count
    omega
  have hle := ho.le
  have hrun := _slabFree_eq (a := a) hk hb hok.mapped hok.flag hok.magic hpos hok.chunk_lt
    (o := o) (by omega)
  have hzero := hok.chunks.eq_zero_iff (kva_pos s p)
  have hpfull : (s.slabs p).chunk = 0 → .page p ∈ N (fullOf a) := by
    intro h
    rw [hs.mem_list hg hfheads hfroot, Slab.list, if_pos (hzero.1 h)]
  have hgrows : Grows s (s.slabGave p a o) A A {p} := by
    refine ⟨subset_rfl, rfl, rfl, fun _ _ _ _ => rfl, fun _ _ _ _ => rfl, ?_, rfl, rfl⟩
    intro b hbA q hq hqp
    exact if_neg fun he => hqp (hk.frame_inj (hk.owns.lt_of_mem hbA hq) (hk.owns.start_lt hb) he)
  refine ⟨_, _, hrun, hk.slabGave haheads haroot hfheads hfroot hpfull, ?_, hgrows, rfl, rfl⟩
  refine hs.replace subset_rfl hb ha (hok.gave hn ho hout) ?_ ?_
  · intro q g' hg' hq
    have hne : s.frame q ≠ s.frame p := fun he =>
      hq (hk.frame_inj (hk.owns.start_lt (hs.mem q g' hg')) (hk.owns.start_lt hb) he)
    exact (hs.ok q g' hg').keep rfl rfl rfl (if_neg hne) (if_neg hq)
  · rw [gaveLists]
    have hhome : (⟨a, o :: l⟩ : Slab).list = a := if_neg (List.cons_ne_nil o l)
    by_cases hl : l = []
    · rw [if_pos (hzero.2 hl), hhome]
      have hlist : (⟨a, l⟩ : Slab).list = fullOf a := if_pos hl
      have hmoves := hs.moves hk hg a
      rwa [hlist] at hmoves
    · rw [if_neg fun h => hl (hzero.1 h)]
      refine hs.stays hg ?_
      rw [hhome, Slab.list, if_neg hl]

end

theorem isSlab_of_or {q : Page} (h : q.flag = q.flag ||| pgSlab) : isSlab q = true := by
  rw [isSlab, decide_eq_true_eq]
  intro hzero
  have hbit := congrArg (fun x => BitVec.getLsbD x 5) hzero
  rw [h] at hbit
  simp [pgSlab] at hbit

theorem Slabs.grows_ok (hs : Slabs s A N size G) (hg : G p = some g) {b : Block} (hgrows : Grows s s' B B' ∅)
    (hb : b ∈ B) (hp : p ∈ b) (hslab : s'.slabs p = s.slabs p) : SlabOk s' p (size g.home) g.free :=
  (hs.ok p g hg).keep hgrows.addr (hgrows.page b hb p hp) (hgrows.entry b hb p hp)
    (hgrows.mem b hb p hp (Set.notMem_empty p)) hslab

theorem Slabs.add (hs : Slabs s A N size G) (hsize : Sized size) (ha : a ∈ partHeads)
    (hnew : NewSlab s s' A N a (size a) p) :
    Slabs s' (insert ⟨p, 0⟩ A) (update N a (.page p :: N a)) size
      (update G p (some ⟨a, slotRun (size a) (4096 / size a) 0⟩)) := by
  obtain ⟨hn, hn'⟩ := hsize a ha
  have hcap : 1 ≤ 4096 / size a := (Nat.one_le_div_iff (by omega)).2 hn'
  have hslab : s'.slabs p = { chunk := s'.kva p, size := size a, nAllocated := 0, magic := slabMagic } := by
    rw [hnew.slabs, update_self]
  have hfresh : ∀ q g, G q = some g → q ≠ p := by
    rintro q g hg rfl
    exact hnew.fresh.notMem _ (hs.mem q g hg) (Block.start_mem _)
  refine hs.replace (Set.subset_insert _ _) (Or.inl rfl) ha ⟨hnew.mapped, isSlab_of_or hnew.flag, ?_, ?_, ?_,
    ?_, ?_⟩ ?_ ?_
  · rw [hslab]
  · rw [hslab]
  · rw [hslab, length_slotRun, Nat.zero_add]
  · have hthread := freeSlots_thread (b := s.bytes p) (n := pageSize / size a - 1) hn
      (Nat.sub_add_cancel hcap) (kva_add_lt hnew.mapped le_rfl)
    rw [← hnew.bytes, Nat.sub_add_cancel (show 1 ≤ pageSize / size a from hcap)] at hthread
    rw [hslab]
    exact hthread
  · rw [hnew.fresh.rwlock]
    rfl
  · intro q g' hg' hq
    refine hs.grows_ok hg' hnew.grows (hs.mem q g' hg') (Block.start_mem _) ?_
    rw [hnew.slabs, update_of_ne hq]
  · intro c hc hroot x
    have hout : .page p ∉ N c := by
      intro h
      obtain ⟨q, g, he, hg, _⟩ := (hs.lists c hc hroot _).1 h
      exact hfresh q g hg (PageNode.page.inj he).symm
    have hlist : (⟨a, slotRun (size a) (4096 / size a) 0⟩ : Slab).list = a := by
      refine if_neg fun hnil => ?_
      have hlen := length_slotRun (size a) (4096 / size a) 0
      change slotRun _ _ _ = [] at hnil
      rw [hnil, List.length_nil] at hlen
      omega
    rw [hlist]
    by_cases hca : c = a
    · subst hca
      rw [update_self, List.mem_cons]
      refine ⟨?_, ?_⟩
      · rintro (rfl | hx)
        · exact Or.inl ⟨rfl, rfl⟩
        · exact Or.inr ⟨fun he => hout (he ▸ hx), hx⟩
      · rintro (⟨hx, _⟩ | ⟨_, hx⟩)
        · exact Or.inl hx
        · exact Or.inr hx
    · rw [update_of_ne hca]
      refine ⟨fun hx => Or.inr ⟨fun he => hout (he ▸ hx), hx⟩, ?_⟩
      rintro (⟨_, hc'⟩ | ⟨_, hx⟩)
      · exact absurd hc' hca
      · exact hx

end Vm

end QuarkOS
