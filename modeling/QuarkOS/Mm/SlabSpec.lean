import QuarkOS.Mm.VmSpec
import QuarkOS.Lib.FreeList

/-!
# What the slab allocator does to the lists

The functions of `slab.c` as updates of the state: a chunk is taken from the first slab of a list or
goes back to its slab, and a slab changes between two lists when its last chunk is taken and when its
first one comes back. Which chunks are free is not looked at here.
-/

namespace QuarkOS

open CList Dyadic BuddyAllocator Function

/-- The lists after `x` went from the list `a` to the front of the list `f`. -/
def moved (N : PageNode → List PageNode) (x a f : PageNode) : PageNode → List PageNode :=
  update (update N a ((N a).erase x)) f (x :: update N a ((N a).erase x) f)

namespace BuddyAllocator

variable {s : BuddyAllocator} {R : Set PageNode} {A : Set Block} {N : PageNode → List PageNode}
  {a c f : PageNode} {p : Nat}

section

variable (hs : Owns s R A N) (ha : a ∈ R) (haroot : a ∉ roots)
include hs ha haroot

theorem Owns.head_eq_of_mem {x : PageNode} (hc : c ∈ R) (hcroot : c ∉ roots) (hxa : x ∈ N a) (hxc : x ∈ N c) :
    a = c := by
  obtain ⟨T, F, L, hinv, _, rfl, hN⟩ := hs
  rw [← hN a haroot] at hxa
  rw [← hN c hcroot] at hxc
  exact hinv.lists.head_eq_of_mem ha hc hxa hxc

theorem Owns.move (hf : f ∈ R)
    (hfroot : f ∉ roots) (hp : .page p ∈ N a) :
    Owns (s.setLinks (listAddNext (listDel s.links (.page p)) (.page p) f)) R A
      (moved N (.page p) a f) := by
  obtain ⟨b, hb, rfl⟩ := hs.exists_of_mem ha haroot hp
  exact (hs.unlink ha haroot hp).link hf hfroot hb (hs.notMem_erase ha haroot hp)

theorem Owns.mem_moved {y : PageNode} (hp : .page p ∈ N a) (hc : c ∈ R) (hcroot : c ∉ roots) :
    y ∈ moved N (.page p) a f c ↔ y = .page p ∧ c = f ∨ y ≠ .page p ∧ y ∈ N c := by
  have hnodup := (hs.linked ha haroot).nodup
  have herase : y ∈ update N a ((N a).erase (.page p)) c ↔ y ≠ .page p ∧ y ∈ N c := by
    by_cases hca : c = a
    · subst hca
      rw [update_self, hnodup.mem_erase_iff]
    · rw [update_of_ne hca]
      refine ⟨fun hy => ⟨?_, hy⟩, And.right⟩
      rintro rfl
      exact hca (hs.head_eq_of_mem hc hcroot ha haroot hy hp)
  rw [moved]
  by_cases hcf : c = f
  · subst hcf
    rw [update_self, List.mem_cons, herase]
    tauto
  · rw [update_of_ne hcf, herase]
    tauto

end

end BuddyAllocator

namespace Vm

variable {s s' : Vm} {A : Set Block} {N : PageNode → List PageNode} {p : Nat} {a f : PageNode}

/-- The state after the first chunk of the slab `p` was taken and `next` follows it. -/
def slabTook (s : Vm) (p : Nat) (full : PageNode) (next : BitVec 32) : Vm :=
  (s.setSlab p { s.slabs p with
      nAllocated := ((s.slabs p).nAllocated + 1) % 2 ^ 16, chunk := next.toNat }).setAlloc
    (s.alloc.setLinks (takenLinks s.alloc.links p full next))

theorem modifyPage_self (s : Vm) (p : Nat) :
    (s.modifyPage p fun q => { q with rwlock := (s.alloc.pages p).rwlock }) = s := by
  have hpages : (fun j => if j = p then { s.alloc.pages j with rwlock := (s.alloc.pages p).rwlock }
      else s.alloc.pages j) = s.alloc.pages := by
    funext j
    split
    · rename_i h
      rw [h]
    · rfl
  rw [modifyPage, BuddyAllocator.modifyPage, hpages]
  rfl

theorem wlock_cancel {lk lk' : RwLock} (h : wlockLock lk = .ok lk') :
    wlockUnlock lk' = lk ∧ lk.writelock = false := by
  rw [wlockLock, spinlockLock] at h
  cases hw : lk.writelock with
  | true =>
    rw [hw] at h
    cases h
  | false =>
    rw [hw] at h
    refine ⟨?_, rfl⟩
    rw [← Except.ok.inj h, wlockUnlock, spinlockUnlock, ← hw]

theorem wlockLock_of_free {lk : RwLock} (h : lk.writelock = false) : ∃ lk', wlockLock lk = .ok lk' := by
  rw [wlockLock, h]
  exact ⟨_, rfl⟩

theorem slabTake_eq {l : List PageNode} {c : Nat} {next : BitVec 32} (hk : Kernel s A N)
    (ha : a ∈ heads) (hroot : a ∉ roots) (hl : N a = .page p :: l)
    (hwl : (s.alloc.pages p).rwlock.writelock = false) (hchunk : (s.slabs p).chunk ≠ 0)
    (hload : s.load (s.slabs p).chunk = .ok next) :
    s._slabAlloc a f c = .ok ((s.slabs p).chunk, s.slabTook p f next) := by
  have hlinked := hk.owns.linked ha hroot
  have hne : listEmpty s.alloc.links a = false := by
    rw [Bool.eq_false_iff, Ne, hlinked.listEmpty_iff, hl]
    exact List.cons_ne_nil _ _
  have hentry : pageEntry (s.alloc.links.next a) = .ok p := by
    rw [hlinked.next_head, hl]
    rfl
  obtain ⟨lk, hlk⟩ := wlockLock_of_free hwl
  simp only [_slabAlloc, hne, Bool.false_eq_true, if_false, ok_bind, hentry, hlk, Bool.not_false,
    Bool.true_and, decide_eq_true hchunk, assertk_true, hload, (wlock_cancel hlk).1]
  exact congrArg (fun x => Except.ok ((s.slabs p).chunk, x)) (modifyPage_self (s.slabTook p f next) p)

variable {addr size o : Nat}

theorem slabTake_inv (hk : Kernel s A N) (ha : a ∈ heads) (hroot : a ∉ roots)
    (hne : N a ≠ []) (hok : s._slabAlloc a f size = .ok (addr, s')) :
    ∃ p l next, N a = .page p :: l ∧ addr = (s.slabs p).chunk ∧ s.load addr = .ok next ∧
      s' = s.slabTook p f next := by
  have hlinked := hk.owns.linked ha hroot
  have hempty : listEmpty s.alloc.links a = false := by
    rw [Bool.eq_false_iff, Ne, hlinked.listEmpty_iff]
    exact hne
  have hrun := hok
  rw [_slabAlloc, hempty] at hrun
  simp only [Bool.false_eq_true, if_false, ok_bind] at hrun
  simp only [bind_ok_iff] at hrun
  obtain ⟨p, hentry, lk, hlk, _, hassert, next, hload, _⟩ := hrun
  obtain ⟨_, hchunk⟩ := Bool.and_eq_true_iff.1 (assertk_eq_ok hassert)
  -- The node behind the head is a page of the list.
  obtain ⟨l, hl⟩ : ∃ l, N a = .page p :: l := by
    rw [hlinked.next_head] at hentry
    cases hNa : N a with
    | nil => exact absurd hNa hne
    | cons x l =>
      rw [hNa] at hentry
      cases x <;> cases hentry
      exact ⟨l, rfl⟩
  rw [slabTake_eq hk ha hroot hl (wlock_cancel hlk).2 (of_decide_eq_true hchunk) hload] at hok
  cases hok
  exact ⟨p, l, next, hl, rfl, hload, rfl⟩

/-- The lists after a chunk of the slab `p` was taken. -/
def tookLists (N : PageNode → List PageNode) (p : Nat) (a f : PageNode) (next : BitVec 32) :
    PageNode → List PageNode :=
  if next = 0 then moved N (.page p) a f else N

theorem Kernel.slabTook (hk : Kernel s A N) (ha : a ∈ heads) (hroot : a ∉ roots) (hf : f ∈ heads)
    (hfroot : f ∉ roots) (hp : .page p ∈ N a) (next : BitVec 32) :
    Kernel (s.slabTook p f next) A (tookLists N p a f next) := by
  refine ⟨?_, hk.aligned, hk.pos, hk.top, hk.magic⟩
  rw [tookLists, Vm.slabTook, setAlloc_alloc, takenLinks]
  by_cases hnext : next = 0
  · rw [if_pos hnext, if_pos hnext]
    exact hk.owns.move ha hroot hf hfroot hp
  · rw [if_neg hnext, if_neg hnext]
    exact hk.owns

theorem slabTook_grows (s : Vm) (A : Set Block) (p : Nat) (f : PageNode) (next : BitVec 32) :
    Grows s (s.slabTook p f next) A A ∅ :=
  ⟨subset_rfl, rfl, rfl, fun _ _ _ _ => rfl, fun _ _ _ _ => rfl, fun _ _ _ _ _ => rfl, rfl, rfl⟩

theorem Kernel.vaGetPage {b : Block} (hk : Kernel s A N) (hb : b ∈ A) (hm : KMapped s b.start) :
    s.vaGetPage (s.kva b.start) = .ok (some b.start) := by
  have hlt := hk.owns.start_lt hb
  have hpos : s.alloc.pageAddr b.start ≠ 0 := by
    have := hk.pos
    rw [hk.pageAddr_eq hlt]
    omega
  simp only [Vm.vaGetPage, hm.v2p (hk.pageAddr_mod hlt), ok_bind, ne_eq, hpos, not_false_eq_true,
    decide_true, assertk_true, hk.getPage hlt, hk.owns.head hb, if_true]

theorem pageCeil_kva (hmod : s.alloc.pageAddr p % 4096 = 0) (ho : o < 4096) :
    pageCeil (s.kva p + o) = s.kva p := by
  have hks : kernelStart % 4096 = 0 := by decide
  rw [pageCeil, kva]
  omega

theorem Kernel.slabPage (hk : Kernel s A N) (hb : ⟨p, 0⟩ ∈ A) (hm : KMapped s p)
    (hflag : isSlab (s.alloc.pages p) = true) (ho : o < 4096) : s.slabPage (s.kva p + o) = .ok p := by
  have hget := Kernel.vaGetPage (b := ⟨p, 0⟩) hk hb hm
  rw [Vm.slabPage, pageCeil_kva (hk.pageAddr_mod (hk.owns.start_lt hb)) ho]
  simp only [hget, ok_bind, hflag, assertk_true]

/-- The state after the chunk at the offset `o` of the slab `p` came back. -/
def slabGave (s : Vm) (p : Nat) (head : PageNode) (o : Nat) : Vm :=
  ((s.setAlloc (s.alloc.setLinks (givenLinks s.alloc.links p head (s.slabs p).chunk))).setFrame (s.frame p)
    (Bytes.toWords (Bytes.store (s.bytes p) o 4 (s.slabs p).chunk))).setSlab p
      { s.slabs p with nAllocated := (s.slabs p).nAllocated - 1, chunk := s.kva p + o }

theorem _slabFree_eq (hk : Kernel s A N) (hb : ⟨p, 0⟩ ∈ A) (hm : KMapped s p)
    (hflag : isSlab (s.alloc.pages p) = true) (hmagic : (s.slabs p).magic = slabMagic)
    (hpos : 0 < (s.slabs p).nAllocated) (hchunk : (s.slabs p).chunk < 2 ^ 32) (ho : o + 4 ≤ 4096) :
    s._slabFree (s.kva p + o) a = .ok (s.slabGave p a o) := by
  have hmod := hk.pageAddr_mod (hk.owns.start_lt hb)
  have hm' : KMapped (s.setAlloc (s.alloc.setLinks
      (givenLinks s.alloc.links p a (s.slabs p).chunk))) p :=
    ⟨hm.data, hm.lt, hm.entry⟩
  have hstore := hm'.storeWord hmod ho (BitVec.ofNat 32 (s.slabs p).chunk)
  rw [BitVec.toNat_ofNat, Nat.mod_eq_of_lt hchunk] at hstore
  change Vm.store _ (s.kva p + o) _ = _ at hstore
  simp only [_slabFree, hk.slabPage hb hm hflag (by omega : o < 4096), ok_bind,
    decide_eq_true hmagic, decide_eq_true hpos, assertk_true, hstore]
  rfl

/-- The lists after a chunk came back to the slab `p`, which was in the list `f` if it had none. -/
def gaveLists (N : PageNode → List PageNode) (p : Nat) (a f : PageNode) (chunk : Nat) :
    PageNode → List PageNode :=
  if chunk = 0 then moved N (.page p) f a else N

theorem Kernel.slabGave (hk : Kernel s A N) (ha : a ∈ heads) (hroot : a ∉ roots)
    (hf : f ∈ heads) (hfroot : f ∉ roots) (hp : (s.slabs p).chunk = 0 → .page p ∈ N f) :
    Kernel (s.slabGave p a o) A (gaveLists N p a f (s.slabs p).chunk) := by
  refine ⟨?_, hk.aligned, hk.pos, hk.top, hk.magic⟩
  change (s.alloc.setLinks (givenLinks s.alloc.links p a (s.slabs p).chunk)).Owns heads A _
  rw [gaveLists, givenLinks]
  by_cases hchunk : (s.slabs p).chunk = 0
  · rw [if_pos hchunk, if_pos hchunk]
    exact hk.owns.move hf hfroot ha hroot (hp hchunk)
  · rw [if_neg hchunk, if_neg hchunk]
    exact hk.owns

theorem linkChunks_eq {c : Nat} (n : Nat) : ∀ {s : Vm} {o : Nat}, KMapped s p →
    s.alloc.pageAddr p % 4096 = 0 → o + n * c + 4 ≤ 4096 →
    linkChunks c n s (s.kva p + o) = .ok (s.setFrame (s.frame p)
      (Bytes.toWords (FreeList.thread (s.kva p) c n (s.bytes p) o))) := by
  induction n with
  | zero =>
    intro s o hm hmod ho
    rw [linkChunks, hm.storeWord hmod (by omega)]
    rfl
  | succ n ih =>
    intro s o hm hmod ho
    rw [Nat.succ_mul] at ho
    have hlt := kva_add_lt hm (o := o + c) (by omega)
    have hptr : (BitVec.ofNat 32 (s.kva p + (o + c))).toNat = s.kva p + (o + c) := by
      rw [BitVec.toNat_ofNat, Nat.mod_eq_of_lt hlt]
    rw [linkChunks, hm.storeWord hmod (by omega), ok_bind, Nat.add_assoc, hptr]
    have hrest := ih (o := o + c) (hm.setFrame (f := s.frame p) (c := Bytes.toWords
      (Bytes.store (s.bytes p) o 4 (s.kva p + (o + c))))) hmod (by omega)
    rw [setFrame_frame, setFrame_setFrame, setFrame_bytes] at hrest
    exact hrest

/-- The slab `p` is new in the list `a`. -/
structure NewSlab (s s' : Vm) (A : Set Block) (N : PageNode → List PageNode) (a : PageNode)
    (size p : Nat) : Prop where
  kernel : Kernel s' (insert ⟨p, 0⟩ A) (update N a (.page p :: N a))
  grows : Grows s s' A (insert ⟨p, 0⟩ A) ∅
  fresh : Fresh s s' A p
  mapped : KMapped s' p
  flag : (s'.alloc.pages p).flag = (s'.alloc.pages p).flag ||| pgSlab
  flag_other : ∀ i, i ≠ p →
    (s'.alloc.pages i).flag &&& clientFlags = (s.alloc.pages i).flag &&& clientFlags
  slabs : s'.slabs = update s.slabs p
    { chunk := s'.kva p, size, nAllocated := 0, magic := slabMagic }
  bytes : s'.bytes p = FreeList.thread (s'.kva p) size (pageSize / size - 1) (s.bytes p) 0
  entry_other : ∀ j, j ≠ s.frame p → s'.kPageTables j = s.kPageTables j
  slabLock : s'.slabLock = s.slabLock

section

variable (hk : Kernel s A N)
include hk

theorem Kernel.slabFlag (p : Nat) :
    Kernel (s.modifyPage p fun q => { q with flag := q.flag ||| pgSlab }) A N := by
  refine hk.modifyPage ?_ rfl rfl
  rw [pageHead_eq, pageHead_eq, BitVec.getLsbD_or]
  simp [pgSlab]

theorem addSlab_spec (ha : a ∈ heads) (hroot : a ∉ roots)
    (hsize : (pageSize / size - 1) * size + 4 ≤ 4096) (hok : s.addSlab a size = .ok s') :
    ∃ p, NewSlab s s' A N a size p := by
  obtain ⟨⟨p, s1⟩, halloc, hok⟩ := bind_eq_ok hok
  obtain ⟨s2, hmap, hok⟩ := bind_eq_ok hok
  obtain ⟨s3, hchunks, hret⟩ := bind_eq_ok hok
  cases hret
  obtain ⟨hk1, hframe, hg1, hs1⟩ := allocPage_spec hk (Nat.zero_le _) (by decide) halloc
  have hout : ∀ c ∈ A, p ∉ c := fun c hc => hframe.fresh c hc p (Block.start_mem _)
  have hlt : p < s.alloc.pageCnt := hframe.managed p (Block.start_mem _)
  have hb : (⟨p, 0⟩ : Block) ∈ insert ⟨p, 0⟩ A := Or.inl rfl
  have hkf := hk1.slabFlag p
  obtain ⟨hk2, hm⟩ := hkf.kvmMap hb mappedFlags hmap
  have hg2 := (hg1.modifyPage hout).kvmMap hk hkf hb hout hmap
  have hmod := hk2.pageAddr_mod (hk2.owns.start_lt hb)
  obtain ⟨hs2, _, _⟩ := kvmMap_spec hkf hb hmap
  have hself : s2.alloc.pages p = { s1.alloc.pages p with
      flag := (s1.alloc.pages p).flag ||| pgSlab, data := s1.kva p } := by
    rw [hs2, setEntry_alloc, modifyPage_alloc, BuddyAllocator.modifyPage_pages, if_pos rfl,
      modifyPage_alloc, BuddyAllocator.modifyPage_pages, if_pos rfl]
    rfl
  have hother : ∀ i, i ≠ p → s2.alloc.pages i = s1.alloc.pages i := by
    intro i hi
    rw [hs2, setEntry_alloc, modifyPage_alloc, BuddyAllocator.modifyPage_pages, if_neg hi,
      modifyPage_alloc, BuddyAllocator.modifyPage_pages, if_neg hi]
  have hmem2 : s2.mem = s.mem := by
    rw [hs2, hs1]
    rfl
  have hslabs2 : s2.slabs = s.slabs := by
    rw [hs2, hs1]
    rfl
  have hdata : (s2.alloc.pages p).data = s2.kva p + 0 := hm.data
  rw [hdata] at hchunks
  have hm' : KMapped (s2.setSlab p { chunk := s2.kva p, size, nAllocated := 0, magic := slabMagic }) p :=
    ⟨hm.data, hm.lt, hm.entry⟩
  have hlink := linkChunks_eq (c := size) (pageSize / size - 1) (o := 0) hm' hmod (by omega)
  rw [show s2.kva p + 0 = s2.kva p from rfl] at hchunks
  rw [show (s2.setSlab p { chunk := s2.kva p, size, nAllocated := 0, magic := slabMagic }).kva p + 0 =
    s2.kva p from rfl, hchunks] at hlink
  obtain rfl := Except.ok.inj hlink
  have hnew : ∀ c ∈ heads, c ∉ roots → .page p ∉ N c := by
    intro c hc hcroot hmem
    obtain ⟨d, hd, hstart⟩ := hk.owns.exists_of_mem hc hcroot hmem
    exact hout d hd (hstart ▸ d.start_mem)
  refine ⟨p, ⟨?_, hk2.aligned, hk2.pos, hk2.top, hk2.magic⟩, ?_, ⟨hout, hlt, ?_, ?_, ?_, ?_⟩,
    ⟨hm.data, hm.lt, hm.entry⟩, ?_, ?_, ?_, ?_, ?_, ?_⟩
  · exact hk2.owns.link ha hroot hb hnew
  · refine ⟨hg2.sub, hg2.addr, hg2.pageCnt, hg2.page, hg2.entry, ?_, hg2.pageDir, hg2.cr3⟩
    intro c hc q hq hP
    refine Eq.trans (if_neg ?_) (hg2.mem c hc q hq hP)
    intro he
    exact frame_ne_of_fresh hk hc hq hlt hout (he.trans (hg2.frame p))
  · change (s2.alloc.pages p).refCnt = 1
    rw [hself]
    exact hframe.refCnt
  · intro i hi
    change (s2.alloc.pages i).refCnt = _
    rw [hother i hi]
    exact hframe.refCnt_other i hi
  · change (s2.alloc.pages p).rwlock = _
    rw [hself]
    exact hframe.rwlock
  · change s2.alloc.lock = false
    rw [hs2]
    exact hframe.lock
  · change (s2.alloc.pages p).flag = (s2.alloc.pages p).flag ||| pgSlab
    rw [hself, BitVec.or_assoc, BitVec.or_self]
  · intro i hi
    change (s2.alloc.pages i).flag &&& _ = _
    rw [hother i hi]
    exact hframe.flag i
  · change (fun i => if i = p then _ else s2.slabs i) = _
    rw [hslabs2]
    funext i
    exact (update_apply _ _ _ _).symm
  · refine (setFrame_bytes _ p _).trans ?_
    change FreeList.thread (s2.kva p) size _ (Bytes.ofWords (s2.mem (s2.frame p))) 0 = _
    rw [hmem2, hg2.frame]
    rfl
  · intro j hj
    change s2.kPageTables j = s.kPageTables j
    rw [hs2, setEntry_kPageTables, if_neg, hs1]
    · rfl
    · rwa [show (s1.modifyPage p fun q => { q with flag := q.flag ||| pgSlab }).frame p = s1.frame p
        from rfl, hg1.frame]
  · change s2.slabLock = s.slabLock
    rw [hs2, hs1]
    rfl

theorem addSlab_total (hr : Ready s A) (hlock : s.alloc.lock = false)
    (hsize : (pageSize / size - 1) * size + 4 ≤ 4096) :
    s.addSlab a size = .error .outOfMemory ∨ ∃ s', s.addSlab a size = .ok s' := by
  rcases allocPage_total (n := pageSize) hk hlock (Nat.zero_le _) (by decide) with herr | ⟨p, s1, halloc⟩
  · rw [addSlab, herr]
    exact Or.inl rfl
  · right
    obtain ⟨hk1, hframe, _, hs1⟩ := allocPage_spec hk (Nat.zero_le _) (by decide) halloc
    have hb : (⟨p, 0⟩ : Block) ∈ insert ⟨p, 0⟩ A := Or.inl rfl
    have hkf := hk1.slabFlag p
    have htab : s1.kPageTables = s.kPageTables := by
      rw [hs1]
      rfl
    obtain ⟨s2, hmap⟩ := hr.kvmMap (f := vmPres ||| vmKrw) hkf hb hframe.addr hframe.pageCnt htab
      hframe.fresh
    obtain ⟨hk2, hm⟩ := hkf.kvmMap hb mappedFlags hmap
    have hm' : KMapped (s2.setSlab p { chunk := s2.kva p, size, nAllocated := 0, magic := slabMagic }) p :=
      ⟨hm.data, hm.lt, hm.entry⟩
    have hlink := linkChunks_eq (c := size) (pageSize / size - 1) (o := 0) hm'
      (hk2.pageAddr_mod (hk2.owns.start_lt hb)) (by omega)
    rw [Nat.add_zero] at hlink
    change linkChunks size _ _ (s2.kva p) = _ at hlink
    simp only [addSlab, halloc, ok_bind, hmap, hm.data, hlink]
    exact ⟨_, rfl⟩

theorem _slabAlloc_empty (ha : a ∈ heads) (hroot : a ∉ roots)
    (hempty : N a = []) (hsize : (pageSize / size - 1) * size + 4 ≤ 4096)
    (hok : s._slabAlloc a f size = .ok (addr, s')) :
    ∃ p s1, NewSlab s s1 A N a size p ∧ s1._slabAlloc a f size = .ok (addr, s') := by
  have hlist := ((hk.owns.linked ha hroot).listEmpty_iff).2 hempty
  have hrun := hok
  rw [_slabAlloc, hlist, if_pos rfl] at hrun
  obtain ⟨s1, hadd, _⟩ := bind_eq_ok hrun
  obtain ⟨p, hnew⟩ := addSlab_spec hk ha hroot hsize hadd
  refine ⟨p, s1, hnew, ?_⟩
  have hne : listEmpty s1.alloc.links a = false := by
    rw [Bool.eq_false_iff, Ne, (hnew.kernel.owns.linked ha hroot).listEmpty_iff, update_self]
    exact List.cons_ne_nil _ _
  rw [← hok, _slabAlloc, _slabAlloc, hlist, hne, if_pos rfl, hadd]
  rfl

theorem Listed.of_took {next : BitVec 32} {i : Nat} (ha : a ∈ heads)
    (hroot : a ∉ roots) (hp : .page p ∈ N a) (h : Listed (tookLists N p a f next) i) : Listed N i := by
  obtain ⟨c, hc, hcroot, hi⟩ := h
  rw [tookLists] at hi
  split at hi
  · rcases (hk.owns.mem_moved ha hroot hp hc hcroot).1 hi with ⟨he, _⟩ | ⟨_, hi⟩
    · exact ⟨a, ha, hroot, he ▸ hp⟩
    · exact ⟨c, hc, hcroot, hi⟩
  · exact ⟨c, hc, hcroot, hi⟩

/-- `kmalloc(sizeof(struct mm_struct))` takes a chunk of a slab, after adding one if there is none. -/
theorem kmalloc_mm_spec (hok : s.kmalloc mmStructSize = .ok (addr, s')) :
    ∃ A' N', Kernel s' A' N' ∧ Grows s s' A A' ∅ ∧
      (∀ i, Listed N' i → Listed N i ∨ ∀ c ∈ A, i ∉ c) ∧
      ∀ b ∈ A', b ∉ A → 0 < (s'.alloc.pages b.start).refCnt := by
  obtain ⟨hslab, hroot⟩ := mem_heads_of_part (a := .slab 5) (Or.inl ⟨5, by decide, rfl⟩)
  obtain ⟨hfull, hfroot⟩ := mem_heads_of_full (a := .fullSlab) (Or.inl rfl)
  have hfix : fixSize mmStructSize = 128 := by decide
  have hcond : (128 : Nat) % 2 ^ 16 ≠ 0 ∧ 128 % 2 ^ 16 ≤ slabMax := by decide
  have hfix' : fixSize (max (128 % 2 ^ 16) slabMin) = 128 := by decide
  have hlog : log2 128 = .ok 7 := rfl
  rw [kmalloc, hfix, if_pos (by decide), slabAlloc, hfix'] at hok
  simp only [hcond, and_self, ne_eq, not_false_eq_true, decide_true, assertk_true, ok_bind, hlog] at hok
  obtain ⟨lock, _, hok⟩ := bind_eq_ok hok
  obtain ⟨⟨chunk, s1⟩, hrun, hret⟩ := bind_eq_ok hok
  cases hret
  have hk0 : Kernel (s.setSlabLock lock) A N := hk.congr rfl
  have hdone : ∀ {A' N'}, Kernel s1 A' N' → Grows (s.setSlabLock lock) s1 A A' ∅ →
      Kernel (s1.setSlabLock spinlockUnlock) A' N' ∧
        Grows s (s1.setSlabLock spinlockUnlock) A A' ∅ := by
    intro A' N' hk1 hg
    exact ⟨hk1.congr rfl, hg.sub, hg.addr, hg.pageCnt, hg.page, hg.entry, hg.mem, hg.pageDir, hg.cr3⟩
  by_cases hne : N (.slab 5) = []
  · obtain ⟨p, s2, hnew, hrest⟩ := _slabAlloc_empty hk0 hslab hroot hne (by decide) hrun
    have hmem : .page p ∈ update N (.slab 5) (.page p :: N (.slab 5)) (.slab 5) := by
      rw [update_self]
      exact List.mem_cons_self
    obtain ⟨q, l, next, hl, _, _, rfl⟩ :=
      slabTake_inv hnew.kernel hslab hroot (List.ne_nil_of_mem hmem) hrest
    have hq : .page q ∈ update N (.slab 5) (.page p :: N (.slab 5)) (.slab 5) := by
      rw [hl]
      exact List.mem_cons_self
    obtain ⟨hk', hg'⟩ := hdone (hnew.kernel.slabTook hslab hroot hfull hfroot hq next)
      (hnew.grows.trans (slabTook_grows s2 _ q .fullSlab next))
    refine ⟨_, _, hk', hg', fun i hi => ?_, ?_⟩
    · obtain ⟨c, hc, hcroot, hi⟩ := Listed.of_took hnew.kernel hslab hroot hq hi
      by_cases hcs : c = .slab 5
      · subst hcs
        rw [update_self, List.mem_cons] at hi
        rcases hi with he | hi
        · cases he
          exact Or.inr hnew.fresh.notMem
        · exact Or.inl ⟨_, hc, hcroot, hi⟩
      · rw [update_of_ne hcs] at hi
        exact Or.inl ⟨c, hc, hcroot, hi⟩
    · rintro b (rfl | hb) hbA
      · change 0 < (s2.alloc.pages p).refCnt
        rw [hnew.fresh.refCnt]
        exact Nat.one_pos
      · exact absurd hb hbA
  · obtain ⟨q, l, next, hl, _, _, rfl⟩ := slabTake_inv hk0 hslab hroot hne hrun
    have hq : .page q ∈ N (.slab 5) := by
      rw [hl]
      exact List.mem_cons_self
    obtain ⟨hk', hg'⟩ := hdone (hk0.slabTook hslab hroot hfull hfroot hq next)
      (slabTook_grows _ A q .fullSlab next)
    exact ⟨A, _, hk', hg', fun i hi => Or.inl (hi.of_took hk0 hslab hroot hq),
      fun b hb hbA => absurd hb hbA⟩

end

end Vm

end QuarkOS
