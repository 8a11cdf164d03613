import QuarkOS.Mm.Fork

/-!
# Write faults after a fork

A run is a sequence of write faults of the parent and of the child that `task_cow` handles. `Cow` holds
all along: the entries of the pages that the fork shared keep their flags, and a page that was mapped
at the fork never goes back to the allocator.
-/

namespace QuarkOS

open CList Dyadic BuddyAllocator Function

namespace Vm

variable {s s' s0 : Vm} {A : Set Block} {N : PageNode → List PageNode} {d src : Dir}
  {va : Nat} {l : List Nat} {D : Bool → Dir} {h : Bool → Nat → Option Nat}

theorem Kernel.start_of_head {i : Nat} {b : Block} (hk : Kernel s A N) (hb : b ∈ A) (hi : i ∈ b)
    (hhead : pageHead (s.alloc.pages i) = true) : i = b.start := by
  obtain ⟨T, F, L, hinv, _, rfl, _⟩ := hk.owns
  obtain ⟨c, hc, rfl⟩ := (hinv.head_iff i (hk.owns.lt_of_mem hb hi)).1 hhead
  rw [hinv.tiling.eq_of_mem c hc b hb.1 _ c.start_mem hi]

/-- The page structure after a reference other than the last was dropped: the write lock stays. -/
def dropRef (s : Vm) (page : Nat) : Vm :=
  s.modifyPage page fun p =>
    { p with rwlock := { (s.alloc.pages page).rwlock with writelock := true }, refCnt := p.refCnt - 1 }

theorem Kernel.free_ok {b : Block} (hk : Kernel s A N)
    (hpos : ∀ c ∈ A, 0 < (s.alloc.pages c.start).refCnt) (hb : b ∈ A)
    (hok : s._freePage b.start = .ok s') :
    (s.alloc.pages b.start).rwlock.writelock = false ∧
      (1 < (s.alloc.pages b.start).refCnt ∧ s' = s.dropRef b.start ∨
        (s.alloc.pages b.start).refCnt = 1 ∧ (¬ Listed N b.start → Kernel s' (A \ {b}) N ∧
          FreeFrame s.alloc s'.alloc A b ∧ s' = s.setAlloc s'.alloc)) := by
  have hhead := hk.owns.head hb
  have href := hpos b hb
  obtain ⟨a, hfree, hret⟩ := bind_eq_ok hok
  cases hret
  have hwl : (s.alloc.pages b.start).rwlock.writelock = false := by
    rw [_freePage_eq href hhead] at hfree
    rw [Bool.eq_false_iff]
    intro hheld
    rw [hheld, if_pos rfl] at hfree
    cases hfree
  refine ⟨hwl, ?_⟩
  by_cases hone : 1 < (s.alloc.pages b.start).refCnt
  · left
    rw [_freePage_eq href hhead, hwl, if_neg Bool.false_ne_true, if_pos hone] at hfree
    cases hfree
    exact ⟨hone, rfl⟩
  · right
    have href' : (s.alloc.pages b.start).refCnt = 1 := by omega
    refine ⟨href', fun hlist => ?_⟩
    have hlock : s.alloc.lock = false := by
      rw [Bool.eq_false_iff]
      intro hheld
      rw [_freePage_eq href hhead, hwl, if_neg Bool.false_ne_true, if_neg hone,
        releaseBlock_spin (k := b.order)] at hfree
      · cases hfree
      · rw [BuddyAllocator.modifyPage_pages, if_pos rfl]
        exact hk.owns.size hb
      · exact hk.owns.order_le hb
      · exact hheld
    obtain ⟨a', hrun, hk', hframe⟩ := hk.free hpos hb hlist hlock hwl href'
    rw [Vm._freePage, hfree] at hrun
    cases hrun
    exact ⟨hk', hframe, rfl⟩

variable {p t q : Nat} {s1 : Vm} {r : Int} {e : Pte} {mm new : MmStruct}

theorem remapCopy {s2 s3 : Vm} (hk : Kernel s A N) (halloc : s._allocPage pageSize = .ok (p, s1))
    (hmap : s1.kvmMap p (vmPres ||| vmKrw) = .ok s2)
    (hcopy : s2.copyPage (s2.alloc.pages p).data va = .ok s3) (hunmap : s3.kvmUnmap p = .ok s') :
    Kernel s' (insert ⟨p, 0⟩ A) N ∧ Fresh s s' A p ∧ Keeps s s' A ∅ ∧
      ∀ b ∈ A, ∀ q ∈ b, s'.alloc.pages q = s.alloc.pages q := by
  obtain ⟨hk2, hm2, hg2, hf2, _, _⟩ := allocMap_spec hk halloc hmap
  have hb : (⟨p, 0⟩ : Block) ∈ insert ⟨p, 0⟩ A := Or.inl rfl
  rw [hm2.data] at hcopy
  obtain ⟨hk3, hm3, halloc3, hkeeps3⟩ := copyPage_keeps hk2 hb hm2 hcopy
  rw [kvmUnmap_spec hk3 hb hm3] at hunmap
  cases hunmap
  have hsub : A ⊆ insert ⟨p, 0⟩ A \ {⟨p, 0⟩} := by
    intro b hbA
    refine ⟨Or.inr hbA, ?_⟩
    rintro rfl
    exact hf2.notMem _ hbA (Block.start_mem _)
  have hkeeps := hkeeps3.trans (hk3.setEntry_keeps (e := vmNpres) hb (Block.start_mem _))
  refine ⟨hk3.congr rfl, hf2.congr halloc3, hg2.keeps.trans (hkeeps.mono hsub subset_rfl), ?_⟩
  intro b hbA q hq
  rw [setEntry_alloc, halloc3]
  exact hg2.page b hbA q hq

/-- The entry for the new page. -/
def remapped (s : Vm) (e : Pte) (p : Nat) : Pte := e &&& 0xfff ||| BitVec.ofNat 32 (s.alloc.pageAddr p)

theorem vmRemapPage_absent (hk : Kernel s A N) (hd : Space s A d) (hva : va < kernelStart)
    (habs : d.pte s (vpn va) &&& vmPres = 0)
    (hok : s.vmRemapPage va (s.kva d.dir) = .ok (r, s')) : r = -1 := by
  obtain ⟨⟨ptr, s1⟩, hiter, hok⟩ := bind_eq_ok hok
  obtain ⟨t, hk1, hd1, _, rfl, hpte, _⟩ := hd.iter_new hk hva hiter
  have ht : (d.addTable (pdeIndex va) t).table (pdeIndex va) = some t := by
    rw [Dir.addTable_table, if_pos rfl]
  simp only [hd1.load_pte hk1 ht, ok_bind, hpte, habs, if_true] at hok
  cases hok
  rfl

theorem vmRemapPage_present (hk : Kernel s A N) (hd : Space s A d)
    (ht : d.table (pdeIndex va) = some t) (hpres : d.pte s (vpn va) &&& vmPres ≠ 0)
    (hok : s.vmRemapPage va (s.kva d.dir) = .ok (r, s')) :
    r = 0 ∧ ∃ old p s1, s.alloc.getPage (pageCeil (d.pte s (vpn va)).toNat) = .ok (some old) ∧
      s1._freePage old = .ok s' ∧ Kernel s1 (insert ⟨p, 0⟩ A) N ∧ Fresh s s1 A p ∧
      Space s1 (insert ⟨p, 0⟩ A) d ∧ Keeps s s1 A {t} ∧
      (∀ b ∈ A, ∀ q ∈ b, s1.alloc.pages q = s.alloc.pages q) ∧
      ∀ v, d.pte s1 v = if v = vpn va then s.remapped (d.pte s (vpn va)) p else d.pte s v := by
  rw [vmRemapPage, hd.iter_some hk ht] at hok
  simp only [ok_bind, hd.load_pte hk ht, hpres, if_false] at hok
  obtain ⟨page, hget, hok⟩ := bind_eq_ok hok
  cases page with
  | none => cases hok
  | some old =>
    simp only [bind_ok_iff, Prod.exists] at hok
    obtain ⟨p, s1, halloc, s2, hmap, s3, hcopy, s4, hunmap, e, he, s5, hstore, s6, hfree, hret⟩ := hok
    cases hret
    obtain ⟨hk4, hf4, hkeeps4, hpages4⟩ := remapCopy hk halloc hmap hcopy hunmap
    obtain ⟨hd4, hpte4⟩ := hd.keeps hkeeps4 hd.mem
      (fun q hq => Set.mem_insert_of_mem (⟨p, 0⟩ : Block) (hd.mem q hq)) fun _ _ h => h
    rw [← hkeeps4.kva] at he hstore
    rw [hd4.load_pte hk4 ht, hpte4] at he
    obtain rfl := Except.ok.inj he
    obtain ⟨s5', hst, hk5, hd5, hg5, hpte5, halloc5⟩ := hd4.store_pte hk4 ht
    rw [hst] at hstore
    cases hstore
    refine ⟨rfl, old, p, s5, hget, hfree, hk5, hf4.congr halloc5, hd5, ?_, ?_, ?_⟩
    · exact (hkeeps4.mono subset_rfl (Set.empty_subset _)).trans
        (hg5.keeps.mono (Set.subset_insert _ _) subset_rfl)
    · intro b hb q hq
      rw [halloc5]
      exact hpages4 b hb q hq
    · intro v
      rw [hpte5, hpte4]
      simp only [remapped, hkeeps4.pageAddr]

/-- The entry that parent and child had for the page number `v` right after the fork. -/
def forked (s0 : Vm) (src : Dir) (v : Nat) : Pte := demote (src.pte s0 v)

/-- A state after a fork at `s0` and any number of handled faults. The directories `D` are those of the
parent and of the child, `l` are the pages they shared, and `h` knows the pages that faults have put
in their place. -/
structure Cow (s0 : Vm) (src : Dir) (l : List Nat) (D : Bool → Dir) (s : Vm) (A : Set Block)
    (N : PageNode → List PageNode) (h : Bool → Nat → Option Nat) : Prop where
  kernel : Kernel s A N
  base : SameBase s0 s
  space : ∀ i, Space s A (D i)
  apart : ∀ i j p, p ∈ (D i).pages → p ∈ (D j).pages → i = j
  pos : ∀ b ∈ A, 0 < (s.alloc.pages b.start).refCnt
  flags : ∀ i, ∀ v ∈ l.map vpn, (D i).pte s v &&& 0xfff = forked s0 src v &&& 0xfff
  rest : ∀ i v, v ∉ l.map vpn → (D i).pte s v &&& vmPres = 0 ∨ UserWritable ((D i).pte s v)
  addr : ∀ i, ∀ v ∈ l.map vpn, h i v = none →
    pageCeil ((D i).pte s v).toNat = pageCeil (forked s0 src v).toNat
  own : ∀ i v p, h i v = some p → pageCeil ((D i).pte s v).toNat = s0.alloc.pageAddr p ∧
    ⟨p, 0⟩ ∈ A ∧ ¬ Listed N p ∧ ∀ j, p ∉ (D j).pages
  inj : ∀ i j v w p, h i v = some p → h j w = some p → i = j ∧ v = w
  orig : ∀ v ∈ l.map vpn, pageCeil (forked s0 src v).toNat < s0.alloc.addr ∨
    ∃ b ∈ A, ∃ q ∈ b, pageCeil (forked s0 src v).toNat = s0.alloc.pageAddr q ∧
      (q = b.start → 2 ≤ (s.alloc.pages q).refCnt ∨
        1 ≤ (s.alloc.pages q).refCnt ∧ (s.alloc.pages q).rwlock.writelock = true) ∧
      ∀ i w p, h i w = some p → p ∉ b

theorem remapped_flags (hmod : s.alloc.pageAddr p % 4096 = 0) (hlt : s.alloc.pageAddr p < 2 ^ 32) :
    s.remapped e p &&& 0xfff = e &&& 0xfff ∧ pageCeil (s.remapped e p).toNat = s.alloc.pageAddr p := by
  have hflag : (e &&& 0xfff).toNat < 4096 := by
    rw [BitVec.toNat_and]
    exact Nat.and_lt_two_pow _ (n := 12) (by decide)
  have hcomm : s.remapped e p = BitVec.ofNat 32 (s.alloc.pageAddr p) ||| (e &&& 0xfff) :=
    BitVec.or_comm _ _
  refine ⟨?_, ?_⟩
  · apply BitVec.eq_of_toNat_eq
    rw [hcomm, BitVec.toNat_and, entry_toNat hmod hlt hflag, show (0xfff : BitVec 32).toNat = 2 ^ 12 - 1
      from rfl, Nat.and_two_pow_sub_one_eq_mod, Nat.add_mod, hmod]
    omega
  · rw [hcomm]
    exact pageCeil_entry hmod hlt hflag

section

variable (hc : Cow s0 src l D s A N h)
include hc

theorem Cow.enter {i : Bool}
    (hv : vpn va ∈ l.map vpn) (ht : (D i).table (pdeIndex va) = some t)
    (hk : Kernel s' (insert ⟨p, 0⟩ A) N) (hf : Fresh s s' A p) (hd : Space s' (insert ⟨p, 0⟩ A) (D i))
    (hkeeps : Keeps s s' A {t}) (hpages : ∀ b ∈ A, ∀ q ∈ b, s'.alloc.pages q = s.alloc.pages q)
    (hpte : ∀ v, (D i).pte s' v =
      if v = vpn va then s.remapped ((D i).pte s (vpn va)) p else (D i).pte s v) :
    Cow s0 src l D s' (insert ⟨p, 0⟩ A) N
      (update h i (update (h i) (vpn va) (some p))) := by
  have hlt : p < s.alloc.pageCnt := hf.lt
  obtain ⟨hflags, haddr⟩ := remapped_flags (e := (D i).pte s (vpn va)) (hc.kernel.pageAddr_mod hlt)
    (hc.kernel.pageAddr_lt hlt)
  have haddr0 := hc.base.pageAddr
  have hout : ∀ q, (⟨q, 0⟩ : Block) ∈ A → q ≠ p := by
    rintro q hq rfl
    exact hf.notMem _ hq (Block.start_mem _)
  -- The other address space is not touched.
  have hother : ∀ j, j ≠ i → Space s' (insert ⟨p, 0⟩ A) (D j) ∧ ∀ v, (D j).pte s' v = (D j).pte s v := by
    intro j hj
    refine (hc.space j).keeps hkeeps (hc.space j).mem
      (fun q hq => Set.mem_insert_of_mem _ ((hc.space j).mem q hq)) ?_
    rintro q hq rfl
    exact hj (hc.apart j i q hq (Space.table_mem_pages ht))
  have hcase : ∀ {j v q}, update h i (update (h i) (vpn va) (some p)) j v = some q →
      j = i ∧ v = vpn va ∧ q = p ∨ (j ≠ i ∨ v ≠ vpn va) ∧ h j v = some q := by
    intro j v q hq
    by_cases hj : j = i
    · subst hj
      rw [update_self] at hq
      by_cases hvv : v = vpn va
      · rw [hvv, update_self] at hq
        exact Or.inl ⟨rfl, hvv, (Option.some.inj hq).symm⟩
      · rw [update_of_ne hvv] at hq
        exact Or.inr ⟨Or.inr hvv, hq⟩
    · rw [update_of_ne hj] at hq
      exact Or.inr ⟨Or.inl hj, hq⟩
  have hold : ∀ j v, j ≠ i ∨ v ≠ vpn va → (D j).pte s' v = (D j).pte s v := by
    intro j v hne
    by_cases hj : j = i
    · subst hj
      rw [hpte, if_neg (hne.resolve_left fun h => h rfl)]
    · exact (hother j hj).2 v
  have hpd : ∀ j, p ∉ (D j).pages := fun j hj => hout p ((hc.space j).mem p hj) rfl
  have hlist : ¬ Listed N p := by
    rintro ⟨a, ha, hroot, hmem⟩
    obtain ⟨b, hb, hstart⟩ := hc.kernel.owns.exists_of_mem ha hroot hmem
    exact hf.notMem b hb (hstart ▸ b.start_mem)
  have hnew : ∀ j v q, h j v = some q → q ≠ p := fun j v q hq => hout q (hc.own j v q hq).2.1
  refine ⟨hk, hc.base.trans hkeeps.sameBase, ?_, hc.apart, ?_, ?_, ?_, ?_, ?_, ?_, ?_⟩
  · intro j
    by_cases hj : j = i
    · rw [hj]
      exact hd
    · exact (hother j hj).1
  · rintro b (rfl | hb)
    · exact hf.refCnt.symm ▸ Nat.one_pos
    · rw [hpages b hb _ b.start_mem]
      exact hc.pos b hb
  · intro j v hvl
    by_cases hjv : j = i ∧ v = vpn va
    · obtain ⟨rfl, rfl⟩ := hjv
      rw [hpte, if_pos rfl, hflags]
      exact hc.flags j _ hvl
    · rw [hold j v (not_and_or.1 hjv)]
      exact hc.flags j v hvl
  · intro j v hvl
    rw [hold j v (Or.inr fun he => hvl (he ▸ hv))]
    exact hc.rest j v hvl
  · intro j v hvl hnone
    have hjv : j ≠ i ∨ v ≠ vpn va := by
      by_contra hne
      obtain ⟨rfl, rfl⟩ := not_or.1 hne |>.imp not_not.1 not_not.1
      rw [update_self, update_self] at hnone
      cases hnone
    rw [hold j v hjv]
    refine hc.addr j v hvl ?_
    by_cases hj : j = i
    · subst hj
      rwa [update_self, update_of_ne (hjv.resolve_left fun h => h rfl)] at hnone
    · rwa [update_of_ne hj] at hnone
  · intro j v q hq
    rcases hcase hq with ⟨rfl, rfl, rfl⟩ | ⟨hne, hq⟩
    · rw [hpte, if_pos rfl, haddr]
      exact ⟨haddr0 q, Or.inl rfl, hlist, hpd⟩
    · rw [hold j v hne]
      obtain ⟨ha, hb, hl, hp⟩ := hc.own j v q hq
      exact ⟨ha, Or.inr hb, hl, hp⟩
  · intro j j' v v' q hq hq'
    rcases hcase hq with ⟨rfl, rfl, rfl⟩ | ⟨_, hw⟩
    · rcases hcase hq' with ⟨rfl, rfl, _⟩ | ⟨_, hw'⟩
      · exact ⟨rfl, rfl⟩
      · exact absurd rfl (hnew _ _ _ hw')
    · rcases hcase hq' with ⟨_, _, rfl⟩ | ⟨_, hw'⟩
      · exact absurd rfl (hnew _ _ _ hw)
      · exact hc.inj j j' v v' q hw hw'
  · intro v hvl
    refine (hc.orig v hvl).imp_right ?_
    rintro ⟨b, hb, q, hq, ha, href, hno⟩
    refine ⟨b, Or.inr hb, q, hq, ha, ?_, ?_⟩
    · rw [hpages b hb q hq]
      exact href
    · intro j w q' hq'
      rcases hcase hq' with ⟨_, _, rfl⟩ | ⟨_, hq'⟩
      · exact hf.notMem b hb
      · exact hno j w q' hq'

theorem Cow.drop (hq : 1 < (s.alloc.pages q).refCnt) :
    Cow s0 src l D (s.dropRef q) A N h := by
  have hself : (s.dropRef q).alloc.pages q = { s.alloc.pages q with
      rwlock := { (s.alloc.pages q).rwlock with writelock := true }
      refCnt := (s.alloc.pages q).refCnt - 1 } := if_pos rfl
  have hother : ∀ i, i ≠ q → (s.dropRef q).alloc.pages i = s.alloc.pages i := fun i hi => if_neg hi
  have hkeeps : Keeps s (s.dropRef q) A ∅ := by
    refine ⟨rfl, rfl, fun b _ i _ => ?_, fun _ _ _ _ => rfl, fun _ _ _ _ _ => rfl⟩
    by_cases hi : i = q
    · rw [hi, hself]
    · rw [hother i hi]
  have hspace := fun i => (hc.space i).keeps hkeeps (hc.space i).mem (hc.space i).mem fun _ _ h => h
  refine ⟨hc.kernel.modifyPage rfl rfl rfl, hc.base.trans hkeeps.sameBase, fun i => (hspace i).1, hc.apart,
    ?_, ?_, ?_, ?_, ?_, hc.inj, ?_⟩
  · intro b hb
    by_cases hbq : b.start = q
    · rw [hbq, hself]
      exact Nat.sub_pos_of_lt hq
    · rw [hother _ hbq]
      exact hc.pos b hb
  · intro i v hv
    rw [(hspace i).2]
    exact hc.flags i v hv
  · intro i v hv
    rw [(hspace i).2]
    exact hc.rest i v hv
  · intro i v hv hnone
    rw [(hspace i).2]
    exact hc.addr i v hv hnone
  · intro i v p hp
    rw [(hspace i).2]
    exact hc.own i v p hp
  · intro v hv
    refine (hc.orig v hv).imp_right ?_
    rintro ⟨b, hb, p, hp, ha, href, hno⟩
    refine ⟨b, hb, p, hp, ha, fun hstart => ?_, hno⟩
    by_cases hpq : p = q
    · rw [hpq, hself]
      exact Or.inr ⟨Nat.sub_pos_of_lt hq, rfl⟩
    · rw [hother p hpq]
      exact href hstart

theorem Cow.release {a : BuddyAllocator}
    (hk : Kernel (s.setAlloc a) (A \ {⟨q, 0⟩}) N) (hframe : FreeFrame s.alloc a A ⟨q, 0⟩)
    (hqd : ∀ j, q ∉ (D j).pages) (hqh : ∀ j w, h j w ≠ some q)
    (hqo : ∀ v ∈ l.map vpn, pageCeil (forked s0 src v).toNat ≠ s0.alloc.pageAddr q) :
    Cow s0 src l D (s.setAlloc a) (A \ {⟨q, 0⟩}) N h := by
  have hkeeps := FreeFrame.keeps hframe
  have hpages : ∀ i, ∀ p ∈ (D i).pages, (⟨p, 0⟩ : Block) ∈ A \ {⟨q, 0⟩} := by
    intro i p hp
    refine ⟨(hc.space i).mem p hp, ?_⟩
    rintro ⟨⟩
    exact hqd i hp
  have hspace := fun i => (hc.space i).keeps hkeeps (hpages i) (hpages i) fun _ _ h => h
  refine ⟨hk, hc.base.trans hkeeps.sameBase, fun i => (hspace i).1, hc.apart, ?_, ?_, ?_, ?_, ?_, hc.inj,
    ?_⟩
  · rintro b ⟨hb, hne⟩
    rw [setAlloc_alloc, hframe.pages b hb hne _ b.start_mem]
    exact hc.pos b hb
  · intro i v hv
    rw [(hspace i).2]
    exact hc.flags i v hv
  · intro i v hv
    rw [(hspace i).2]
    exact hc.rest i v hv
  · intro i v hv hnone
    rw [(hspace i).2]
    exact hc.addr i v hv hnone
  · intro i v p hp
    rw [(hspace i).2]
    obtain ⟨ha, hb, hl, hpd⟩ := hc.own i v p hp
    refine ⟨ha, ⟨hb, ?_⟩, hl, hpd⟩
    rintro ⟨⟩
    exact hqh i v hp
  · intro v hv
    refine (hc.orig v hv).imp_right ?_
    rintro ⟨b, hb, p, hp, ha, href, hno⟩
    have hne : b ≠ ⟨q, 0⟩ := by
      rintro rfl
      rw [Block.mem_page.1 hp] at ha
      exact hqo v hv ha
    refine ⟨b, ⟨hb, hne⟩, p, hp, ha, ?_, hno⟩
    rw [setAlloc_alloc, hframe.pages b hb hne p hp]
    exact href

theorem Cow.remap {i : Bool}
    (hv : vpn va ∈ l.map vpn) (ht : (D i).table (pdeIndex va) = some t)
    (hpres : (D i).pte s (vpn va) &&& vmPres ≠ 0)
    (hok : s.vmRemapPage va (s.kva (D i).dir) = .ok (r, s')) :
    r = 0 ∧ ∃ A' h', Cow s0 src l D s' A' N h' := by
  have hk := hc.kernel
  obtain ⟨hr, old, p, s1, hget, hfree, hk1, hf, hd, hkeeps, hpages, hpte⟩ :=
    vmRemapPage_present hk (hc.space i) ht hpres hok
  have hc1 := hc.enter hv ht hk1 hf hd hkeeps hpages hpte
  refine ⟨hr, ?_⟩
  have haddr0 := hc.base.pageAddr
  have hold : ∀ q < s.alloc.pageCnt,
      pageCeil ((D i).pte s (vpn va)).toNat = s0.alloc.pageAddr q → old = q := by
    intro q hq he
    rw [he, ← haddr0, hk.getPage hq] at hget
    exact (Option.some.inj (Except.ok.inj hget)).symm
  have hhead : ∀ b ∈ A, old ∈ b → old = b.start := by
    intro b hb hmem
    have hhead : pageHead (s1.alloc.pages old) = true := by
      obtain ⟨a, hfree', _⟩ := bind_eq_ok hfree
      obtain ⟨_, _, hfree'⟩ := bind_eq_ok hfree'
      obtain ⟨_, hassert, _⟩ := bind_eq_ok hfree'
      exact assertk_eq_ok hassert
    exact hk1.start_of_head (Or.inr hb) hmem hhead
  cases hown : h i (vpn va) with
  | none =>
    -- The page was mapped at the fork: it has more references, or its lock is held.
    rw [hc.addr i _ hv hown] at hget hold
    rcases hc.orig _ hv with hlow | ⟨b, hb, q, hq, ha, href, _⟩
    · rw [BuddyAllocator.getPage, if_neg (by rw [pageCeil_mod]; decide), hc.base.addr, if_pos hlow] at hget
      cases hget
    · have hqlt : q < s.alloc.pageCnt := hk.owns.lt_of_mem hb hq
      obtain rfl := hold q hqlt ha
      obtain rfl := hhead b hb hq
      obtain ⟨hwl, hfreed⟩ := hk1.free_ok hc1.pos (Or.inr hb) hfree
      rw [hpages b hb _ hq] at hwl hfreed
      rcases href rfl with htwo | ⟨_, hheld⟩
      · rcases hfreed with ⟨hone, rfl⟩ | ⟨hone, _⟩
        · refine ⟨_, _, hc1.drop ?_⟩
          rw [hpages b hb _ hq]
          exact hone
        · omega
      · rw [hwl] at hheld
        cases hheld
  | some q =>
    -- The page was put there by an earlier fault.
    obtain ⟨ha, hb, hlist, hqd⟩ := hc.own i _ q hown
    have hqlt : q < s.alloc.pageCnt := hk.owns.start_lt hb
    obtain rfl := hold q hqlt ha
    obtain ⟨_, hfreed⟩ := hk1.free_ok (b := ⟨old, 0⟩) hc1.pos (Or.inr hb) hfree
    rcases hfreed with ⟨hone, rfl⟩ | ⟨_, hfreed⟩
    · exact ⟨_, _, hc1.drop hone⟩
    · obtain ⟨hk', hframe, hs'⟩ := hfreed hlist
      rw [hs'] at hk' ⊢
      refine ⟨_, _, hc1.release hk' hframe hqd ?_ ?_⟩
      · intro j w hjw
        have hne : old ≠ p := by
          rintro rfl
          exact hf.notMem _ hb (Block.start_mem _)
        by_cases hj : j = i
        · subst hj
          rw [update_self] at hjw
          by_cases hw : w = vpn va
          · rw [hw, update_self] at hjw
            exact hne (Option.some.inj hjw).symm
          · rw [update_of_ne hw] at hjw
            exact hw (hc.inj j j w (vpn va) old hjw hown).2
        · rw [update_of_ne hj] at hjw
          exact hj (hc.inj j i w (vpn va) old hjw hown).1
      · intro v hvl he
        rcases hc.orig v hvl with hlow | ⟨b, hbA, q, hq, haq, _, hno⟩
        · rw [he, ← haddr0, hk.pageAddr_eq hqlt, hc.base.addr] at hlow
          omega
        · rw [he, ← haddr0, ← haddr0, hk.pageAddr_eq hqlt, hk.pageAddr_eq (hk.owns.lt_of_mem hbA hq)] at haq
          obtain rfl : old = q := by omega
          exact hno i _ old hown hq

end

/-- The address spaces of the parent and of the child. -/
def spaces (mm new : MmStruct) : Bool → MmStruct
  | true => mm
  | false => new

/-- A page fault of a task with the address space `mm`. -/
def pageFault (s : Vm) (mm : MmStruct) (addr : Nat) : Except Fault (Int × Vm) := do
  let s ← s.switchUvm mm.pgdir
  s.taskCow (some mm) addr

/-- The states after write faults of parent and child that were all handled; a task with an unhandled
fault does not go on. -/
inductive Faults (mm new : MmStruct) (s1 : Vm) : Vm → Prop
  | start : Faults mm new s1 s1
  | fault {s s' : Vm} {i : Bool} {addr : Nat} (hrun : Faults mm new s1 s) (haddr : addr < kernelStart)
      (hro : ¬ UserWritable (s.userPte (spaces mm new i).pgdir (pageCeil addr)))
      (hok : s.pageFault (spaces mm new i) addr = .ok (0, s')) : Faults mm new s1 s'

/-- An address space that can be forked without running out of references. Whatever it maps besides the
pages that are shared, it can write to. -/
structure Isolable (s : Vm) (A : Set Block) (N : PageNode → List PageNode) (d : Dir) (mm : MmStruct) :
    Prop extends Forkable s A N d mm where
  pos : ∀ b ∈ A, 0 < (s.alloc.pages b.start).refCnt
  room : ∀ b ∈ A, ∀ q ∈ b, (s.alloc.pages q).refCnt + (forkPages mm).countP (fun va =>
    pageCeil (d.pte s (vpn va)).toNat = s.alloc.pageAddr q) < 2 ^ 16
  rest : ∀ v, v ∉ (forkPages mm).map vpn → d.pte s v &&& vmPres = 0 ∨ UserWritable (d.pte s v)

theorem Cow.setCr3 {cr3 : Nat} (hc : Cow s0 src l D s A N h) : Cow s0 src l D { s with cr3 } A N h := by
  have hkeeps : Keeps s { s with cr3 } A ∅ :=
    ⟨rfl, rfl, fun _ _ _ _ => rfl, fun _ _ _ _ => rfl, fun _ _ _ _ _ => rfl⟩
  have hspace := fun i => (hc.space i).keeps hkeeps (hc.space i).mem (hc.space i).mem fun _ _ h => h
  exact ⟨hc.kernel.congr rfl, hc.base.trans hkeeps.sameBase, fun i => (hspace i).1, hc.apart, hc.pos,
    hc.flags, hc.rest, hc.addr, hc.own, hc.inj, hc.orig⟩

theorem mapCount_le (hf : Forkable s A N d mm) (hq : q < s.alloc.pageCnt) :
    mapCount s d (forkPages mm) q ≤ (forkPages mm).countP fun va =>
      pageCeil (d.pte s (vpn va)).toNat = s.alloc.pageAddr q := by
  apply List.countP_mono_left
  intro va _ he
  rw [decide_eq_true_iff] at he ⊢
  rw [sharedAddr] at he
  by_cases hurw : d.pte s (vpn va) &&& vmUrw = vmUrw
  · have hpos := hf.kernel.pos
    rw [pageCeil_demote hurw, hf.kernel.pageAddr_eq hq] at he
    omega
  · rwa [demote_of_ne hurw] at he

theorem Copied.cow {A' : Set Block} {N' : PageNode → List PageNode} {dst : Dir}
    {g : Nat → Pte} (hf : Isolable s A N d mm) (hc : Copied s A d s' A' N' dst g (forkPages mm))
    (hg : ∀ v, g v = 0 ∨ UserWritable (g v)) :
    Cow s d (forkPages mm) (fun i => if i then d else dst) s' A' N' (fun _ _ => none) := by
  have href : ∀ b ∈ A, ∀ q ∈ b, (s'.alloc.pages q).refCnt =
      (s.alloc.pages q).refCnt + mapCount s d (forkPages mm) q := by
    intro b hb q hq
    have hle := mapCount_le hf.toForkable (hf.kernel.owns.lt_of_mem hb hq)
    have hroom := hf.room b hb q hq
    rw [hc.refCnt b hb q hq, Nat.mod_eq_of_lt (by omega)]
  have hpte : ∀ i : Bool, ∀ v ∈ (forkPages mm).map vpn,
      (if i then d else dst : Dir).pte s' v = forked s d v := by
    intro i v hv
    cases i with
    | true => exact (hc.pte_parent v).trans (if_pos hv)
    | false => exact (hc.pte_child v).trans (if_pos hv)
  refine ⟨hc.kernel, hc.base, ?_, ?_, ?_, ?_, ?_, ?_, ?_, ?_, ?_⟩
  · intro i
    cases i with
    | true => exact hc.parent
    | false => exact hc.child
  · intro i j p hi hj
    cases i with
    | true =>
      cases j with
      | true => rfl
      | false => exact absurd hj (hc.apart p hi)
    | false =>
      cases j with
      | true => exact absurd hi (hc.apart p hj)
      | false => rfl
  · intro b hb
    by_cases hbA : b ∈ A
    · rw [href b hbA _ b.start_mem]
      exact Nat.add_pos_left (hf.pos b hbA) _
    · exact hc.pos b hb hbA
  · intro i v hv
    rw [hpte i v hv]
  · intro i v hv
    cases i with
    | true =>
      have he : d.pte s' v = d.pte s v := (hc.pte_parent v).trans (if_neg hv)
      exact he.symm ▸ hf.rest v hv
    | false =>
      have he : dst.pte s' v = g v := (hc.pte_child v).trans (if_neg hv)
      refine (hg v).imp (fun hzero => ?_) fun hw => ?_
      · exact (he.trans hzero).symm ▸ by decide
      · exact he.symm ▸ hw
  · intro i v hv _
    rw [hpte i v hv]
  · exact fun i v p hp => absurd hp.symm (Option.some_ne_none p)
  · exact fun i j v w p hp => absurd hp.symm (Option.some_ne_none p)
  · intro v hv
    obtain ⟨va, hva, rfl⟩ := List.mem_map.1 hv
    by_cases hurw : d.pte s (vpn va) &&& vmUrw = vmUrw
    · left
      rw [forked, pageCeil_demote hurw]
      exact hf.kernel.pos
    · rw [forked, demote_of_ne hurw]
      refine (hf.owned va hva).imp_right ?_
      rintro ⟨b, hb, q, hq, ha⟩
      refine ⟨b, hc.sub hb, q, hq, ha, fun hstart => Or.inl ?_, fun i w p hp => ?_⟩
      · have hone : 0 < mapCount s d (forkPages mm) q := by
          rw [mapCount, List.countP_pos_iff]
          refine ⟨va, hva, ?_⟩
          rw [decide_eq_true_iff, sharedAddr, demote_of_ne hurw, ha]
        have hpos := hf.pos b hb
        rw [← hstart] at hpos
        rw [href b hb q hq]
        omega
      · cases hp

/-- The handler of a fault works on the page of the address with the directory of the task. -/
theorem Cow.fault {i : Bool} {addr : Nat} (hc : Cow s0 src l D s A N h)
    (hpgdir : mm.pgdir = s0.kva (D i).dir) (hok : s.pageFault mm addr = .ok (r, s')) :
    ∃ s1, s.switchUvm mm.pgdir = .ok s1 ∧ Cow s0 src l D s1 A N h ∧ (∀ j, (D j).pte s1 = (D j).pte s) ∧
      s1.vmRemapPage (pageCeil addr) (s1.kva (D i).dir) = .ok (r, s') := by
  obtain ⟨s1, hswitch, hok⟩ := bind_eq_ok hok
  have hswitch' := hswitch
  obtain ⟨cr3, _, hret⟩ := bind_eq_ok hswitch'
  cases hret
  refine ⟨_, hswitch, hc.setCr3, fun j => rfl, ?_⟩
  rw [taskCow, hpgdir, ← hc.base.kva] at hok
  exact hok

theorem Cow.userPte {i : Bool} (hc : Cow s0 src l D s A N h)
    (hpgdir : mm.pgdir = s0.kva (D i).dir) (hva : va < kernelStart) :
    s.userPte mm.pgdir va = (D i).pte s (vpn va) := by
  rw [hpgdir, ← hc.base.kva]
  exact (hc.space i).userPte hc.kernel hva

theorem Space.table_of_present (hd : d.pte s (vpn va) &&& vmPres ≠ 0) :
    ∃ t, d.table (pdeIndex va) = some t := by
  rw [pdeIndex_eq]
  cases ht : d.table (vpn va / 1024) with
  | none =>
    rw [Dir.pte_none ht] at hd
    exact absurd (by decide) hd
  | some t => exact ⟨t, rfl⟩

theorem Faults.cow (hf : Isolable s0 A N d mm)
    (hfork : s0.vmStructCopy mm = .ok (new, s1)) (hrun : Faults mm new s1 s) :
    ∃ A' N' D h, Cow s0 d (forkPages mm) D s A' N' h ∧
      ∀ i, (spaces mm new i).pgdir = s0.kva (D i).dir := by
  obtain ⟨A1, N1, dst, g, hcopied, hnew, hold, hg⟩ := vmStructCopy_spec hf.toForkable hfork
  have hpgdir : ∀ i : Bool, (spaces mm new i).pgdir = s0.kva (if i then d else dst : Dir).dir := by
    intro i
    cases i with
    | true => exact hold.trans (hcopied.base.kva _)
    | false => exact hnew.trans (hcopied.base.kva _)
  suffices hinv : ∃ A' h, Cow s0 d (forkPages mm) (fun i => if i then d else dst) s A' N1 h by
    obtain ⟨A', h, hc⟩ := hinv
    exact ⟨A', N1, _, h, hc, hpgdir⟩
  induction hrun with
  | start => exact ⟨A1, _, Copied.cow hf hcopied hg⟩
  | @fault s s' i addr _ haddr hro hok ih =>
    obtain ⟨A', h, hc⟩ := ih
    obtain ⟨s2, _, hc2, hpte, hremap⟩ := hc.fault (hpgdir i) hok
    have hva : pageCeil addr < kernelStart := (pageCeil_le addr).trans_lt haddr
    -- Only a page that is present is handled.
    have hpres : (if i then d else dst : Dir).pte s2 (vpn (pageCeil addr)) &&& vmPres ≠ 0 := by
      intro habs
      have hr := vmRemapPage_absent hc2.kernel (hc2.space i) hva habs hremap
      exact absurd hr (by decide)
    obtain ⟨t, ht⟩ := Space.table_of_present hpres
    have hshared : vpn (pageCeil addr) ∈ (forkPages mm).map vpn := by
      by_contra hout
      rw [hc.userPte (hpgdir i) hva] at hro
      rcases hc2.rest i _ hout with habs | hw
      · exact hpres habs
      · exact hro (hpte i ▸ hw)
    exact (hc2.remap hshared ht hpres hremap).2

/-- The fault at `va` has given the address space at `pgdir` a page of its own, and has not touched the
one at `other`. -/
structure CopiedOnWrite (s s' : Vm) (pgdir other va : Nat) : Prop where
  writable : UserWritable (s'.userPte pgdir va)
  own : ∃ p < s'.alloc.pageCnt, pageCeil (s'.userPte pgdir va).toNat = s'.alloc.pageAddr p ∧
    (s'.alloc.pages p).refCnt = 1 ∧ pageCeil (s'.userPte other va).toNat ≠ s'.alloc.pageAddr p
  contents : s'.mem ((s'.userPte pgdir va).toNat >>> 12) = s.mem ((s.userPte pgdir va).toNat >>> 12)
  other_entry : s'.userPte other va = s.userPte other va
  other_contents :
    s'.mem ((s.userPte other va).toNat >>> 12) = s.mem ((s.userPte other va).toNat >>> 12)
  refCnt : ∀ q < s.alloc.pageCnt, pageCeil (s.userPte pgdir va).toNat = s.alloc.pageAddr q →
    (s'.alloc.pages q).refCnt + 1 = (s.alloc.pages q).refCnt

/-- What a fault on a page that was shared at the fork in the state `s0` is to do in the state `s`. -/
def CowContract (s0 s : Vm) (mm new : MmStruct) (i : Bool) (addr : Nat) : Prop :=
  if s0.userPte mm.pgdir (pageCeil addr) &&& vmKrw ≠ 0 then
    ∃ s', s.pageFault (spaces mm new i) addr = .ok (0, s') ∧
      CopiedOnWrite s s' (spaces mm new i).pgdir (spaces mm new !i).pgdir (pageCeil addr)
  else
    ∃ r s', s.pageFault (spaces mm new i) addr = .ok (r, s') ∧ r < 0 ∧
      s.switchUvm (spaces mm new i).pgdir = .ok s'

theorem and_flags {e' : Pte} (h : e &&& 0xfff = e' &&& 0xfff) {m : Pte} (hm : 0xfff &&& m = m) :
    e &&& m = e' &&& m := by
  rw [← hm, ← BitVec.and_assoc, h, BitVec.and_assoc]

theorem UserWritable.and_vmUrw (h : UserWritable e) : e &&& vmUrw = vmUrw := by
  have hmask : (vmPres ||| vmUrw) &&& vmUrw = vmUrw := by decide
  rw [← hmask, ← BitVec.and_assoc, h]

/-- At no point of a run does a fault on a page that the fork has shared do what it is to do. -/
theorem cowContract_iff {mm new : MmStruct} {s1 : Vm} {i : Bool} {addr : Nat}
    (hf : ∃ A N d, Isolable s0 A N d mm) (hfork : s0.vmStructCopy mm = .ok (new, s1))
    (hrun : Faults mm new s1 s) (haddr : addr < kernelStart) :
    (vpn addr ∈ (forkPages mm).map vpn → CowContract s0 s mm new i addr) ↔
      vpn addr ∉ (forkPages mm).map vpn := by
  obtain ⟨A, N, d, hf⟩ := hf
  obtain ⟨A', N', D, h, hc, hpgdir⟩ := hrun.cow hf hfork
  have hva : pageCeil addr < kernelStart := (pageCeil_le addr).trans_lt haddr
  refine ⟨fun hcontract hshared => ?_, fun hout hshared => absurd hshared hout⟩
  have hcontract := hcontract hshared
  rw [← vpn_pageCeil] at hshared
  obtain ⟨va, hvaMem, hvaEq⟩ := List.mem_map.1 hshared
  have hpres0 := hf.present va hvaMem
  rw [hvaEq] at hpres0
  have hpte0 : s0.userPte mm.pgdir (pageCeil addr) = d.pte s0 (vpn (pageCeil addr)) := by
    rw [hf.pgdir]
    exact hf.space.userPte hf.kernel hva
  rw [CowContract, hpte0] at hcontract
  split at hcontract
  · -- The page was writable: the fork took it away, or left it to the kernel alone.
    obtain ⟨s', hok, hcow⟩ := hcontract
    obtain ⟨s2, _, hc2, _, hremap⟩ := hc.fault (hpgdir i) hok
    have hflags := hc2.flags i _ hshared
    have hpres : (D i).pte s2 (vpn (pageCeil addr)) &&& vmPres ≠ 0 := by
      intro habs
      exact absurd (vmRemapPage_absent hc2.kernel (hc2.space i) hva habs hremap) (by decide)
    have hne : d.pte s0 (vpn (pageCeil addr)) &&& vmUrw ≠ vmUrw := by
      intro hurw
      apply hpres
      rw [and_flags hflags (by decide), and_pres_eq_zero, forked, demote, if_pos hurw]
      simp [vmIgnoreBit1]
    obtain ⟨t, ht⟩ := Space.table_of_present hpres
    obtain ⟨_, A3, h3, hc3⟩ := hc2.remap hshared ht hpres hremap
    have hw := hcow.writable
    have hflags3 := hc3.flags i _ hshared
    rw [hc3.userPte (hpgdir i) hva] at hw
    rw [forked, demote_of_ne hne] at hflags3
    apply hne
    rw [← and_flags hflags3 (by decide)]
    exact hw.and_vmUrw
  · -- The page was read-only and is still present, so the fault is not refused.
    rename_i hro
    obtain ⟨r, s', hok, hneg, _⟩ := hcontract
    obtain ⟨s2, _, hc2, _, hremap⟩ := hc.fault (hpgdir i) hok
    have hpres : (D i).pte s2 (vpn (pageCeil addr)) &&& vmPres ≠ 0 := by
      rw [and_flags (hc2.flags i _ hshared) (by decide), forked, demote_readonly (not_not.1 hro)]
      exact hpres0
    obtain ⟨t, ht⟩ := Space.table_of_present hpres
    obtain ⟨hr, _⟩ := hc2.remap hshared ht hpres hremap
    omega

theorem Loaded.isolable {A0 : Set Block} {f : Nat → Option Nat}
    (hl : Loaded s A0 N mm d f) (hroomy : Roomy s mm) (hsize : pageSize ≤ mm.stack.size)
    (htop : mm.stack.va + mm.stack.size ≤ kernelStart) : ∃ A, Isolable s A N d mm := by
  obtain ⟨href, hrest⟩ := hroomy
  obtain ⟨X, hlive⟩ := hl.live
  refine ⟨withPages A0 X, hl.forkable hlive hsize htop ?_, hlive.taken.counted.pos, ?_, ?_⟩
  · intro q hq
    have := href q hq
    omega
  · intro b hb q hq
    have hle := (forkPages mm).countP_le_length (p := fun va =>
      decide (pageCeil (d.pte s (vpn va)).toNat = s.alloc.pageAddr q))
    have := href q (hlive.taken.kernel.owns.lt_of_mem hb hq)
    omega
  · intro v hv
    cases hfv : f v with
    | none =>
      left
      rw [hlive.pte_none v hfv]
      decide
    | some q =>
      right
      obtain ⟨va, hva, rfl⟩ := List.mem_map.1 (hl.all v (by rw [hfv]; exact Option.some_ne_none q))
      have hw := hrest va hva hv
      obtain ⟨t, ht⟩ := hlive.table_of_some hfv
      rwa [hl.userPte (lt_of_pdeIndex (hlive.space.user _ t ht))] at hw

theorem smallFork_isolable {write : Bool}
    (hok : smallFork write = .ok ((mm, s), new, s')) : ∃ A N d, Isolable s A N d mm := by
  obtain ⟨_, ⟨A0, N, d, f, hl⟩, hroomy, hsize, htop⟩ := smallFork_loaded hok
  obtain ⟨A, hf⟩ := hl.isolable hroomy hsize htop
  exact ⟨A, N, d, hf⟩

/-- A fault of the parent on its read-only page is handled; after it the child's fault on the same page
is still not refused. -/
theorem cowContract_iff_readonly : ∃ s0 mm new s1 s, (∃ A N d, Isolable s0 A N d mm) ∧
    s0.vmStructCopy mm = .ok (new, s1) ∧ Faults mm new s1 s ∧
    s1.pageFault mm 0x1000 = .ok (0, s) ∧ ¬ CowContract s0 s mm new false 0x1000 := by
  obtain ⟨⟨⟨mm, s0⟩, new, s1⟩, hs, hrun⟩ := exists_of_passes (x := smallFork false)
    (fun ((mm, _), _, s1) => decide (vpn 0x1000 ∈ (forkPages mm).map vpn ∧
      ¬ UserWritable (s1.userPte mm.pgdir (pageCeil 0x1000)) ∧
      passes (s1.pageFault mm 0x1000) fun r => r.1 = 0)) (by decide +kernel)
  obtain ⟨hshared, hro, hfault⟩ := of_decide_eq_true hrun
  obtain ⟨⟨r, s⟩, hp, hret⟩ := exists_of_passes _ hfault
  obtain rfl : r = 0 := of_decide_eq_true hret
  have hf := smallFork_isolable hs
  have hfork := (smallFork_loaded hs).1
  have hfaults : Faults mm new s1 s := .fault (i := true) .start (by decide) hro hp
  refine ⟨s0, mm, new, s1, s, hf, hfork, hfaults, hp, fun hc => ?_⟩
  exact (cowContract_iff hf hfork hfaults (by decide)).1 (fun _ => hc) hshared

/-- A fault on a page that was writable is refused. -/
theorem writable_not_cowContract : ∃ s0 mm new s1, (∃ A N d, Isolable s0 A N d mm) ∧
    s0.vmStructCopy mm = .ok (new, s1) ∧ vpn 0x1000 ∈ (forkPages mm).map vpn ∧
    ¬ CowContract s0 s1 mm new true 0x1000 := by
  obtain ⟨⟨⟨mm, s0⟩, new, s1⟩, hs, hrun⟩ := exists_of_passes (x := smallFork true)
    (fun ((mm, s0), _, s1) => decide (vpn 0x1000 ∈ (forkPages mm).map vpn ∧
      s0.userPte mm.pgdir (pageCeil 0x1000) &&& vmKrw ≠ 0 ∧
      passes (s1.pageFault mm 0x1000) fun r => r.1 = -1)) (by decide +kernel)
  obtain ⟨hshared, hwritable, hfault⟩ := of_decide_eq_true hrun
  refine ⟨s0, mm, new, s1, smallFork_isolable hs, (smallFork_loaded hs).1, hshared, ?_⟩
  rw [CowContract, if_pos hwritable]
  rintro ⟨s', hok, _⟩
  obtain ⟨r, hp, hret⟩ := exists_of_passes _ hfault
  cases hp.symm.trans hok
  cases hret

end Vm

end QuarkOS
