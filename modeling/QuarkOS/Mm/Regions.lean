import QuarkOS.Mm.PageSetup

/-!
# Which memory the page allocator manages

The page structures of the regions follow each other in the array, but `page_addr` counts on from the
first page of the first region. So the free lists hold the memory of the regions only if every region
begins where the pages of the ones before it end: `Adjoins`. A region that ends before the first page
boundary at or behind its start is worse: the subtraction of `page_setup` wraps around.
-/

namespace QuarkOS

open CList Dyadic

namespace BlockInfo

/-- The page at `addr` lies in the region as a whole. -/
def HasPage (info : BlockInfo) (addr : Nat) : Prop :=
  addr % 4096 = 0 ∧ info.addr ≤ addr ∧ addr + 4096 ≤ info.addr + info.size

/-- The first page boundary at or behind the start of the region. -/
def firstPage (info : BlockInfo) : Nat := (info.addr + 4095) / 4096 * 4096

end BlockInfo

namespace BuddyAllocator

/-- The block is in the free list of its order. -/
def Free (s : BuddyAllocator) (b : Block) : Prop :=
  b.order ≤ maxOrder ∧ ∃ l, Linked s.links (.root b.order) l ∧ .page b.start ∈ l

/-- The free pages are the whole pages of the regions, each once, and the free blocks are aligned. -/
structure InitSound (infos : List BlockInfo) (s : BuddyAllocator) : Prop where
  inside : ∀ b, s.Free b → ∀ i ∈ b, ∃ info ∈ infos, info.HasPage (s.pageAddr i)
  distinct : ∀ b c, s.Free b → s.Free c → ∀ i ∈ b, ∀ j ∈ c, s.pageAddr i = s.pageAddr j → i = j
  covered : ∀ info ∈ infos, ∀ addr, info.HasPage addr →
    ∃! b, s.Free b ∧ ∃ i ∈ b, s.pageAddr i = addr
  aligned : ∀ b, s.Free b → 2 ^ b.order ∣ b.start

/-- Every region reaches its first page boundary; if it has a page, its first page is the one that the
page structure `page` stands for, and that number is a multiple of the block sizes that fit. -/
def Adjoins (base : Nat) : Nat → List BlockInfo → Prop
  | _, [] => True
  | page, info :: infos =>
    info.firstPage ≤ info.addr + info.size ∧
    (wholePages info ≠ 0 → info.firstPage = base + 4096 * page ∧
      ∀ k ≤ maxOrder, 2 ^ k ≤ wholePages info → 2 ^ k ∣ page) ∧
    Adjoins base (page + wholePages info) infos

variable {info : BlockInfo} {infos : List BlockInfo} {addr base page : Nat}

theorem wholePages_of_reaches (hlt : info.addr < 2 ^ 32) (hsize : info.size < 2 ^ 32)
    (hreach : info.firstPage ≤ info.addr + info.size) :
    wholePages info = (info.addr + info.size - info.firstPage) / 4096 := by
  rw [BlockInfo.firstPage] at *
  rw [wholePages, wholeSize, pageCeil, pageFloor]
  omega

theorem wholePages_of_not_reaches (hlt : info.addr < 2 ^ 32)
    (hreach : ¬ info.firstPage ≤ info.addr + info.size) : wholePages info = 2 ^ 20 - 1 := by
  rw [BlockInfo.firstPage] at *
  rw [wholePages, wholeSize, pageCeil, pageFloor]
  omega

theorem hasPage_iff {a : Nat} (hlt : info.addr < 2 ^ 32) (hsize : info.size < 2 ^ 32)
    (hreach : info.firstPage ≤ info.addr + info.size) :
    info.HasPage a ↔ ∃ j < wholePages info, a = info.firstPage + 4096 * j := by
  rw [wholePages_of_reaches hlt hsize hreach, BlockInfo.HasPage]
  rw [BlockInfo.firstPage] at *
  constructor
  · rintro ⟨hmod, hge, hle⟩
    exact ⟨(a - (info.addr + 4095) / 4096 * 4096) / 4096, by omega, by omega⟩
  · rintro ⟨j, hj, rfl⟩
    omega

theorem regionBlocks_within (ns : List Nat) : ∀ {start : Nat}, ∀ b ∈ regionBlocks start ns,
    b.order ≤ maxOrder ∧ start ≤ b.start ∧ b.start + 2 ^ b.order ≤ start + ns.sum := by
  induction ns with
  | nil => exact fun b hb => absurd hb List.not_mem_nil
  | cons n ns ih =>
    intro start b hb
    rw [List.sum_cons]
    rcases List.mem_append.1 hb with hb | hb
    · obtain ⟨hord, hge, hle⟩ := carve_within b hb
      exact ⟨Nat.lt_succ_iff.1 hord, hge, by omega⟩
    · obtain ⟨hord, hge, hle⟩ := ih b hb
      exact ⟨hord, by omega, by omega⟩

theorem regionBlocks_cover (ns : List Nat) : ∀ {start i : Nat}, start ≤ i → i < start + ns.sum →
    ∃ b ∈ regionBlocks start ns, i ∈ b := by
  induction ns with
  | nil =>
    intro start i hge hlt
    exact absurd hlt (Nat.not_lt.2 hge)
  | cons n ns ih =>
    intro start i hge hlt
    rw [List.sum_cons] at hlt
    rcases Nat.lt_or_ge i (start + n) with hin | hout
    · obtain ⟨b, hb, hi⟩ := carve_cover (Nat.succ_pos maxOrder) hge hin
      exact ⟨b, List.mem_append_left _ hb, hi⟩
    · obtain ⟨b, hb, hi⟩ := ih hout (by omega)
      exact ⟨b, List.mem_append_right _ hb, hi⟩

theorem regionBlocks_eq_of_mem (ns : List Nat) : ∀ {start i : Nat}, ∀ b ∈ regionBlocks start ns,
    ∀ c ∈ regionBlocks start ns, i ∈ b → i ∈ c → b = c := by
  induction ns with
  | nil => exact fun b hb => absurd hb List.not_mem_nil
  | cons n ns ih =>
    intro start i b hb c hc hib hic
    have hfirst : ∀ d ∈ carve (maxOrder + 1) start n, i ∈ d → i < start + n := by
      intro d hd hi
      have hle := (carve_within d hd).2.2
      have hlt := (Block.mem_def.1 hi).2
      omega
    have hrest : ∀ d ∈ regionBlocks (start + n) ns, i ∈ d → start + n ≤ i := by
      intro d hd hi
      have hge := (regionBlocks_within ns d hd).2.1
      have hle := (Block.mem_def.1 hi).1
      omega
    rcases List.mem_append.1 hb with hb | hb <;> rcases List.mem_append.1 hc with hc | hc
    · exact carve_eq_of_mem b hb c hc hib hic
    · exact absurd (hfirst b hb hib) (Nat.not_lt.2 (hrest c hc hic))
    · exact absurd (hfirst c hc hic) (Nat.not_lt.2 (hrest b hb hib))
    · exact ih b hb c hc hib hic

variable {s s' : BuddyAllocator} {b : BlockAllocator}

theorem pmmSetup_free (hok : s.pmmSetup b = .ok s') (c : Block) :
    s'.Free c ↔ c ∈ regionBlocks 0 (b.infos.map wholePages) := by
  obtain ⟨_, _, _, L, hs⟩ := pmmSetup_spec hok
  constructor
  · rintro ⟨hord, l, hlinked, hmem⟩
    rw [hlinked.unique (hs.lists.linked _ (root_mem_roots hord)), hs.holds _ hord] at hmem
    obtain ⟨i, hi, hF⟩ := hmem
    cases hi
    exact hF
  · intro hc
    have hord := (regionBlocks_within _ c hc).1
    exact ⟨hord, _, hs.lists.linked _ (root_mem_roots hord), (hs.holds _ hord _).2 ⟨_, rfl, hc⟩⟩

theorem pmmSetup_covered (hok : s.pmmSetup b = .ok s') {i : Nat}
    (hi : i < (b.infos.map wholePages).sum) : ∃ c, s'.Free c ∧ i ∈ c := by
  obtain ⟨c, hc, hic⟩ := regionBlocks_cover _ (Nat.zero_le i) (by rwa [Nat.zero_add])
  exact ⟨c, (pmmSetup_free hok c).2 hc, hic⟩

theorem Adjoins.hasPage (infos : List BlockInfo) : ∀ {page i : Nat},
    (∀ info ∈ infos, info.addr < 2 ^ 32 ∧ info.size < 2 ^ 32) → Adjoins base page infos →
    page ≤ i → i < page + (infos.map wholePages).sum →
    ∃ info ∈ infos, info.HasPage (base + 4096 * i) := by
  induction infos with
  | nil =>
    intro page i _ _ hge hlt
    exact absurd hlt (Nat.not_lt.2 hge)
  | cons info infos ih =>
    intro page i hword hadj hge hlt
    obtain ⟨hreach, hfirst, hrest⟩ := hadj
    rw [List.map_cons, List.sum_cons] at hlt
    rcases Nat.lt_or_ge i (page + wholePages info) with hin | hout
    · obtain ⟨heq, _⟩ := hfirst (by omega)
      obtain ⟨haddr, hsize⟩ := hword info List.mem_cons_self
      refine ⟨info, List.mem_cons_self, (hasPage_iff haddr hsize hreach).2 ⟨i - page, ?_, ?_⟩⟩
      · omega
      · omega
    · obtain ⟨info', hmem, hpage⟩ :=
        ih (fun x hx => hword x (List.mem_cons_of_mem _ hx)) hrest hout (by omega)
      exact ⟨info', List.mem_cons_of_mem _ hmem, hpage⟩

theorem Adjoins.exists_page (infos : List BlockInfo) : ∀ {page : Nat},
    (∀ info ∈ infos, info.addr < 2 ^ 32 ∧ info.size < 2 ^ 32) → Adjoins base page infos →
    ∀ info ∈ infos, info.HasPage addr →
    ∃ i, i < page + (infos.map wholePages).sum ∧ addr = base + 4096 * i := by
  induction infos with
  | nil => exact fun _ _ info hmem => absurd hmem List.not_mem_nil
  | cons first infos ih =>
    intro page hword hadj info hmem hpage
    obtain ⟨hreach, hfirst, hrest⟩ := hadj
    rw [List.map_cons, List.sum_cons]
    rcases List.mem_cons.1 hmem with rfl | hmem
    · obtain ⟨haddr, hsize⟩ := hword info List.mem_cons_self
      obtain ⟨j, hj, heq⟩ := (hasPage_iff haddr hsize hreach).1 hpage
      obtain ⟨hbase, _⟩ := hfirst (by omega)
      exact ⟨page + j, by omega, by omega⟩
    · obtain ⟨i, hi, heq⟩ :=
        ih (fun x hx => hword x (List.mem_cons_of_mem _ hx)) hrest info hmem hpage
      exact ⟨i, by omega, heq⟩

theorem Adjoins.aligned (infos : List BlockInfo) : ∀ {page : Nat}, Adjoins base page infos →
    ∀ c ∈ regionBlocks page (infos.map wholePages), c.Aligned := by
  induction infos with
  | nil => exact fun _ c hc => absurd hc List.not_mem_nil
  | cons info infos ih =>
    intro page hadj c hc
    obtain ⟨_, hfirst, hrest⟩ := hadj
    rcases List.mem_append.1 hc with hc | hc
    · refine carve_aligned ?_ c hc
      intro k hk hfit
      have hpos := Nat.two_pow_pos k
      exact (hfirst (by omega)).2 k (Nat.lt_succ_iff.1 hk) hfit
    · exact ih hrest c hc

theorem initSound_of_adjoins (hb : b.Ascending) (hok : s.pmmSetup b = .ok s')
    (hadj : Adjoins (pageFloor b.addr) 0 b.infos) : InitSound b.infos s' := by
  obtain ⟨haddr, _, _, _⟩ := pmmSetup_spec hok
  have hword : ∀ info ∈ b.infos, info.addr < 2 ^ 32 ∧ info.size < 2 ^ 32 :=
    fun info hi => ⟨hb.addr_lt info hi, hb.size_lt info hi⟩
  have hin : ∀ c, s'.Free c → ∀ i ∈ c, i < (b.infos.map wholePages).sum := by
    intro c hc i hi
    have hle := (regionBlocks_within _ c ((pmmSetup_free hok c).1 hc)).2.2
    have hlt := (Block.mem_def.1 hi).2
    omega
  have hpage : ∀ i < (b.infos.map wholePages).sum, s'.pageAddr i = pageFloor b.addr + 4096 * i ∧
      ∃ info ∈ b.infos, info.HasPage (pageFloor b.addr + 4096 * i) := by
    intro i hi
    obtain ⟨info, hmem, hhas⟩ := hadj.hasPage _ hword (Nat.zero_le i) (by rwa [Nat.zero_add])
    have hbelow := hb.below info hmem
    have hle := hhas.2.2
    refine ⟨?_, info, hmem, hhas⟩
    rw [pageAddr, haddr, Nat.shiftLeft_eq, Nat.mod_eq_of_lt] <;> omega
  have hinj : ∀ i j, i < (b.infos.map wholePages).sum → j < (b.infos.map wholePages).sum →
      s'.pageAddr i = s'.pageAddr j → i = j := by
    intro i j hi hj he
    rw [(hpage i hi).1, (hpage j hj).1] at he
    omega
  refine ⟨?_, ?_, ?_, ?_⟩
  · intro c hc i hi
    obtain ⟨heq, hhas⟩ := hpage i (hin c hc i hi)
    rwa [heq]
  · exact fun c d hc hd i hi j hj he => hinj i j (hin c hc i hi) (hin d hd j hj) he
  · intro info hmem addr hhas
    obtain ⟨i, hi, rfl⟩ := hadj.exists_page _ hword info hmem hhas
    rw [Nat.zero_add] at hi
    obtain ⟨c, hc, hic⟩ := pmmSetup_covered hok hi
    refine ⟨c, ⟨hc, i, hic, (hpage i hi).1⟩, ?_⟩
    rintro d ⟨hd, j, hjd, hj⟩
    obtain rfl := hinj j i (hin d hd j hjd) hi (hj.trans (hpage i hi).1.symm)
    exact regionBlocks_eq_of_mem _ d ((pmmSetup_free hok d).1 hd) c ((pmmSetup_free hok c).1 hc)
      hjd hic
  · exact fun c hc => hadj.aligned _ c ((pmmSetup_free hok c).1 hc)

theorem le_sum_of_mem {α : Type} {f : α → Nat} {l : List α} {a : α} (ha : a ∈ l) : f a ≤ (l.map f).sum := by
  obtain ⟨l1, l2, rfl⟩ := List.append_of_mem ha
  rw [List.map_append, List.sum_append, List.map_cons, List.sum_cons]
  omega

theorem add_le_sum_of_mem {α : Type} {f : α → Nat} (l : List α) {a c : α} (ha : a ∈ l) (hc : c ∈ l)
    (hne : a ≠ c) : f a + f c ≤ (l.map f).sum := by
  induction l with
  | nil => exact absurd ha List.not_mem_nil
  | cons x l ih =>
    rw [List.map_cons, List.sum_cons]
    rcases List.mem_cons.1 ha with rfl | ha' <;> rcases List.mem_cons.1 hc with rfl | hc'
    · exact absurd rfl hne
    · exact Nat.add_le_add_left (le_sum_of_mem hc') _
    · have hle := le_sum_of_mem (f := f) ha'
      omega
    · exact (ih ha' hc').trans (Nat.le_add_left _ _)

theorem ascending_or {i j : BlockInfo} (hb : b.Ascending) (hi : i ∈ b.infos) (hj : j ∈ b.infos)
    (hne : i ≠ j) : i.addr + i.size ≤ j.addr ∨ j.addr + j.size ≤ i.addr := by
  obtain ⟨l1, l2, hinfos⟩ := List.append_of_mem hi
  have hsorted := hb.sorted
  rw [hinfos] at hj hsorted
  obtain ⟨_, hback, hcross⟩ := List.pairwise_append.1 hsorted
  rcases List.mem_append.1 hj with hj | hj
  · exact Or.inr (hcross j hj i List.mem_cons_self)
  rcases List.mem_cons.1 hj with rfl | hj
  · exact absurd rfl hne
  · exact Or.inl ((List.pairwise_cons.1 hback).1 j hj)

section

variable (hb : b.Ascending) (hok : s.pmmSetup b = .ok s')
include hb hok

/-- A region that does not reach its first page boundary claims all pages but one; the page it lies in
is then claimed too, though no region has it. -/
theorem reaches_of_initSound (hsound : InitSound b.infos s') :
    ∀ info ∈ b.infos, info.firstPage ≤ info.addr + info.size := by
  intro info hmem
  by_contra hreach
  obtain ⟨haddr, _, _, _⟩ := pmmSetup_spec hok
  have hwrap := wholePages_of_not_reaches (hb.addr_lt info hmem) hreach
  have hsum := le_sum_of_mem (f := wholePages) hmem
  obtain ⟨c, hc, h0⟩ := pmmSetup_covered hok (i := 0) (by omega)
  obtain ⟨other, hother, hhas⟩ := hsound.inside c hc 0 h0
  have hreach' : other.firstPage ≤ other.addr + other.size := by
    obtain ⟨hmod, hge, hle⟩ := hhas
    rw [BlockInfo.firstPage]
    omega
  have hne : other ≠ info := fun he => hreach (he ▸ hreach')
  have hpos : 0 < wholePages other := by
    obtain ⟨j, hj, _⟩ := (hasPage_iff (hb.addr_lt _ hother) (hb.size_lt _ hother) hreach').1 hhas
    omega
  have htotal := add_le_sum_of_mem (f := wholePages) b.infos hother hmem hne
  -- With all page numbers in use, the page that the region starts in is among them.
  have hbase : pageFloor b.addr % 4096 = 0 ∧ pageFloor b.addr < 2 ^ 32 := by
    rw [pageFloor]
    omega
  have hlt := hb.addr_lt info hmem
  obtain ⟨d, hd, hid⟩ := pmmSetup_covered hok
    (i := (info.addr / 4096 * 4096 + 2 ^ 32 - pageFloor b.addr) % 2 ^ 32 / 4096) (by omega)
  obtain ⟨third, hthird, hin⟩ := hsound.inside d hd _ hid
  have hpage : s'.pageAddr ((info.addr / 4096 * 4096 + 2 ^ 32 - pageFloor b.addr) % 2 ^ 32 / 4096) =
      info.addr / 4096 * 4096 := by
    rw [pageAddr, haddr, Nat.shiftLeft_eq]
    omega
  rw [hpage] at hin
  obtain ⟨_, hge, hle⟩ := hin
  rw [BlockInfo.firstPage] at hreach
  have hne' : third ≠ info := by
    rintro rfl
    omega
  obtain h | h := ascending_or hb hthird hmem hne' <;> omega

/-- The regions from `infos` on, when those before them end with the page structure `page`. -/
theorem adjoins_of_initSound (hsound : InitSound b.infos s') (infos : List BlockInfo) :
    ∀ {l : List BlockInfo} {page : Nat}, b.infos = l ++ infos → page = (l.map wholePages).sum →
    (∀ info ∈ l, ∀ addr, info.HasPage addr → addr < pageFloor b.addr + 4096 * page) →
    (∀ info ∈ infos, pageFloor b.addr + 4096 * page ≤ info.firstPage) →
    (∀ c ∈ regionBlocks page (infos.map wholePages), s'.Free c) →
    Adjoins (pageFloor b.addr) page infos := by
  have hreaches := reaches_of_initSound hb hok hsound
  obtain ⟨haddr, _, _, _⟩ := pmmSetup_spec hok
  induction infos with
  | nil => exact fun _ _ _ _ _ => trivial
  | cons info infos ih =>
    intro l page hsplit hpage hbefore hbehind hfree
    have hmem : info ∈ b.infos := hsplit ▸ List.mem_append_right _ List.mem_cons_self
    have hreach := hreaches info hmem
    have hhas := fun addr => hasPage_iff (a := addr) (hb.addr_lt info hmem)
      (hb.size_lt info hmem) hreach
    have hbelow := hb.below info hmem
    have hle := hbehind info List.mem_cons_self
    have hwhole := wholePages_of_reaches (hb.addr_lt info hmem) (hb.size_lt info hmem) hreach
    have hlater : ∀ other ∈ infos, info.addr + info.size ≤ other.addr := by
      have hsorted := hb.sorted
      rw [hsplit] at hsorted
      exact (List.pairwise_cons.1 (List.pairwise_append.1 hsorted).2.1).1
    -- The page structure of the region's first page stands for a page of some region.
    have hfirst : wholePages info ≠ 0 → info.firstPage = pageFloor b.addr + 4096 * page := by
      intro hne
      have hsum : (b.infos.map wholePages).sum =
          page + (wholePages info + (infos.map wholePages).sum) := by
        rw [hsplit, List.map_append, List.sum_append, ← hpage, List.map_cons, List.sum_cons]
      obtain ⟨c, hc, hic⟩ := pmmSetup_covered hok (i := page) (by omega)
      obtain ⟨other, hother, hin⟩ := hsound.inside c hc page hic
      have heq : s'.pageAddr page = pageFloor b.addr + 4096 * page := by
        rw [pageAddr, haddr, Nat.shiftLeft_eq, Nat.mod_eq_of_lt] <;> omega
      rw [heq] at hin
      rw [hsplit] at hother
      rcases List.mem_append.1 hother with hother | hother
      · exact absurd (hbefore other hother _ hin) (Nat.lt_irrefl _)
      rcases List.mem_cons.1 hother with rfl | hother
      · obtain ⟨j, _, hj⟩ := (hhas _).1 hin
        omega
      · have hbetween := hlater other hother
        have hge := hin.2.1
        omega
    refine ⟨hreach, fun hne => ⟨hfirst hne, ?_⟩, ?_⟩
    · intro k hk hfit
      obtain ⟨j, hj, hcarve⟩ := @exists_carve_start _ k page _ (Nat.lt_succ_of_le hk) hfit
      have hdvd := hsound.aligned _ (hfree _ (List.mem_append_left _ hcarve))
      exact (pow_dvd_pow 2 hj).trans hdvd
    · refine ih (l := l ++ [info]) ?_ ?_ ?_ ?_ ?_
      · rw [hsplit, List.append_assoc, List.singleton_append]
      · rw [List.map_append, List.sum_append, ← hpage, List.map_singleton, List.sum_singleton]
      · intro other hother addr hin
        rcases List.mem_append.1 hother with hother | hother
        · have := hbefore other hother addr hin
          omega
        · obtain rfl := List.mem_singleton.1 hother
          obtain ⟨j, hj, rfl⟩ := (hhas addr).1 hin
          have := hfirst (by omega)
          omega
      · intro other hother
        have hbetween := hlater other hother
        have hge : other.addr ≤ other.firstPage := by
          rw [BlockInfo.firstPage]
          omega
        by_cases hzero : wholePages info = 0
        · have := hbehind other (List.mem_cons_of_mem _ hother)
          omega
        · have := hfirst hzero
          omega
      · exact fun c hc => hfree c (List.mem_append_right _ hc)

/-- `pmm_init` manages the memory of the regions exactly when they adjoin. -/
theorem pmmSetup_sound_iff :
    InitSound b.infos s' ↔ Adjoins (pageFloor b.addr) 0 b.infos := by
  have hbehind : ∀ info ∈ b.infos, pageFloor b.addr + 4096 * 0 ≤ info.firstPage := by
    intro info hmem
    have hfirst : pageFloor b.addr ≤ (b.addr + 4095) / 4096 * 4096 := by
      rw [pageFloor]
      omega
    have hle : b.addr ≤ info.addr := by
      cases hinfos : b.infos with
      | nil =>
        rw [hinfos] at hmem
        exact absurd hmem List.not_mem_nil
      | cons head rest =>
        have haddr := hb.addr head (by rw [hinfos]; rfl)
        have hsorted := hb.sorted
        rw [hinfos] at hmem hsorted
        rcases List.mem_cons.1 hmem with rfl | hmem
        · exact haddr.le
        · have := (List.pairwise_cons.1 hsorted).1 info hmem
          omega
    rw [Nat.mul_zero, Nat.add_zero, BlockInfo.firstPage]
    refine hfirst.trans ?_
    omega
  constructor
  · intro hsound
    exact adjoins_of_initSound hb hok hsound b.infos (l := []) rfl rfl
      (fun info hmem => absurd hmem List.not_mem_nil) hbehind fun c hc => (pmmSetup_free hok c).2 hc
  · exact initSound_of_adjoins hb hok

end

/-- An allocator before `pmm_init`, with an array of `pageCnt` page structures. -/
def blank (pageCnt : Nat) : BuddyAllocator where
  links := ⟨id, id⟩
  pages := fun _ =>
    { size := 0, flag := 0, refCnt := 0, data := 0, magic := 0, rwlock := rwlockInit }
  lock := false
  addr := 0
  size := 0
  pageCnt

def oneRegion : BlockAllocator where
  addr := 0x100240
  size := 0x7dc0
  infos := [⟨0x100240, 0x7dc0⟩]

end BuddyAllocator

end QuarkOS
