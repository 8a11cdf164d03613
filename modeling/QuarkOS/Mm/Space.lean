import QuarkOS.Mm.VmSpec

/-!
# Address spaces as maps

A page directory with its page tables is a map from page numbers to page table entries: `Dir.pte`. An
entry of a page table that does not exist counts as zero. `Space` says that the directory and the
tables are pages of their own that the kernel has mapped, which is what `vm_page_iter` relies on; its
lemmas turn the pointer it returns into reads and updates of the map.
-/

namespace QuarkOS

open CList Dyadic BuddyAllocator Function

/-- A page directory and its page tables, as pages of the allocator. -/
structure Dir where
  dir : Nat
  table : Nat → Option Nat

namespace Dir

def pages (d : Dir) : Set Nat := {p | p = d.dir ∨ ∃ i, d.table i = some p}

def pte (d : Dir) (s : Vm) (v : Nat) : Pte :=
  match d.table (v / 1024) with
  | none => 0
  | some t => s.mem (s.frame t) (v % 1024)

/-- The directory with the page table `t` in place `i`. -/
def addTable (d : Dir) (i t : Nat) : Dir := { d with table := update d.table i (some t) }

variable {d : Dir} {t : Nat}

theorem addTable_self {i : Nat} (h : d.table i = some t) : d.addTable i t = d := by
  rw [addTable, ← h, update_eq_self]

theorem addTable_table (d : Dir) (i t j : Nat) :
    (d.addTable i t).table j = if j = i then some t else d.table j := by
  exact update_apply _ _ _ _

theorem mem_addTable {i p : Nat} (h : p ∈ (d.addTable i t).pages) : p ∈ d.pages ∨ p = t := by
  rcases h with h | ⟨j, hj⟩
  · exact Or.inl (Or.inl h)
  · rw [addTable_table] at hj
    split at hj
    · exact Or.inr (Option.some.inj hj).symm
    · exact Or.inl (Or.inr ⟨j, hj⟩)

theorem pte_some {s : Vm} {v : Nat} (h : d.table (v / 1024) = some t) :
    d.pte s v = s.mem (s.frame t) (v % 1024) := by
  rw [pte, h]

theorem pte_none {s : Vm} {v : Nat} (h : d.table (v / 1024) = none) : d.pte s v = 0 := by
  rw [pte, h]

end Dir

def vpn (va : Nat) : Nat := va >>> 12

theorem pdeIndex_eq (va : Nat) : pdeIndex va = vpn va / 1024 := by
  rw [pdeIndex, vpn, Nat.shiftRight_eq_div_pow, Nat.shiftRight_eq_div_pow]
  omega

theorem pteIndex_eq (va : Nat) : pteIndex va = vpn va % 1024 := rfl

theorem pdeIndex_lt {va : Nat} (h : va < kernelStart) : pdeIndex va < 768 := by
  have hks : kernelStart = 0xc0000000 := rfl
  rw [pdeIndex, Nat.shiftRight_eq_div_pow]
  omega

theorem pteIndex_lt (va : Nat) : pteIndex va < 1024 := Nat.mod_lt _ (by decide)

namespace Vm

variable {s s' : Vm} {A A' : Set Block} {N : PageNode → List PageNode} {P : Set Nat} {d : Dir}
  {va : Nat}

/-- The directory and the tables are allocated pages that the kernel has mapped, all different, and
the directory points to the tables. -/
structure Space (s : Vm) (A : Set Block) (d : Dir) : Prop where
  mem : ∀ p ∈ d.pages, ⟨p, 0⟩ ∈ A
  mapped : ∀ p ∈ d.pages, KMapped s p
  user : ∀ i t, d.table i = some t → i < 768
  dir_ne : ∀ i, d.table i ≠ some d.dir
  inj : ∀ i j t, d.table i = some t → d.table j = some t → i = j
  pde_none : ∀ i < 768, d.table i = none → s.mem (s.frame d.dir) i = 0
  pde_some : ∀ i t, d.table i = some t → s.mem (s.frame d.dir) i &&& vmPres ≠ 0 ∧
    pageCeil (s.mem (s.frame d.dir) i).toNat = s.alloc.pageAddr t

theorem Space.dir_mem_pages (d : Dir) : d.dir ∈ d.pages := Or.inl rfl

variable {i t p w : Nat} {B : Set Block}

theorem Space.table_mem_pages (h : d.table i = some t) : t ∈ d.pages := Or.inr ⟨i, h⟩

/-- From `s` to `s'` the pages of the blocks `B` stay where the kernel has them, and so do their
contents but for the pages `P`. -/
structure Keeps (s s' : Vm) (B : Set Block) (P : Set Nat) : Prop where
  addr : s'.alloc.addr = s.alloc.addr
  pageCnt : s'.alloc.pageCnt = s.alloc.pageCnt
  data : ∀ b ∈ B, ∀ q ∈ b, (s'.alloc.pages q).data = (s.alloc.pages q).data
  entry : ∀ b ∈ B, ∀ q ∈ b, s'.kPageTables (s.frame q) = s.kPageTables (s.frame q)
  mem : ∀ b ∈ B, ∀ q ∈ b, q ∉ P → s'.mem (s.frame q) = s.mem (s.frame q)

theorem Grows.keeps (hg : Grows s s' A A' P) : Keeps s s' A P :=
  ⟨hg.addr, hg.pageCnt, fun b hb q hq => congrArg Page.data (hg.page b hb q hq), hg.entry, hg.mem⟩

theorem Keeps.pageAddr (h : Keeps s s' B P) (q : Nat) : s'.alloc.pageAddr q = s.alloc.pageAddr q := by
  rw [BuddyAllocator.pageAddr, BuddyAllocator.pageAddr, h.addr]

theorem Keeps.frame (h : Keeps s s' B P) (q : Nat) : s'.frame q = s.frame q := by
  rw [Vm.frame, Vm.frame, h.pageAddr]

theorem Keeps.kva (h : Keeps s s' B P) (q : Nat) : s'.kva q = s.kva q := by
  rw [Vm.kva, Vm.kva, h.pageAddr]

theorem Keeps.trans {s'' : Vm} (h1 : Keeps s s' B P) (h2 : Keeps s' s'' B P) : Keeps s s'' B P where
  addr := h2.addr.trans h1.addr
  pageCnt := h2.pageCnt.trans h1.pageCnt
  data b hb q hq := (h2.data b hb q hq).trans (h1.data b hb q hq)
  entry b hb q hq := by rw [← h1.entry b hb q hq, ← h1.frame, h2.entry b hb q hq]
  mem b hb q hq hP := by rw [← h1.mem b hb q hq hP, ← h1.frame, h2.mem b hb q hq hP]

theorem Keeps.mono {B' : Set Block} {P' : Set Nat} (h : Keeps s s' B P) (hB : B' ⊆ B)
    (hP : P ⊆ P') : Keeps s s' B' P' :=
  ⟨h.addr, h.pageCnt, fun b hb => h.data b (hB hb), fun b hb => h.entry b (hB hb),
    fun b hb q hq hq' => h.mem b (hB hb) q hq fun hqP => hq' (hP hqP)⟩

theorem Keeps.kMapped {b : Block} (h : Keeps s s' B P)
    (hm : KMapped s p) (hb : b ∈ B) (hp : p ∈ b) : KMapped s' p := by
  refine ⟨?_, ?_, ?_⟩
  · rw [h.data b hb p hp, hm.data, h.kva]
  · rw [h.pageAddr]
    exact hm.lt
  · rw [h.frame, h.entry b hb p hp, hm.entry]

theorem Space.keeps (hd : Space s A d) (h : Keeps s s' B P)
    (hB : ∀ p ∈ d.pages, ⟨p, 0⟩ ∈ B) (hA : ∀ p ∈ d.pages, ⟨p, 0⟩ ∈ A') (hP : ∀ p ∈ d.pages, p ∉ P) :
    Space s' A' d ∧ ∀ v, d.pte s' v = d.pte s v := by
  have hmem : ∀ p ∈ d.pages, s'.mem (s'.frame p) = s.mem (s.frame p) := by
    intro p hp
    rw [h.frame]
    exact h.mem _ (hB p hp) p (Block.start_mem _) (hP p hp)
  have hdir := hmem d.dir (Space.dir_mem_pages d)
  refine ⟨⟨hA, ?_, hd.user, hd.dir_ne, hd.inj, ?_, ?_⟩, ?_⟩
  · intro p hp
    exact h.kMapped (hd.mapped p hp) (hB p hp) (Block.start_mem _)
  · intro i hi hnone
    rw [hdir]
    exact hd.pde_none i hi hnone
  · intro i t ht
    rw [hdir, h.pageAddr]
    exact hd.pde_some i t ht
  · intro v
    cases ht : d.table (v / 1024) with
    | none => rw [Dir.pte_none ht, Dir.pte_none ht]
    | some t => rw [Dir.pte_some ht, Dir.pte_some ht, hmem t (Space.table_mem_pages ht)]

theorem Space.grows (hd : Space s A d) (hg : Grows s s' A A' P) (hP : ∀ p ∈ d.pages, p ∉ P) :
    Space s' A' d ∧ ∀ v, d.pte s' v = d.pte s v :=
  hd.keeps hg.keeps hd.mem (fun p hp => hg.sub (hd.mem p hp)) hP

theorem Space.modifyPage {f : Page → Page} (hd : Space s A d) (hp : p ∉ d.pages) :
    Space (s.modifyPage p f) A d ∧ ∀ v, d.pte (s.modifyPage p f) v = d.pte s v := by
  have hkeeps : Keeps s (s.modifyPage p f) {b | p ∉ b} ∅ := by
    refine ⟨rfl, rfl, ?_, fun _ _ _ _ => rfl, fun _ _ _ _ _ => rfl⟩
    intro b hb q hq
    have hne : q ≠ p := by
      rintro rfl
      exact hb hq
    rw [modifyPage_alloc, BuddyAllocator.modifyPage_pages, if_neg hne]
  refine hd.keeps hkeeps ?_ hd.mem fun _ _ h => h
  intro q hq hmem
  exact hp (Block.mem_page.1 hmem ▸ hq)

section

variable (hk : Kernel s A N) (hd : Space s A d)
include hk hd

theorem Space.lt (hp : p ∈ d.pages) : p < s.alloc.pageCnt :=
  hk.owns.start_lt (hd.mem p hp)

theorem Space.load (hp : p ∈ d.pages)
    (hi : i < 1024) : s.load (s.kva p + 4 * i) = .ok (s.mem (s.frame p) i) :=
  (hd.mapped p hp).load (hk.pageAddr_mod (hd.lt hk hp)) hi

theorem Space.store (hp : p ∈ d.pages)
    (hi : i < 1024) (x : BitVec 32) :
    s.store (s.kva p + 4 * i) x = .ok (s.setMem (s.frame p) i x) :=
  (hd.mapped p hp).store (hk.pageAddr_mod (hd.lt hk hp)) hi x

theorem Space.iter_some (ht : d.table (pdeIndex va) = some t) (new : Bool) :
    s.vmPageIter va (s.kva d.dir) new = .ok (s.kva t + 4 * pteIndex va, s) := by
  obtain ⟨hpres, haddr⟩ := hd.pde_some _ t ht
  have hi : pdeIndex va < 1024 := (hd.user _ t ht).trans (by decide)
  have htp := Space.table_mem_pages ht
  rw [vmPageIter, hd.load hk (Space.dir_mem_pages d) hi]
  simp only [ok_bind, hpres, decide_false, Bool.and_false, Bool.false_eq_true, if_false, haddr,
    hk.getPage (hd.lt hk htp), (hd.mapped t htp).data]

theorem Space.iter_none (hva : va < kernelStart)
    (ht : d.table (pdeIndex va) = none) :
    s.vmPageIter va (s.kva d.dir) false = .error .assertk := by
  have hi := pdeIndex_lt hva
  rw [vmPageIter, hd.load hk (Space.dir_mem_pages d) (by omega)]
  have hzero : s.alloc.getPage (pageCeil (0 : BitVec 32).toNat) = .ok none := by
    rw [getPage, if_neg (by decide), if_pos]
    exact hk.pos
  simp only [ok_bind, hd.pde_none _ hi ht, Bool.false_and, Bool.false_eq_true, if_false, hzero]

end

theorem KMapped.setMem {f : Nat} {x : BitVec 32} (hm : KMapped s p) : KMapped (s.setMem f w x) p :=
  ⟨hm.data, hm.lt, hm.entry⟩

theorem tableFlags : (vmPres ||| vmUrw).getLsbD 0 = true ∧ (vmPres ||| vmUrw).toNat < 4096 := by
  decide

theorem Space.addTable {x : Pte} (hk : Kernel s A N) (hd : Space s A d) (hi : i < 768)
    (hnone : d.table i = none) (ht : ⟨t, 0⟩ ∈ A) (hm : KMapped s t) (hnew : t ∉ d.pages)
    (hzero : ∀ w, s.mem (s.frame t) w = 0) (hpres : x &&& vmPres ≠ 0)
    (haddr : pageCeil x.toNat = s.alloc.pageAddr t) :
    Space (s.setMem (s.frame d.dir) i x) A (d.addTable i t) ∧
      ∀ v, (d.addTable i t).pte (s.setMem (s.frame d.dir) i x) v = d.pte s v := by
  have htlt : t < s.alloc.pageCnt := hk.owns.start_lt ht
  have hdirlt := hd.lt hk (Space.dir_mem_pages d)
  have hpages : ∀ p ∈ (d.addTable i t).pages, p ≠ d.dir → s.frame p ≠ s.frame d.dir := by
    intro p hp hne he
    have hlt : p < s.alloc.pageCnt := by
      rcases Dir.mem_addTable hp with hp | rfl
      · exact hd.lt hk hp
      · exact htlt
    exact hne (hk.frame_inj hlt hdirlt he)
  have hother : ∀ j t', d.table j = some t' → j ≠ i := by
    rintro j t' hj rfl
    rw [hnone] at hj
    cases hj
  refine ⟨⟨?_, ?_, ?_, ?_, ?_, ?_, ?_⟩, ?_⟩
  · intro p hp
    rcases Dir.mem_addTable hp with hp | rfl
    · exact hd.mem p hp
    · exact ht
  · intro p hp
    rcases Dir.mem_addTable hp with hp | rfl
    · exact (hd.mapped p hp).setMem
    · exact hm.setMem
  · intro j t' hj
    rw [Dir.addTable_table] at hj
    split at hj
    · omega
    · exact hd.user j t' hj
  · intro j hj
    rw [Dir.addTable_table] at hj
    split at hj
    · exact hnew (Option.some.inj hj ▸ Space.dir_mem_pages d)
    · exact hd.dir_ne j hj
  · intro j k t' hj hkt
    rw [Dir.addTable_table] at hj hkt
    split at hj <;> split at hkt
    · omega
    · exact absurd (Option.some.inj hj ▸ Space.table_mem_pages hkt) hnew
    · exact absurd (Option.some.inj hkt ▸ Space.table_mem_pages hj) hnew
    · exact hd.inj j k t' hj hkt
  · intro j hj hjnone
    rw [Dir.addTable_table] at hjnone
    split at hjnone
    · cases hjnone
    · rename_i hne
      exact (if_neg fun h => hne h.2).trans (hd.pde_none j hj hjnone)
  · intro j t' hj
    rw [Dir.addTable_table] at hj
    split at hj
    · rename_i hji
      cases hj
      have hval : (s.setMem (s.frame d.dir) i x).mem (s.frame d.dir) j = x := if_pos ⟨rfl, hji⟩
      have hboth := And.intro hpres haddr
      rw [← hval] at hboth
      exact hboth
    · rename_i hne
      have hval : (s.setMem (s.frame d.dir) i x).mem (s.frame d.dir) j = s.mem (s.frame d.dir) j :=
        if_neg fun h => hne h.2
      have hold := hd.pde_some j t' hj
      rw [← hval] at hold
      exact hold
  · intro v
    by_cases hv : v / 1024 = i
    · have htab : (d.addTable i t).table (v / 1024) = some t := by
        rw [Dir.addTable_table, if_pos hv]
      rw [Dir.pte_some htab, Dir.pte_none (hv ▸ hnone)]
      have hne := hpages t (Or.inr ⟨_, htab⟩) fun he => hnew (he ▸ Space.dir_mem_pages d)
      exact (if_neg fun h => hne h.1).trans (hzero _)
    · have htab : (d.addTable i t).table (v / 1024) = d.table (v / 1024) := by
        rw [Dir.addTable_table, if_neg hv]
      cases h : d.table (v / 1024) with
      | none => rw [Dir.pte_none (htab.trans h), Dir.pte_none h]
      | some t' =>
        rw [Dir.pte_some (htab.trans h), Dir.pte_some h]
        have hne := hpages t' (Or.inr ⟨_, htab.trans h⟩) fun he => hd.dir_ne _ (he ▸ h)
        exact if_neg fun h => hne h.1

theorem Grows.setMem {x : BitVec 32} (hk : Kernel s A N) (hg : Grows s s' A A' P)
    (hp : p < s.alloc.pageCnt) (hP : (∃ c ∈ A, p ∈ c) → p ∈ P) :
    Grows s (s'.setMem (s'.frame p) w x) A A' P := by
  refine ⟨hg.sub, hg.addr, hg.pageCnt, hg.page, hg.entry, ?_, hg.pageDir, hg.cr3⟩
  intro c hc q hq hqP
  rw [← hg.mem c hc q hq hqP]
  funext v
  refine if_neg fun h => hqP ?_
  have he : s.frame q = s.frame p := h.1.trans (hg.frame p)
  obtain rfl := hk.frame_inj (hk.owns.lt_of_mem hc hq) hp he
  exact hP ⟨c, hc, hq⟩

section

variable (hk : Kernel s A N) (hd : Space s A d)
include hk hd

theorem Space.iter_new {ptr : Nat} (hva : va < kernelStart)
    (hok : s.vmPageIter va (s.kva d.dir) true = .ok (ptr, s')) :
    ∃ t, Kernel s' (insert ⟨t, 0⟩ A) N ∧ Space s' (insert ⟨t, 0⟩ A) (d.addTable (pdeIndex va) t) ∧
      Grows s s' A (insert ⟨t, 0⟩ A) {d.dir} ∧ ptr = s'.kva t + 4 * pteIndex va ∧
      (∀ v, (d.addTable (pdeIndex va) t).pte s' v = d.pte s v) ∧
      (d.table (pdeIndex va) = some t ∧ s' = s ∨
        d.table (pdeIndex va) = none ∧ Fresh s s' A t) := by
  have hi := pdeIndex_lt hva
  cases ht : d.table (pdeIndex va) with
  | some t =>
    rw [hd.iter_some hk ht] at hok
    cases hok
    have hmem : (⟨t, 0⟩ : Block) ∈ A := hd.mem t (Space.table_mem_pages ht)
    refine ⟨t, ?_⟩
    rw [Dir.addTable_self ht, Set.insert_eq_of_mem hmem]
    exact ⟨hk, hd, Grows.rfl _ _ _, rfl, fun _ => rfl, Or.inl ⟨rfl, rfl⟩⟩
  | none =>
    have hcond : (true && decide ((0 : Pte) &&& vmPres = 0)) = true := by decide
    rw [vmPageIter, hd.load hk (Space.dir_mem_pages d) (by omega)] at hok
    simp only [ok_bind, hd.pde_none _ hi ht, hcond, if_true] at hok
    obtain ⟨⟨addr, s1⟩, hcalloc, hok⟩ := bind_eq_ok hok
    obtain ⟨t, rfl, hk1, hm, hg, hfresh, hzero⟩ := kcallocPage_spec hk hcalloc
    have hb : (⟨t, 0⟩ : Block) ∈ insert ⟨t, 0⟩ A := Or.inl rfl
    have htlt : t < s1.alloc.pageCnt := hk1.owns.start_lt hb
    obtain ⟨hd1, hpte1⟩ := hd.grows hg fun p _ h => h
    have hnew : t ∉ d.pages := fun h => hfresh.notMem _ (hd.mem t h) (Block.start_mem _)
    have hv2p := hm.v2p (hk1.pageAddr_mod htlt)
    rw [← hg.kva d.dir] at hok
    have hstore := hd1.store hk1 (Space.dir_mem_pages d) (i := pdeIndex va) (by omega)
      (BitVec.ofNat 32 (s1.alloc.pageAddr t) ||| (vmPres ||| vmUrw))
    simp only [hv2p, ok_bind, BitVec.or_assoc, hstore] at hok
    cases hok
    obtain ⟨hd2, hpte2⟩ := hd1.addTable hk1 hi ht hb hm hnew hzero
      (entry_present tableFlags.1)
      (pageCeil_entry (hk1.pageAddr_mod htlt) (hk1.pageAddr_lt htlt) tableFlags.2)
    refine ⟨t, hk1.congr rfl, hd2, ?_, rfl, fun v => (hpte2 v).trans (hpte1 v),
      Or.inr ⟨rfl, hfresh.congr rfl⟩⟩
    exact (hg.mono (Set.empty_subset _)).setMem hk (hd.lt hk (Space.dir_mem_pages d)) fun _ => rfl

theorem Space.load_pte (ht : d.table (pdeIndex va) = some t) :
    s.load (s.kva t + 4 * pteIndex va) = .ok (d.pte s (vpn va)) := by
  rw [hd.load hk (Space.table_mem_pages ht) (pteIndex_lt va)]
  rw [pdeIndex_eq] at ht
  rw [Dir.pte_some ht, pteIndex_eq]

theorem Space.setMem_table {x : BitVec 32} (ht : d.table i = some t) (hw : w < 1024) :
    Space (s.setMem (s.frame t) w x) A d ∧
      ∀ v, d.pte (s.setMem (s.frame t) w x) v = if v = i * 1024 + w then x else d.pte s v := by
  have htp := Space.table_mem_pages ht
  have hne : s.frame d.dir ≠ s.frame t := fun he =>
    hd.dir_ne i (hk.frame_inj (hd.lt hk (Space.dir_mem_pages d)) (hd.lt hk htp) he ▸ ht)
  have hdir : ∀ j, (s.setMem (s.frame t) w x).mem (s.frame d.dir) j = s.mem (s.frame d.dir) j :=
    fun j => if_neg fun h => hne h.1
  refine ⟨⟨hd.mem, fun p hp => (hd.mapped p hp).setMem, hd.user, hd.dir_ne, hd.inj, ?_, ?_⟩, ?_⟩
  · intro j hj hnone
    exact (hdir j).trans (hd.pde_none j hj hnone)
  · intro j t' hj
    have hold := hd.pde_some j t' hj
    rw [← hdir j] at hold
    exact hold
  · intro v
    by_cases hv : v / 1024 = i
    · subst hv
      rw [Dir.pte_some ht, Dir.pte_some ht]
      by_cases hvw : v % 1024 = w
      · rw [if_pos (by omega)]
        exact if_pos ⟨rfl, hvw⟩
      · rw [if_neg (by omega)]
        exact if_neg fun h => hvw h.2
    · rw [if_neg (by omega)]
      cases h : d.table (v / 1024) with
      | none => rw [Dir.pte_none h, Dir.pte_none h]
      | some t' =>
        rw [Dir.pte_some h, Dir.pte_some h]
        refine if_neg fun hf => hv ?_
        have he := hk.frame_inj (hd.lt hk (Space.table_mem_pages h)) (hd.lt hk htp) hf.1
        exact hd.inj _ _ t' h (he ▸ ht)

theorem Space.store_pte {x : BitVec 32} (ht : d.table (pdeIndex va) = some t) :
    ∃ s', s.store (s.kva t + 4 * pteIndex va) x = .ok s' ∧ Kernel s' A N ∧ Space s' A d ∧
      Grows s s' A A {t} ∧ (∀ v, d.pte s' v = if v = vpn va then x else d.pte s v) ∧
      s'.alloc = s.alloc := by
  have htp := Space.table_mem_pages ht
  obtain ⟨hd', hpte⟩ := hd.setMem_table (x := x) hk ht (pteIndex_lt va)
  refine ⟨_, hd.store hk htp (pteIndex_lt va) x, hk.congr rfl, hd', ?_, ?_, rfl⟩
  · exact (Grows.rfl s A {t}).setMem hk (hd.lt hk htp) fun _ => rfl
  · intro v
    rw [hpte v]
    have hvpn : pdeIndex va * 1024 + pteIndex va = vpn va := by
      rw [pdeIndex_eq, pteIndex_eq]
      omega
    rw [hvpn]

end

theorem Space.of_zero (hb : ⟨p, 0⟩ ∈ A) (hm : KMapped s p)
    (hzero : ∀ w, s.mem (s.frame p) w = 0) : Space s A ⟨p, fun _ => none⟩ := by
  have hpages : ∀ q ∈ Dir.pages ⟨p, fun _ => none⟩, q = p := by
    rintro q (h | ⟨i, hi⟩)
    · exact h
    · cases hi
  refine ⟨?_, ?_, ?_, ?_, ?_, fun i _ _ => hzero i, ?_⟩
  · intro q hq
    rw [hpages q hq]
    exact hb
  · intro q hq
    rw [hpages q hq]
    exact hm
  · exact fun i t ht => absurd ht.symm (Option.some_ne_none t)
  · exact fun i ht => absurd ht.symm (Option.some_ne_none p)
  · exact fun i j t ht => absurd ht.symm (Option.some_ne_none t)
  · exact fun i t ht => absurd ht.symm (Option.some_ne_none t)

end Vm

end QuarkOS
