import QuarkOS.Mm.PageCalls

/-!
# The self-test of the page allocator

`pmm_init` ends with `test_alloc`: thirty blocks are allocated and freed, and what the free lists hold is
compared with what they held before.

`__alloc_page` lowers the counter of free memory and `__free_page` does not raise it again. So the test, which
compares the lists and not the counter, leaves a counter that is too small by all that it allocated.
-/

namespace QuarkOS

open CList Dyadic Function

namespace BuddyAllocator

variable {s s' : BuddyAllocator} {n c k fuel x y : Nat} {header a : PageNode} {l : List PageNode}
  {body : Nat → PageNode → Except Fault Nat}

/-- A body that adds `c` is run once for every node. -/
theorem listForEach_eq (hbody : ∀ y hdr z, body y hdr = .ok z → z = (y + c) % 2 ^ 32)
    (hseg : Seg s.links a l header) (hnot : header ∉ l) (hx : x < 2 ^ 32)
    (hok : s.listForEach header body fuel (s.links.next a) x = .ok y) :
    y = (x + c * l.length) % 2 ^ 32 := by
  induction l generalizing a x fuel with
  | nil =>
    cases fuel with
    | zero => cases hok
    | succ fuel =>
      rw [hseg.1, listForEach, if_pos rfl] at hok
      cases hok
      exact (Nat.mod_eq_of_lt hx).symm
  | cons hdr l ih =>
    obtain ⟨hnext, _, hseg⟩ := hseg
    cases fuel with
    | zero => cases hok
    | succ fuel =>
      have hne : hdr ≠ header := fun he => hnot (he ▸ List.mem_cons_self)
      rw [hnext, listForEach, if_neg hne] at hok
      obtain ⟨z, hz, hok⟩ := bind_eq_ok hok
      obtain rfl := hbody x hdr z hz
      rw [ih hseg (fun hmem => hnot (List.mem_cons_of_mem _ hmem)) (Nat.mod_lt _ (by decide)) hok,
        Nat.mod_add_mod, List.length_cons, Nat.mul_succ, Nat.add_assoc, Nat.add_comm c]

theorem foldlM_range_eq {f : Nat → Nat → Except Fault Nat} {g : Nat → Nat}
    (hf : ∀ j < n, ∀ x < 2 ^ 32, ∀ y, f x j = .ok y → y = (x + g j) % 2 ^ 32)
    (hok : (List.range n).foldlM f 0 = .ok y) : y = (∑ j ∈ Finset.range n, g j) % 2 ^ 32 := by
  induction n generalizing y with
  | zero =>
    cases hok
    rfl
  | succ n ih =>
    rw [List.range_succ, List.foldlM_append] at hok
    obtain ⟨z, hz, hok⟩ := bind_eq_ok hok
    obtain ⟨y', hy', hret⟩ := bind_eq_ok hok
    cases hret
    have hsum := ih (fun j hj => hf j (by omega)) hz
    rw [hf n (Nat.lt_succ_self n) z (hsum ▸ Nat.mod_lt _ (by decide)) y hy', hsum, Nat.mod_add_mod,
      Finset.sum_range_succ]

theorem allocatorSize_eq {l : Nat → List PageNode} (hl : ∀ k ≤ maxOrder, Linked s.links (.root k) (l k))
    (hok : s.allocatorSize = .ok y) :
    y = (∑ k ∈ Finset.range (maxOrder + 1), 4096 * 2 ^ k * (l k).length) % 2 ^ 32 := by
  refine foldlM_range_eq (fun k hk x hx z hz => ?_) hok
  have hlinked := hl k (Nat.lt_succ_iff.1 hk)
  refine listForEach_eq (fun y hdr z hz => ?_) hlinked.1 hlinked.head_notMem hx hz
  obtain ⟨_, _, hz⟩ := bind_eq_ok hz
  obtain ⟨_, _, hz⟩ := bind_eq_ok hz
  cases hz
  rw [orderSize_eq]

variable {b : BlockAllocator}

/-- What `page_setup` gives to the page allocator is the memory of the regions exactly when they adjoin. -/
theorem pmmInit_sound_iff (hb : b.Ascending) (hok : s.pmmInit b = .ok s') :
    ∃ s1, s.pmmSetup b = .ok s1 ∧ (InitSound b.infos s1 ↔ Adjoins (pageFloor b.addr) 0 b.infos) := by
  obtain ⟨s1, hsetup, _⟩ := bind_eq_ok hok
  exact ⟨s1, hsetup, pmmSetup_sound_iff hb hsetup⟩

/-- One region from 1 MiB on, with two blocks of 4 MiB behind the array of page structures. -/
def wideRegion : BlockAllocator where
  addr := 0x100000
  size := 0x821000
  infos := [⟨0x100000, 0x821000⟩]

/-- What `pmm_init_mm` leaves of it. -/
def wideRest : BlockAllocator where
  addr := 0x120880
  size := 0x800780
  infos := [⟨0x120880, 0x800780⟩]

theorem exists_pmmInit {b' : BlockAllocator}
    (h : passes ((blank 0).pmmInitMm b) (fun (s, b1) => b1 = b' && (s.pmmInit b').isOk) = true) :
    ∃ s s', (blank 0).pmmInitMm b = .ok (s, b') ∧ s.pmmInit b' = .ok s' := by
  obtain ⟨⟨s, b1⟩, hmm, hrun⟩ := exists_of_passes _ h
  obtain ⟨hrest, hinit⟩ := Bool.and_eq_true_iff.1 hrun
  obtain rfl := of_decide_eq_true hrest
  obtain ⟨s', hok⟩ := exists_ok hinit
  exact ⟨s, s', hmm, hok⟩

theorem wideRegion_pmmInit : ∃ s s', (blank 0).pmmInitMm wideRegion = .ok (s, wideRest) ∧
    s.pmmInit wideRest = .ok s' := exists_pmmInit (by decide +kernel)

theorem pmmInit_sound_iff_wideRegion : ∃ s s1 s', (blank 0).pmmInitMm wideRegion = .ok (s, wideRest) ∧
    s.pmmInit wideRest = .ok s' ∧ s.pmmSetup wideRest = .ok s1 ∧ InitSound wideRest.infos s1 := by
  obtain ⟨s, s', hmm, hok⟩ := wideRegion_pmmInit
  have hb : wideRest.Ascending :=
    ⟨List.pairwise_singleton _ _, by decide, by decide, by decide, by decide⟩
  obtain ⟨s1, hsetup, hiff⟩ := pmmInit_sound_iff hb hok
  refine ⟨s, s1, s', hmm, hok, hsetup, hiff.2 ?_⟩
  exact ⟨by decide, fun _ => ⟨by decide, fun _ _ _ => dvd_zero _⟩, trivial⟩

/-- The same with 4 MiB missing between the two blocks. -/
def holeRegions : BlockAllocator where
  addr := 0x100000
  size := 0x831000
  infos := [⟨0x100000, 0x431000⟩, ⟨0x931000, 0x400000⟩]

def holeRest : BlockAllocator where
  addr := 0x130c80
  size := 0x800380
  infos := [⟨0x130c80, 0x400380⟩, ⟨0x931000, 0x400000⟩]

theorem holeRegions_pmmInit : ∃ s s', (blank 0).pmmInitMm holeRegions = .ok (s, holeRest) ∧
    s.pmmInit holeRest = .ok s' := exists_pmmInit (by decide +kernel)

/-- The first page of the second region gets the page structure of the page behind the first one. -/
theorem pmmInit_hole_not_sound : ∃ s b s1 s', (blank 0).pmmInitMm holeRegions = .ok (s, b) ∧
    b.Ascending ∧ s.pmmSetup b = .ok s1 ∧ s.pmmInit b = .ok s' ∧ ¬ InitSound b.infos s1 := by
  obtain ⟨s, s', hmm, hok⟩ := holeRegions_pmmInit
  obtain ⟨s1, hsetup, _⟩ := bind_eq_ok hok
  refine ⟨s, holeRest, s1, s', hmm, ⟨by decide, by decide, by decide, by decide, by decide⟩, hsetup, hok, ?_⟩
  intro hsound
  obtain ⟨c, hc, hic⟩ := pmmSetup_covered hsetup (i := 1024) (by decide +kernel)
  obtain ⟨haddr, _⟩ := pmmSetup_spec hsetup
  obtain ⟨info, hmem, hpage⟩ := hsound.inside c hc 1024 hic
  have hgap : s1.pageAddr 1024 = 0x531000 := by
    rw [pageAddr, haddr]
    decide
  rw [hgap] at hpage
  rcases List.mem_cons.1 hmem with rfl | hmem
  · exact absurd hpage.2.2 (by decide)
  · obtain rfl := List.mem_singleton.1 hmem
    exact absurd hpage.2.1 (by decide)

/-- `allocator.size` is the sum of the sizes of the blocks in the free lists. -/
def SizeExact (s : BuddyAllocator) : Prop :=
  ∃ l : Nat → List PageNode, (∀ k ≤ maxOrder, Linked s.links (.root k) (l k)) ∧
    s.size = ∑ k ∈ Finset.range (maxOrder + 1), 4096 * 2 ^ k * (l k).length

theorem splitBlock_size {page logSize j : Nat} (hok : splitBlock page logSize s j = .ok s') :
    s'.size = s.size := by
  induction j generalizing s with
  | zero =>
    cases hok
    rfl
  | succ j ih =>
    rw [splitBlock] at hok
    split at hok
    · obtain ⟨_, _, hok⟩ := bind_eq_ok hok
      have hsize := ih hok
      exact hsize
    · cases hok
      rfl

theorem allocPage_size {m addr : Nat} (hok : s.allocPage m = .ok (addr, s')) :
    (s'.size + fixSize m) % 2 ^ 32 = s.size % 2 ^ 32 := by
  obtain ⟨⟨p, s1⟩, halloc, hret⟩ := bind_eq_ok hok
  cases hret
  obtain ⟨_, hmax⟩ := fixSize_of_ok halloc
  obtain ⟨_, _, hok⟩ := bind_eq_ok halloc
  obtain ⟨_, _, hok⟩ := bind_eq_ok hok
  obtain ⟨_, _, hok⟩ := bind_eq_ok hok
  dsimp only at hok
  split at hok
  · cases hok
  · simp only [bind_ok_iff] at hok
    obtain ⟨_, _, _, _, s2, hsplit, hok⟩ := hok
    cases hok
    have hsize : s2.size = (s.setLock _).size := splitBlock_size hsplit
    change ((s2.size + 2 ^ 32 - fixSize m) % 2 ^ 32 + fixSize m) % 2 ^ 32 = s.size % 2 ^ 32
    change s2.size = s.size at hsize
    omega

theorem allocPages_size {sizes pages : List Nat} (hok : allocPages sizes s = .ok (pages, s')) :
    (s'.size + (sizes.map fixSize).sum) % 2 ^ 32 = s.size % 2 ^ 32 := by
  induction sizes generalizing s pages with
  | nil =>
    cases hok
    rfl
  | cons size sizes ih =>
    obtain ⟨⟨addr, s1⟩, halloc, hok⟩ := bind_eq_ok hok
    obtain ⟨⟨rest, s2⟩, hrest, hok⟩ := bind_eq_ok hok
    cases hok
    have hfirst := allocPage_size halloc
    have hrest := ih hrest
    rw [List.map_cons, List.sum_cons]
    omega

theorem coalesce_size {page page' order : Nat} (hok : coalesce s page order fuel = .ok (page', s')) :
    s'.size = s.size := by
  induction fuel generalizing s page order with
  | zero =>
    cases hok
    rfl
  | succ fuel ih =>
    rw [coalesce] at hok
    split at hok
    · cases hok
      rfl
    · split at hok
      · cases hok
        rfl
      · split at hok
        · cases hok
          rfl
        · obtain ⟨_, _, hok⟩ := bind_eq_ok hok
          have hsize := ih hok
          exact hsize

theorem freePage_size {addr : Nat} {ret : Int} (hok : s.freePage addr = .ok (ret, s')) : s'.size = s.size := by
  obtain ⟨_, _, hok⟩ := bind_eq_ok hok
  obtain ⟨page, _, hok⟩ := bind_eq_ok hok
  cases page with
  | none =>
    cases hok
    rfl
  | some page =>
    obtain ⟨_, _, hok⟩ := bind_eq_ok hok
    obtain ⟨s1, hfree, hok⟩ := bind_eq_ok hok
    cases hok
    obtain ⟨_, _, hfree⟩ := bind_eq_ok hfree
    obtain ⟨_, _, hfree⟩ := bind_eq_ok hfree
    obtain ⟨rwlock, _, hfree⟩ := bind_eq_ok hfree
    dsimp only at hfree
    split at hfree
    · cases hfree
      rfl
    · obtain ⟨_, _, hfree⟩ := bind_eq_ok hfree
      obtain ⟨_, _, hfree⟩ := bind_eq_ok hfree
      obtain ⟨⟨low, s2⟩, hjoin, hfree⟩ := bind_eq_ok hfree
      cases hfree
      have hsize := coalesce_size hjoin
      exact hsize

theorem releasePages_size {pages : List Nat} (hok : releasePages pages s = .ok s') : s'.size = s.size := by
  induction pages generalizing s with
  | nil =>
    cases hok
    rfl
  | cons addr pages ih =>
    obtain ⟨⟨_, s1⟩, hfree, hok⟩ := bind_eq_ok hok
    exact (ih hok).trans (freePage_size hfree)

/-- The lists hold what they held before, but the counter lacks the 1043 pages that were freed. -/
theorem testAlloc_size (hok : s.testAlloc = .ok s') :
    s'.allocatorSize = .ok (s.pageCnt <<< 12 % 2 ^ 32) ∧
      (s'.size + 1043 * 4096) % 2 ^ 32 = s.size % 2 ^ 32 := by
  obtain ⟨_, _, hok⟩ := bind_eq_ok hok
  simp only [bind_ok_iff, Prod.exists] at hok
  obtain ⟨size, _, _, _, _, hassert, pages, s1, halloc, pages2, s2, halloc', s3, hfree, s4, hfree', size',
    hsize', _, hassert', _, _, _, _, hok⟩ := hok
  cases hok
  have hsize := of_assertk hassert
  have hsame := of_assertk hassert'
  have h1 := allocPages_size halloc
  have h2 := allocPages_size halloc'
  have hsum : (((List.range maxOrder).map orderSize).map fixSize).sum = 1023 * 4096 := by decide +kernel
  have hsum' : ((List.replicate 20 0x1000).map fixSize).sum = 20 * 4096 := by decide +kernel
  rw [hsum] at h1
  rw [hsum'] at h2
  refine ⟨by rw [hsize', hsame, hsize], ?_⟩
  rw [releasePages_size hfree', releasePages_size hfree]
  omega

theorem testAlloc_not_sizeExact (hsize : s.size % 2 ^ 32 = 4096 * s.pageCnt % 2 ^ 32)
    (hok : s.testAlloc = .ok s') : ¬ s'.SizeExact := by
  rintro ⟨l, hl, hexact⟩
  obtain ⟨hlists, hcount⟩ := testAlloc_size hok
  have hsum := allocatorSize_eq hl hlists
  rw [← hexact, Nat.shiftLeft_eq] at hsum
  omega

/-- The counter is wrong as soon as `pmm_init` is done, on whatever memory. -/
theorem pmmInit_not_sizeExact (hok : s.pmmInit b = .ok s') : ¬ s'.SizeExact := by
  obtain ⟨s1, hsetup, htest⟩ := bind_eq_ok hok
  obtain ⟨_, _, ⟨_, hsize⟩, _⟩ := pmmSetup_spec hsetup
  exact testAlloc_not_sizeExact hsize htest

theorem pmmInit_not_sizeExact_holeRegions : ∃ s s', (blank 0).pmmInitMm holeRegions = .ok (s, holeRest) ∧
    s.pmmInit holeRest = .ok s' ∧ ¬ s'.SizeExact := by
  obtain ⟨s, s', hmm, hok⟩ := holeRegions_pmmInit
  exact ⟨s, s', hmm, hok, pmmInit_not_sizeExact hok⟩

/-- No call is needed after `pmm_init` of one region. -/
theorem wideRegion_not_sizeExact : ∃ s b s0 s', (blank 0).pmmInitMm wideRegion = .ok (s, b) ∧
    s.pmmInit b = .ok s0 ∧ Calls (fun s c => c.InArray s) s0 s' ∧ ¬ s'.SizeExact := by
  obtain ⟨s, s', hmm, hok⟩ := wideRegion_pmmInit
  obtain ⟨s1, hsetup, htest⟩ := bind_eq_ok hok
  obtain ⟨_, _, ⟨_, hsize⟩, _⟩ := pmmSetup_spec hsetup
  exact ⟨s, _, s', s', hmm, hok, .start, testAlloc_not_sizeExact hsize htest⟩

end BuddyAllocator

end QuarkOS
