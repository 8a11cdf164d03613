import QuarkOS.Mm.Fork

/-!
# The heap of a task

`vm_brk_init` puts the break behind the page in which the last area of the image starts, and `sbrk`
moves it up. The area descriptor of the heap is the break and what was handed out at once, and `fork`
and `exit` walk it as an area.
-/

namespace QuarkOS

open Vm

def MmStruct.image (mm : MmStruct) : List VmArea := [mm.text, mm.rodata, mm.data, mm.bss]

def MmStruct.lastStart (mm : MmStruct) : Nat :=
  max (max (max mm.bss.va mm.text.va) mm.data.va) mm.rodata.va

theorem MmStruct.lastStart_mem (mm : MmStruct) : ∃ area ∈ mm.image, area.va = mm.lastStart := by
  simp only [image, List.mem_cons, List.not_mem_nil, or_false, exists_eq_or_imp, exists_eq_left, lastStart]
  omega

/-- The break `brk` is above the areas of the image, and so no page that is mapped from there on, in a
block of at most 4 MiB, has the page table entry of one of theirs. -/
structure HeapAbove (mm : MmStruct) (brk : Nat) : Prop where
  ends : ∀ area ∈ mm.image, area.va + area.size ≤ brk
  entries : ∀ area ∈ mm.image, ∀ a ∈ area.pages, ∀ n ≤ 1024, ∀ b ∈ pageRun n (pageCeil brk),
    vpn a ≠ vpn b

theorem mem_pageRun {a va n : Nat} (hva : va + n * 4096 ≤ 2 ^ 32) (h : a ∈ pageRun n va) :
    ∃ i < n, a = va + i * 4096 := by
  induction n generalizing va with
  | zero => exact absurd h List.not_mem_nil
  | succ n ih =>
    rcases List.mem_cons.1 h with rfl | h
    · exact ⟨0, Nat.succ_pos n, (Nat.add_zero _).symm⟩
    · cases n with
      | zero => exact absurd h List.not_mem_nil
      | succ n =>
        have hnext : nextPage va = va + 4096 := Nat.mod_eq_of_lt (by change va + 4096 < _; omega)
        rw [hnext] at h
        obtain ⟨i, hi, rfl⟩ := ih (by omega) h
        exact ⟨i + 1, Nat.succ_lt_succ hi, by omega⟩

theorem HeapAbove.of_ends {mm : MmStruct} {brk : Nat} (hmod : brk % 4096 = 0) (hlt : brk < kernelStart)
    (hsize : ∀ area ∈ mm.image, area.size % pageSize = 0)
    (hends : ∀ area ∈ mm.image, area.va + area.size ≤ brk) : HeapAbove mm brk := by
  refine ⟨hends, ?_⟩
  intro area harea a ha n hn b hb
  have hks : kernelStart = 0xc0000000 := rfl
  have hrounds : pageRounds area.size * 4096 = area.size := by
    have hmod : area.size % 4096 = 0 := hsize area harea
    rw [pageRounds]
    omega
  have hend := hends area harea
  obtain ⟨i, hi, rfl⟩ := mem_pageRun (by omega) ha
  rw [pageCeil_of_mod hmod] at hb
  obtain ⟨j, _, rfl⟩ := mem_pageRun (by omega) hb
  rw [vpn, vpn, Nat.shiftRight_eq_div_pow, Nat.shiftRight_eq_div_pow]
  have hlast : (i + 1) * 4096 ≤ pageRounds area.size * 4096 := Nat.mul_le_mul_right _ hi
  omega

theorem vmBrkInit_eq {mm : MmStruct} (hlt : pageCeil mm.lastStart + pageSize < kernelStart - 2 * pageSize) :
    vmBrkInit mm = .ok { mm with
      brk := { va := pageCeil mm.lastStart + pageSize, size := 0, flag := vmPres ||| vmUrw } } := by
  have hks : kernelStart - 2 * pageSize = 0xbfffe000 := rfl
  have hmod : (pageCeil mm.lastStart + pageSize) % 2 ^ 32 = pageCeil mm.lastStart + pageSize :=
    Nat.mod_eq_of_lt (by omega)
  rw [MmStruct.lastStart] at hlt hmod
  simp only [vmBrkInit, hmod, hlt, decide_true, assertk_true, ok_bind, MmStruct.lastStart]

/-- The heap starts above the image exactly when no area goes beyond the page in which the last of them
starts. -/
theorem vmBrkInit_above_iff {mm : MmStruct} (hsize : ∀ area ∈ mm.image, area.size % pageSize = 0)
    (hend : ∀ area ∈ mm.image, area.va + area.size < kernelStart - 3 * pageSize) :
    (∃ mm', vmBrkInit mm = .ok mm' ∧ HeapAbove mm mm'.brk.va) ↔
      ∀ area ∈ mm.image, area.va + area.size ≤ pageCeil mm.lastStart + pageSize := by
  have hks : kernelStart = 0xc0000000 := rfl
  have hps : pageSize = 4096 := rfl
  have hlast : pageCeil mm.lastStart + pageSize < kernelStart - 2 * pageSize := by
    obtain ⟨area, harea, hva⟩ := mm.lastStart_mem
    have hlt := hend area harea
    have hle := pageCeil_le mm.lastStart
    omega
  rw [vmBrkInit_eq hlast]
  constructor
  · rintro ⟨mm', hok, habove⟩
    cases hok
    exact habove.ends
  · intro hends
    refine ⟨_, rfl, HeapAbove.of_ends ?_ (by change pageCeil _ + pageSize < _; omega) hsize hends⟩
    have hmod := pageCeil_mod mm.lastStart
    change (pageCeil _ + pageSize) % 4096 = 0
    omega

def textImage (size : Nat) : MmStruct :=
  let none : VmArea := { va := 0, size := 0, flag := 0 }
  { text := { va := 0x1000, size, flag := vmPres ||| vmUr }, rodata := none, data := none, bss := none,
    brk := none, stack := none, size, pgdir := 0 }

theorem vmBrkInit_above_iff_textImage :
    ∃ mm', vmBrkInit (textImage 4096) = .ok mm' ∧ HeapAbove (textImage 4096) mm'.brk.va :=
  (vmBrkInit_above_iff (by decide +kernel) (by decide +kernel)).2 (by decide +kernel)

/-- The break of a text of two pages is in the middle of it. -/
theorem textImage_not_above : (∀ area ∈ (textImage 8192).image, area.size % pageSize = 0 ∧
      area.va + area.size < kernelStart - 3 * pageSize) ∧
    ∃ mm', vmBrkInit (textImage 8192) = .ok mm' ∧ mm'.brk.va = 0x2000 ∧
      ¬ HeapAbove (textImage 8192) mm'.brk.va := by
  refine ⟨by decide +kernel, _, vmBrkInit_eq (by decide +kernel), by decide +kernel, fun h => ?_⟩
  have hend := h.ends (textImage 8192).text (List.mem_cons_self)
  revert hend
  decide +kernel

namespace Vm

/-- Several calls, with the ranges they returned. -/
def sbrkRun (s : Vm) (mm : MmStruct) : List Nat → Except Fault (List (Nat × Nat) × MmStruct × Vm)
  | [] => .ok ([], mm, s)
  | size :: sizes => do
    let (addr, mm, s) ← s.sbrk mm size
    let (ranges, mm, s) ← s.sbrkRun mm sizes
    .ok ((addr, size) :: ranges, mm, s)

/-- The page at `va` is writable and no other mapping has its memory, neither of the page directories
`dirs` nor of the kernel. -/
structure OwnPage (s : Vm) (dirs : Set Nat) (pgdir va : Nat) : Prop where
  writable : UserWritable (s.userPte pgdir va)
  user : ∀ dir ∈ dirs, ∀ a < kernelStart, (dir = pgdir → vpn a ≠ vpn va) →
    s.userPte dir a &&& vmPres ≠ 0 →
    pageCeil (s.userPte dir a).toNat ≠ pageCeil (s.userPte pgdir va).toNat
  kernel : ∀ i, s.kPageTables i &&& vmPres ≠ 0 →
    pageCeil (s.kPageTables i).toNat ≠ pageCeil (s.userPte pgdir va).toNat

/-- What `sbrk` is to keep, after the calls that returned `ranges`. -/
structure HeapExact (s : Vm) (dirs : Set Nat) (mm : MmStruct) (ranges : List (Nat × Nat)) : Prop where
  contiguous : ranges.IsChain fun r r' => r'.1 = r.1 + r.2
  pages : ∀ r ∈ ranges, ∀ va ∈ pageRun (r.2 / pageSize) r.1, s.OwnPage dirs mm.pgdir va
  area : ∀ va, mm.brk.va ≤ va ∧ va < mm.brk.va + mm.brk.size ↔ ∃ r ∈ ranges, r.1 ≤ va ∧ va < r.1 + r.2

variable {s s' : Vm} {mm mm' : MmStruct} {n : Nat}

theorem sbrk_area {addr : Nat} (hn : n % pageSize = 0) (hok : s.sbrk mm n = .ok (addr, mm', s')) :
    mm'.brk.va = (mm.brk.va + n) % 2 ^ 32 ∧ mm'.brk.size = (mm.brk.size + n) % 2 ^ 32 ∧
      addr = (mm'.brk.va + 2 ^ 32 - n) % 2 ^ 32 ∧ mm'.pgdir = mm.pgdir := by
  rw [sbrk, pageCeil_of_mod hn] at hok
  obtain ⟨⟨page, s1⟩, _, hok⟩ := bind_eq_ok hok
  obtain ⟨s2, _, hret⟩ := bind_eq_ok hok
  cases hret
  exact ⟨rfl, rfl, rfl, rfl⟩

theorem heapExact_nil (dirs : Set Nat) (hbrk : mm.brk.size = 0) : HeapExact s dirs mm [] := by
  refine ⟨.nil, fun r hr => absurd hr List.not_mem_nil, fun va => ?_⟩
  rw [hbrk]
  constructor
  · omega
  · rintro ⟨r, hr, _⟩
    exact absurd hr List.not_mem_nil

theorem sbrk_not_exact {dirs : Set Nat} {addr : Nat} (hva : mm.brk.va < kernelStart)
    (hn : n % pageSize = 0) (hpos : 0 < n) (hle : n ≤ 2 ^ 22) (hok : s.sbrk mm n = .ok (addr, mm', s')) :
    ¬ HeapExact s' dirs mm' [(addr, n)] := by
  obtain ⟨hbrk, _, haddr, _⟩ := sbrk_area hn hok
  have hks : kernelStart = 0xc0000000 := rfl
  have hmem : addr ≤ addr ∧ addr < addr + n := by omega
  intro h
  obtain ⟨hlow, _⟩ := (h.area addr).2 ⟨(addr, n), List.mem_cons_self, hmem⟩
  omega

/-- The heap is exact after each call exactly when there is none. -/
theorem sbrkRun_exact_iff {sizes : List Nat} {ranges : List (Nat × Nat)} (dirs : Set Nat)
    (hbrk : mm.brk.size = 0) (hva : mm.brk.va < kernelStart)
    (hsizes : ∀ n ∈ sizes, n % pageSize = 0 ∧ 0 < n ∧ n ≤ 2 ^ 22)
    (hok : s.sbrkRun mm sizes = .ok (ranges, mm', s')) :
    (∀ k ≤ sizes.length, ∀ ranges' mm1 s1, s.sbrkRun mm (sizes.take k) = .ok (ranges', mm1, s1) →
      HeapExact s1 dirs mm1 ranges') ↔ sizes = [] := by
  constructor
  · intro h
    cases sizes with
    | nil => rfl
    | cons n sizes =>
      obtain ⟨hn, hpos, hle⟩ := hsizes n List.mem_cons_self
      obtain ⟨⟨addr, mm1, s1⟩, hfirst, _⟩ := bind_eq_ok hok
      have hone : s.sbrkRun mm ((n :: sizes).take 1) = .ok ([(addr, n)], mm1, s1) := by
        rw [List.take_succ_cons, List.take_zero, sbrkRun, hfirst]
        rfl
      have hexact := h 1 (Nat.succ_le_succ (Nat.zero_le _)) _ _ _ hone
      exact absurd hexact (sbrk_not_exact hva hn hpos hle hfirst)
  · rintro rfl k _ ranges' mm1 s1 hrun
    rw [List.take_nil] at hrun
    cases hrun
    exact heapExact_nil dirs hbrk

def smallBrk : Except Fault ((MmStruct × Vm) × List (Nat × Nat) × MmStruct × Vm) := do
  let (_, mm, s) ← smallSpace (fun _ _ _ => true) false 4096
  assertk (mm.brk = { va := 0x2000, size := 0, flag := vmPres ||| vmUrw })
  let (ranges, mm', s') ← s.sbrkRun mm [4096]
  assertk (ranges = [(0x2000, 4096)] ∧ mm'.brk.va = 0x3000 ∧ mm'.brk.size = 4096)
  .ok ((mm, s), ranges, mm', s')

theorem smallBrk_spec {ranges : List (Nat × Nat)} (hok : smallBrk = .ok ((mm, s), ranges, mm', s')) :
    mm.brk = { va := 0x2000, size := 0, flag := vmPres ||| vmUrw } ∧
      s.sbrkRun mm [4096] = .ok (ranges, mm', s') ∧ ranges = [(0x2000, 4096)] ∧
      mm'.brk.va = 0x3000 ∧ mm'.brk.size = 4096 := by
  obtain ⟨⟨_, mm1, s1⟩, _, hok⟩ := bind_eq_ok hok
  simp only [bind_ok_iff, Prod.exists] at hok
  obtain ⟨_, hbrk, ranges', mm2, s2, hrun, _, hres, hret⟩ := hok
  cases hret
  exact ⟨of_assertk hbrk, hrun, of_assertk hres⟩

theorem sbrkRun_exact_iff_smallBrk : ∃ (s : Vm) (mm : MmStruct) (ranges : List (Nat × Nat))
    (mm' : MmStruct) (s' : Vm), mm.brk.size = 0 ∧
    s.sbrkRun mm [4096] = .ok (ranges, mm', s') ∧
    ((∀ k ≤ 1, ∀ ranges' mm1 s1, s.sbrkRun mm ([4096].take k) = .ok (ranges', mm1, s1) →
      HeapExact s1 {mm.pgdir} mm1 ranges') ↔ [4096] = []) := by
  obtain ⟨⟨⟨mm, s⟩, ranges, mm', s'⟩, hok⟩ := exists_ok (x := smallBrk) (by decide +kernel)
  obtain ⟨hbrk, hrun, _⟩ := smallBrk_spec hok
  refine ⟨s, mm, ranges, mm', s', ?_, hrun, sbrkRun_exact_iff {mm.pgdir} ?_ ?_ ?_ hrun⟩
  · rw [hbrk]
  · rw [hbrk]
  · rw [hbrk]
    decide
  · decide

/-- The range that was returned is not in the descriptor, which covers a page that was not. -/
theorem smallBrk_not_exact : ∃ (s : Vm) (mm : MmStruct) (ranges : List (Nat × Nat))
    (mm' : MmStruct) (s' : Vm), mm.brk.size = 0 ∧
    s.sbrkRun mm [4096] = .ok (ranges, mm', s') ∧ ranges = [(0x2000, 4096)] ∧
    mm'.brk.va = 0x3000 ∧ mm'.brk.size = 4096 ∧ ¬ HeapExact s' {mm.pgdir} mm' ranges := by
  obtain ⟨⟨⟨mm, s⟩, ranges, mm', s'⟩, hok⟩ := exists_ok (x := smallBrk) (by decide +kernel)
  obtain ⟨hbrk, hrun, rfl, hva, hsize⟩ := smallBrk_spec hok
  refine ⟨s, mm, _, mm', s', ?_, hrun, rfl, hva, hsize, fun h => ?_⟩
  · rw [hbrk]
  · obtain ⟨hlow, _⟩ := (h.area 0x2000).2 ⟨_, List.mem_cons_self, by decide⟩
    omega

end Vm

end QuarkOS
