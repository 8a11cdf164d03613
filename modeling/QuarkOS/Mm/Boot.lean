import QuarkOS.Mm.AllocRuns
import QuarkOS.Mm.Space

/-!
# A machine with one region of memory

What `pmm_init` leaves behind for one region of `2 ^ k` pages: a single free block. The kernel has not
mapped any of its pages.
-/

namespace QuarkOS

open BuddyAllocator

def boot (k : Nat) : Vm where
  alloc := oneBlock k 0
  slabs := fun _ => { chunk := 0, size := 0, nAllocated := 0, magic := 0 }
  slabLock := spinlockInit
  kPageTables := fun _ => vmNpres
  pageDir := fun _ => vmNpres
  mem := fun _ _ => 0
  cr3 := 0

theorem boot_kernel {k : Nat} (hk : k ≤ maxOrder) :
    Vm.Kernel (boot k) ∅ (fun _ => []) ∧ Counted (boot k).alloc ∅ := by
  obtain ⟨howns, hcounted⟩ := oneBlock_owns 0 Vm.heads_heads hk
  refine ⟨⟨howns, Nat.mod_eq_zero_of_dvd ⟨256, rfl⟩, Nat.zero_lt_succ _, ?_, fun _ _ => rfl⟩, hcounted⟩
  have hpow : 2 ^ k ≤ 2 ^ 10 := Nat.pow_le_pow_right (by decide) hk
  change 0x100000 + 4096 * 2 ^ k ≤ 2 ^ 32
  omega

end QuarkOS
