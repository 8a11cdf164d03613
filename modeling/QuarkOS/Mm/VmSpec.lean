import QuarkOS.Mm.BuddyOps
import QuarkOS.Mm.Uvm

/-!
# What the kernel mappings keep

`Kernel` is the state between two calls: the page allocator owns the blocks `A` and its pages lie in
one piece of physical memory. A page that the kernel has mapped (`KMapped`) is reached at its physical
address plus `KERNEL_START`. `Grows` is what every allocation keeps: whatever belongs to a block that
was allocated before is left alone.
-/

namespace QuarkOS

open CList Dyadic BuddyAllocator Function

/-! ### Addresses in page table entries -/

theorem pageCeil_mod (addr : Nat) : pageCeil addr % 4096 = 0 := by
  rw [pageCeil]
  exact Nat.mul_mod_left _ _

theorem pageCeil_of_mod {addr : Nat} (h : addr % 4096 = 0) : pageCeil addr = addr := by
  rw [pageCeil]
  omega

variable {pa : Nat} {flag : Pte}

section

variable (hpa : pa % 4096 = 0) (hlt : pa < 2 ^ 32) (hflag : flag.toNat < 4096)
include hpa hlt hflag

theorem entry_toNat : (BitVec.ofNat 32 pa ||| flag).toNat = pa + flag.toNat := by
  have hdiv : pa = 2 ^ 12 * (pa / 4096) := by omega
  rw [BitVec.toNat_or, BitVec.toNat_ofNat, Nat.mod_eq_of_lt hlt]
  conv_lhs => rw [hdiv]
  conv_rhs => rw [hdiv]
  exact (Nat.two_pow_add_eq_or_of_lt hflag _).symm

theorem pageCeil_entry : pageCeil (BitVec.ofNat 32 pa ||| flag).toNat = pa := by
  rw [entry_toNat hpa hlt hflag, pageCeil]
  omega

theorem entry_frame : (BitVec.ofNat 32 pa ||| flag).toNat >>> 12 = pa >>> 12 := by
  rw [entry_toNat hpa hlt hflag, Nat.shiftRight_eq_div_pow, Nat.shiftRight_eq_div_pow]
  omega

end

theorem and_pres_eq_zero (e : Pte) : e &&& vmPres = 0 ↔ e.getLsbD 0 = false := by
  have hone : vmPres = 1#32 := rfl
  rw [hone, BitVec.and_one_eq_setWidth_ofBool_getLsbD]
  cases e.getLsbD 0 <;> decide

theorem entry_present (hflag : flag.getLsbD 0 = true) : (BitVec.ofNat 32 pa ||| flag) &&& vmPres ≠ 0 := by
  rw [Ne, and_pres_eq_zero, BitVec.getLsbD_or, hflag, Bool.or_true]
  exact Bool.noConfusion

namespace Vm

variable {s s' : Vm} {A A' : Set Block} {N : PageNode → List PageNode} {p : Nat}

/-! ### Frames -/

def frame (s : Vm) (p : Nat) : Nat := s.alloc.pageAddr p >>> 12

def kva (s : Vm) (p : Nat) : Nat := kernelStart + s.alloc.pageAddr p

/-- The heads of the lists of slabs with free chunks. -/
def partHeads : Set PageNode := {a | (∃ i < listSize, a = .slab i) ∨ ∃ c, a = .cacheList c}

/-- The list for the slabs of a list once they have no free chunk. -/
def fullOf : PageNode → PageNode
  | .cacheList c => .fullList c
  | _ => .fullSlab

def fullHeads : Set PageNode := {a | a = .fullSlab ∨ ∃ c, a = .fullList c}

/-- The heads of the lists that pages are linked in. -/
def heads : Set PageNode := roots ∪ partHeads ∪ fullHeads

theorem heads_heads : Heads heads := by
  refine ⟨fun a ha => Or.inl (Or.inl ha), ?_⟩
  rintro i ((⟨_, _, h⟩ | ⟨_, _, h⟩ | ⟨_, h⟩) | h | ⟨_, h⟩) <;> cases h

variable {a : PageNode} {o i : Nat} {b : Block} {flags : Pte}

theorem mem_heads_of_part (ha : a ∈ partHeads) : a ∈ heads ∧ a ∉ roots := by
  refine ⟨Or.inl (Or.inr ha), ?_⟩
  rintro ⟨k, _, rfl⟩
  rcases ha with ⟨_, _, h⟩ | ⟨_, h⟩ <;> cases h

theorem mem_heads_of_full (ha : a ∈ fullHeads) : a ∈ heads ∧ a ∉ roots := by
  refine ⟨Or.inr ha, ?_⟩
  rintro ⟨k, _, rfl⟩
  rcases ha with h | ⟨_, h⟩ <;> cases h

theorem fullOf_mem (ha : a ∈ partHeads) : fullOf a ∈ fullHeads := by
  rcases ha with ⟨_, _, rfl⟩ | ⟨c, rfl⟩
  · exact Or.inl rfl
  · exact Or.inr ⟨c, rfl⟩

theorem part_ne_full {f : PageNode} (ha : a ∈ partHeads) (hf : f ∈ fullHeads) : a ≠ f := by
  rintro rfl
  rcases ha with ⟨_, _, rfl⟩ | ⟨_, rfl⟩ <;> rcases hf with h | ⟨_, h⟩ <;> cases h

/-- The state between two calls, with the allocated blocks and the lists of the slab allocator. -/
structure Kernel (s : Vm) (A : Set Block) (N : PageNode → List PageNode) : Prop where
  owns : s.alloc.Owns heads A N
  aligned : s.alloc.addr % 4096 = 0
  pos : 0 < s.alloc.addr
  top : s.alloc.addr + 4096 * s.alloc.pageCnt ≤ 2 ^ 32
  magic : ∀ i < s.alloc.pageCnt, (s.alloc.pages i).magic = pageMagic

section

variable (hk : Kernel s A N) (hp : p < s.alloc.pageCnt)
include hk hp

theorem Kernel.pageAddr_eq : s.alloc.pageAddr p = s.alloc.addr + 4096 * p := by
  have htop := hk.top
  rw [pageAddr, Nat.shiftLeft_eq, Nat.mod_eq_of_lt] <;> omega

theorem Kernel.pageAddr_mod : s.alloc.pageAddr p % 4096 = 0 := by
  have := hk.aligned
  rw [hk.pageAddr_eq hp]
  omega

theorem Kernel.pageAddr_lt : s.alloc.pageAddr p < 2 ^ 32 := by
  have := hk.top
  rw [hk.pageAddr_eq hp]
  omega

theorem Kernel.frame_eq : s.frame p = s.alloc.addr / 4096 + p := by
  have := hk.aligned
  rw [frame, hk.pageAddr_eq hp, Nat.shiftRight_eq_div_pow]
  omega

theorem Kernel.frame_inj {q : Nat} (hq : q < s.alloc.pageCnt) (h : s.frame p = s.frame q) : p = q := by
  rw [hk.frame_eq hp, hk.frame_eq hq] at h
  omega

theorem Kernel.getPage : s.alloc.getPage (s.alloc.pageAddr p) = .ok (some p) := by
  have hmod := hk.pageAddr_mod hp
  have heq := hk.pageAddr_eq hp
  have hidx : (s.alloc.pageAddr p - s.alloc.addr) >>> 12 = p := by
    rw [heq, Nat.shiftRight_eq_div_pow]
    omega
  rw [BuddyAllocator.getPage, if_neg (by omega), if_neg (by omega)]
  simp only [hidx, hk.magic p hp, decide_true, assertk_true, ok_bind]

end

/-! ### Contents of a frame -/

theorem setFrame_self (s : Vm) (f : Nat) : s.setFrame f (s.mem f) = s := by
  have hmem : (fun g => if g = f then s.mem f else s.mem g) = s.mem := by
    funext g
    split
    · rename_i h
      rw [h]
    · rfl
  rw [setFrame, hmem]

theorem setFrame_setFrame (s : Vm) (f : Nat) (words words' : Nat → BitVec 32) :
    (s.setFrame f words).setFrame f words' = s.setFrame f words' := by
  rw [setFrame, setFrame, setFrame]
  congr 1
  funext g
  by_cases hg : g = f
  · rw [if_pos hg, if_pos hg]
  · rw [if_neg hg, if_neg hg]
    exact if_neg hg

theorem setFrame_frame (s : Vm) (f p : Nat) (words : Nat → BitVec 32) :
    (s.setFrame f words).frame p = s.frame p := rfl

theorem setMem_eq (s : Vm) (f w : Nat) (x : BitVec 32) :
    s.setMem f w x = s.setFrame f (update (s.mem f) w x) := by
  rw [setMem, setFrame]
  congr 1
  funext g v
  by_cases hg : g = f
  · subst hg
    rw [if_pos rfl, update_apply]
    exact if_congr (and_iff_right rfl) rfl rfl
  · rw [if_neg hg, if_neg fun h => hg h.1]

/-! ### Kernel mappings -/

/-- The kernel reaches the page at its kernel address. -/
structure KMapped (s : Vm) (p : Nat) : Prop where
  data : (s.alloc.pages p).data = s.kva p
  lt : s.alloc.pageAddr p < physTop
  entry : presentFrame (s.kPageTables (s.frame p)) = .ok (s.frame p)

theorem presentFrame_ok {e : Pte} {f : Nat} (h : presentFrame e = .ok f) :
    e &&& vmPres ≠ 0 ∧ f = e.toNat >>> 12 := by
  rw [presentFrame] at h
  split at h
  · cases h
  · rename_i hne
    exact ⟨hne, (Except.ok.inj h).symm⟩

theorem kva_frame (hmod : s.alloc.pageAddr p % 4096 = 0) (ho : o < 4096) :
    (s.kva p + o - kernelStart) >>> 12 = s.frame p := by
  rw [kva, frame, Nat.shiftRight_eq_div_pow, Nat.shiftRight_eq_div_pow]
  omega

theorem frameAt_kva (hentry : presentFrame (s.kPageTables (s.frame p)) = .ok (s.frame p))
    (hmod : s.alloc.pageAddr p % 4096 = 0) (ho : o < 4096) :
    s.frameAt (s.kva p + o) = .ok (s.frame p) := by
  have hge : kernelStart ≤ s.kva p + o := by
    rw [kva]
    omega
  rw [Vm.frameAt, if_pos hge, kva_frame hmod ho, hentry]

theorem KMapped.frameAt (hm : KMapped s p) (hmod : s.alloc.pageAddr p % 4096 = 0)
    (ho : o < 4096) : s.frameAt (s.kva p + o) = .ok (s.frame p) :=
  frameAt_kva hm.entry hmod ho

theorem kva_word (hmod : s.alloc.pageAddr p % 4096 = 0) (hi : i < 1024) :
    (s.kva p + 4 * i) % 4096 / 4 = i := by
  have : kernelStart % 4096 = 0 := by decide
  rw [kva]
  omega

def bytes (s : Vm) (p : Nat) : Bytes.Area := Bytes.ofWords (s.mem (s.frame p))

theorem setFrame_bytes (s : Vm) (p : Nat) (b : Bytes.Area) :
    (s.setFrame (s.frame p) (Bytes.toWords b)).bytes p = b := by
  have hmem : (s.setFrame (s.frame p) (Bytes.toWords b)).mem (s.frame p) = Bytes.toWords b := if_pos rfl
  rw [bytes, setFrame_frame, hmem, Bytes.ofWords_toWords]

theorem kva_add_lt (hm : KMapped s p) (ho : o ≤ 4096) : s.kva p + o < 2 ^ 32 := by
  have hlt : s.alloc.pageAddr p < 0x3e000000 := hm.lt
  have hks : kernelStart = 0xc0000000 := rfl
  rw [kva]
  omega

theorem kva_offset (hmod : s.alloc.pageAddr p % 4096 = 0) (ho : o < 4096) : (s.kva p + o) % 4096 = o := by
  have : kernelStart % 4096 = 0 := by decide
  rw [kva]
  omega

theorem KMapped.setFrame {f : Nat} {c : Nat → BitVec 32} (hm : KMapped s p) : KMapped (s.setFrame f c) p :=
  ⟨hm.data, hm.lt, hm.entry⟩

theorem KMapped.loadBytes (hm : KMapped s p) (hmod : s.alloc.pageAddr p % 4096 = 0) (w : Nat) :
    ∀ {o : Nat}, o + w ≤ 4096 → s.loadBytes (s.kva p + o) w = .ok (Bytes.load (s.bytes p) o w) := by
  induction w with
  | zero =>
    intro o _
    rfl
  | succ w ih =>
    intro o ho
    have hlt := kva_add_lt hm (o := o + 1) (by omega)
    rw [Vm.loadBytes, loadByte, hm.frameAt hmod (by omega), Nat.add_assoc, Nat.mod_eq_of_lt hlt,
      ih (by omega), kva_offset hmod (by omega)]
    rfl

theorem KMapped.storeBytes (w : Nat) : ∀ {s : Vm} {o v : Nat}, KMapped s p →
    s.alloc.pageAddr p % 4096 = 0 → o + w ≤ 4096 → s.storeBytes (s.kva p + o) v w =
      .ok (s.setFrame (s.frame p) (Bytes.toWords (Bytes.store (s.bytes p) o w v))) := by
  induction w with
  | zero =>
    intro s o v _ _ _
    rw [Vm.storeBytes, Bytes.store_zero, bytes, Bytes.toWords_ofWords, setFrame_self]
  | succ w ih =>
    intro s o v hm hmod ho
    have hlt := kva_add_lt hm (o := o + 1) (by omega)
    have hrest := ih (o := o + 1) (v := v / 256) (hm.setFrame (f := s.frame p)
      (c := Bytes.toWords (update (s.bytes p) o (BitVec.ofNat 8 v)))) hmod (by omega)
    rw [Vm.storeBytes, storeByte, hm.frameAt hmod (by omega), kva_offset hmod (by omega), Nat.add_assoc,
      Nat.mod_eq_of_lt hlt]
    rw [setFrame_frame, setFrame_setFrame, setFrame_bytes, Bytes.store_succ] at hrest
    exact hrest

section

variable (hm : KMapped s p) (hmod : s.alloc.pageAddr p % 4096 = 0)
include hm hmod

theorem KMapped.storeByte (hi : i < 4096) (x : BitVec 8) : s.storeByte (s.kva p + i) x =
      .ok (s.setFrame (s.frame p) (Bytes.toWords (update (s.bytes p) i x))) := by
  rw [Vm.storeByte, hm.frameAt hmod hi, kva_offset hmod hi]
  rfl

theorem KMapped.loadWord (ho : o + 4 ≤ 4096) :
    s.load (s.kva p + o) = .ok (BitVec.ofNat 32 (Bytes.load (s.bytes p) o 4)) := by
  rw [Vm.load]
  split
  · rename_i halign
    have hks : kernelStart % 4096 = 0 := by decide
    have ho4 : o = 4 * (o / 4) := by
      rw [kva] at halign
      omega
    rw [hm.frameAt hmod (by omega), kva_offset hmod (by omega)]
    conv_rhs => rw [ho4]
    rw [bytes, Bytes.load_ofWords, BitVec.ofNat_toNat, BitVec.setWidth_eq]
    rfl
  · rw [hm.loadBytes hmod 4 ho]
    rfl

theorem KMapped.storeWord (ho : o + 4 ≤ 4096) (x : BitVec 32) : s.store (s.kva p + o) x =
      .ok (s.setFrame (s.frame p) (Bytes.toWords (Bytes.store (s.bytes p) o 4 x.toNat))) := by
  rw [Vm.store]
  split
  · rename_i halign
    have hks : kernelStart % 4096 = 0 := by decide
    have ho4 : o = 4 * (o / 4) := by
      rw [kva] at halign
      omega
    rw [hm.frameAt hmod (by omega), kva_offset hmod (by omega)]
    conv_rhs => rw [ho4]
    rw [bytes, Bytes.toWords_store, ← setMem_eq]
    rfl
  · exact KMapped.storeBytes 4 hm hmod ho

end

theorem kva_aligned (hmod : s.alloc.pageAddr p % 4096 = 0) (i : Nat) : (s.kva p + 4 * i) % 4 = 0 := by
  have : kernelStart % 4096 = 0 := by decide
  rw [kva]
  omega

section

variable (hm : KMapped s p) (hmod : s.alloc.pageAddr p % 4096 = 0)
include hm hmod

theorem KMapped.load (hi : i < 1024) : s.load (s.kva p + 4 * i) = .ok (s.mem (s.frame p) i) := by
  rw [Vm.load, if_pos (kva_aligned hmod i), hm.frameAt hmod (by omega)]
  simp only [ok_bind, kva_word hmod hi]

theorem KMapped.store (hi : i < 1024) (x : BitVec 32) :
    s.store (s.kva p + 4 * i) x = .ok (s.setMem (s.frame p) i x) := by
  rw [Vm.store, if_pos (kva_aligned hmod i), hm.frameAt hmod (by omega)]
  simp only [ok_bind, kva_word hmod hi]

theorem KMapped.v2p : s.v2p (s.kva p) = .ok (s.alloc.pageAddr p) := by
  obtain ⟨_, hframe⟩ := presentFrame_ok hm.entry
  have hge : kernelStart ≤ s.kva p := Nat.le_add_right _ _
  have hidx : (s.kva p - kernelStart) >>> 12 = s.frame p := by
    rw [kva, frame, Nat.add_sub_cancel_left]
  rw [Vm.v2p, getPageTableEntry]
  simp only [hge, decide_true, assertk_true, ok_bind, hidx]
  rw [frame, Nat.shiftRight_eq_div_pow, Nat.shiftRight_eq_div_pow] at hframe
  rw [pageCeil]
  congr 1
  rw [frame, Nat.shiftRight_eq_div_pow]
  omega

end

/-! ### State updates -/

@[simp] theorem setAlloc_alloc (s : Vm) (a : BuddyAllocator) : (s.setAlloc a).alloc = a := rfl

@[simp] theorem modifyPage_alloc (s : Vm) (q : Nat) (f : Page → Page) :
    (s.modifyPage q f).alloc = s.alloc.modifyPage q f := rfl

@[simp] theorem setEntry_alloc (s : Vm) (i : Nat) (e : Pte) : (s.setEntry i e).alloc = s.alloc := rfl

@[simp] theorem setMem_alloc (s : Vm) (f w : Nat) (x : BitVec 32) :
    (s.setMem f w x).alloc = s.alloc := rfl

@[simp] theorem setEntry_kPageTables (s : Vm) (i j : Nat) (e : Pte) :
    (s.setEntry i e).kPageTables j = if j = i then e else s.kPageTables j := rfl

@[simp] theorem setMem_mem (s : Vm) (f w g v : Nat) (x : BitVec 32) :
    (s.setMem f w x).mem g v = if g = f ∧ v = w then x else s.mem g v := rfl

theorem Kernel.congr (hk : Kernel s A N) (h : s'.alloc = s.alloc) : Kernel s' A N := by
  refine ⟨?_, ?_, ?_, ?_, ?_⟩ <;> rw [h]
  · exact hk.owns
  · exact hk.aligned
  · exact hk.pos
  · exact hk.top
  · exact hk.magic

theorem Kernel.modifyPage {f : Page → Page} (hk : Kernel s A N)
    (hhead : pageHead (f (s.alloc.pages p)) = pageHead (s.alloc.pages p))
    (hsize : (f (s.alloc.pages p)).size = (s.alloc.pages p).size)
    (hmagic : (f (s.alloc.pages p)).magic = (s.alloc.pages p).magic) :
    Kernel (s.modifyPage p f) A N := by
  refine ⟨?_, hk.aligned, hk.pos, hk.top, ?_⟩
  · refine hk.owns.congr rfl rfl ?_ ?_
    · intro i
      by_cases hi : i = p
      · subst hi
        simp [hhead]
      · simp [hi]
    · intro i
      by_cases hi : i = p
      · subst hi
        simp [hsize]
      · simp [hi]
  · intro i hi
    rw [← hk.magic i hi]
    by_cases hip : i = p
    · subst hip
      simp [hmagic]
    · simp [hip]

/-! ### What an allocation leaves alone -/

/-- From `s` to `s'` the blocks `A` have become `A'`. The pages of the blocks `A` are as they were,
but for the contents of the pages `P`. -/
structure Grows (s s' : Vm) (A A' : Set Block) (P : Set Nat) : Prop where
  sub : A ⊆ A'
  addr : s'.alloc.addr = s.alloc.addr
  pageCnt : s'.alloc.pageCnt = s.alloc.pageCnt
  page : ∀ b ∈ A, ∀ q ∈ b, s'.alloc.pages q = s.alloc.pages q
  entry : ∀ b ∈ A, ∀ q ∈ b, s'.kPageTables (s.frame q) = s.kPageTables (s.frame q)
  mem : ∀ b ∈ A, ∀ q ∈ b, q ∉ P → s'.mem (s.frame q) = s.mem (s.frame q)
  pageDir : s'.pageDir = s.pageDir
  cr3 : s'.cr3 = s.cr3

variable {s'' : Vm} {A'' : Set Block} {P Q : Set Nat}

theorem Grows.pageAddr (hg : Grows s s' A A' P) (q : Nat) : s'.alloc.pageAddr q = s.alloc.pageAddr q := by
  rw [BuddyAllocator.pageAddr, BuddyAllocator.pageAddr, hg.addr]

theorem Grows.frame (hg : Grows s s' A A' P) (q : Nat) : s'.frame q = s.frame q := by
  rw [Vm.frame, Vm.frame, hg.pageAddr]

theorem Grows.kva (hg : Grows s s' A A' P) (q : Nat) : s'.kva q = s.kva q := by
  rw [Vm.kva, Vm.kva, hg.pageAddr]

theorem Grows.rfl (s : Vm) (A : Set Block) (P : Set Nat) : Grows s s A A P :=
  ⟨subset_rfl, Eq.refl _, Eq.refl _, fun _ _ _ _ => Eq.refl _, fun _ _ _ _ => Eq.refl _,
    fun _ _ _ _ _ => Eq.refl _, Eq.refl _, Eq.refl _⟩

theorem Grows.trans (h1 : Grows s s' A A' P) (h2 : Grows s' s'' A' A'' P) : Grows s s'' A A'' P where
  sub := h1.sub.trans h2.sub
  addr := h2.addr.trans h1.addr
  pageCnt := h2.pageCnt.trans h1.pageCnt
  page b hb q hq := (h2.page b (h1.sub hb) q hq).trans (h1.page b hb q hq)
  entry b hb q hq := by
    rw [← h1.entry b hb q hq, ← h1.frame, h2.entry b (h1.sub hb) q hq]
  mem b hb q hq hP := by
    rw [← h1.mem b hb q hq hP, ← h1.frame, h2.mem b (h1.sub hb) q hq hP]
  pageDir := h2.pageDir.trans h1.pageDir
  cr3 := h2.cr3.trans h1.cr3

theorem Grows.mono (h : Grows s s' A A' P) (hPQ : P ⊆ Q) : Grows s s' A A' Q :=
  { h with mem := fun b hb q hq hQ => h.mem b hb q hq fun hP => hQ (hPQ hP) }

theorem Grows.kMapped (hg : Grows s s' A A' P) (hm : KMapped s p) (hb : b ∈ A)
    (hp : p ∈ b) : KMapped s' p := by
  refine ⟨?_, ?_, ?_⟩
  · rw [hg.page b hb p hp, hm.data, hg.kva]
  · rw [hg.pageAddr]
    exact hm.lt
  · rw [hg.frame, hg.entry b hb p hp, hm.entry]

/-- A page of one of the lists of the slab allocator. -/
def Listed (N : PageNode → List PageNode) (i : Nat) : Prop :=
  ∃ a ∈ heads, a ∉ roots ∧ .page i ∈ N a

/-! ### Allocation -/

/-- The page allocator has moved on to `a`, with other blocks. -/
theorem Kernel.setAlloc {a : BuddyAllocator} (hk : Kernel s A N) (howns : a.Owns heads A' N)
    (haddr : a.addr = s.alloc.addr) (hcnt : a.pageCnt = s.alloc.pageCnt)
    (hmagic : ∀ i, (a.pages i).magic = (s.alloc.pages i).magic) : Kernel (s.setAlloc a) A' N := by
  refine ⟨howns, haddr.symm ▸ hk.aligned, haddr.symm ▸ hk.pos, ?_, fun i hi => ?_⟩
  · rw [setAlloc_alloc, haddr, hcnt]
    exact hk.top
  · rw [setAlloc_alloc, hmagic i]
    exact hk.magic i (hcnt ▸ hi)

theorem allocPage_spec {n k : Nat} (hk : Kernel s A N) (hle : k ≤ maxOrder)
    (hsize : fixSize n = orderSize k) (hok : s._allocPage n = .ok (p, s')) :
    Kernel s' (insert ⟨p, k⟩ A) N ∧ AllocFrame s.alloc s'.alloc A ⟨p, k⟩ ∧
      Grows s s' A (insert ⟨p, k⟩ A) ∅ ∧ s' = s.setAlloc s'.alloc := by
  obtain ⟨⟨q, a⟩, halloc, hret⟩ := bind_eq_ok hok
  cases hret
  have hlock := _allocPage_lock hle hsize halloc
  obtain ⟨herr, _⟩ | ⟨q, a', hrun, howns, hframe⟩ := _allocPage_spec hk.owns hlock hle hsize
  · rw [halloc] at herr
    cases herr
  · rw [halloc] at hrun
    cases hrun
    exact ⟨hk.setAlloc howns hframe.addr hframe.pageCnt hframe.magic, hframe,
      ⟨Set.subset_insert _ _, hframe.addr, hframe.pageCnt, hframe.pages, fun _ _ _ _ => rfl,
        fun _ _ _ _ _ => rfl, rfl, rfl⟩, rfl⟩

theorem frame_ne_of_fresh {q : Nat} (hk : Kernel s A N) (hb : b ∈ A) (hq : q ∈ b)
    (hp : p < s.alloc.pageCnt) (hfresh : ∀ c ∈ A, p ∉ c) : s.frame q ≠ s.frame p := by
  intro he
  obtain rfl := hk.frame_inj (hk.owns.lt_of_mem hb hq) hp he
  exact hfresh b hb hq

/-! ### Mapping and unmapping blocks -/

/-- The frames from `i` on are mapped at their kernel addresses. -/
def mapFrames (s : Vm) (i n : Nat) (flags : Pte) : Vm :=
  { s with kPageTables := fun j =>
      if i ≤ j ∧ j < i + n then BitVec.ofNat 32 (4096 * j) ||| flags else s.kPageTables j }

def unmapFrames (s : Vm) (i n : Nat) : Vm :=
  { s with kPageTables := fun j => if i ≤ j ∧ j < i + n then vmNpres else s.kPageTables j }

theorem setEntry_frames (s : Vm) (i n : Nat) (e : Nat → Pte) :
    (fun j => if i + 1 ≤ j ∧ j < i + 1 + n then e j else (s.setEntry i (e i)).kPageTables j) =
      fun j => if i ≤ j ∧ j < i + (n + 1) then e j else s.kPageTables j := by
  funext j
  by_cases hj : j = i
  · subst hj
    rw [if_neg (by omega), if_pos (by omega)]
    exact if_pos rfl
  · by_cases hin : i + 1 ≤ j ∧ j < i + 1 + n
    · rw [if_pos hin, if_pos (by omega)]
    · rw [if_neg hin, if_neg (by omega)]
      exact if_neg hj

theorem setEntry_mapFrames (s : Vm) (i n : Nat) (flags : Pte) :
    (s.setEntry i (BitVec.ofNat 32 (4096 * i) ||| flags)).mapFrames (i + 1) n flags =
      s.mapFrames i (n + 1) flags := by
  rw [mapFrames, setEntry_frames s i n fun j => BitVec.ofNat 32 (4096 * j) ||| flags]
  rfl

theorem setEntry_unmapFrames (s : Vm) (i n : Nat) :
    (s.setEntry i vmNpres).unmapFrames (i + 1) n = s.unmapFrames i (n + 1) := by
  rw [unmapFrames, setEntry_frames s i n fun _ => vmNpres]
  rfl

theorem kvmMapsLoop_eq (n : Nat) : ∀ {s : Vm} {i pa : Nat}, i + n ≤ 2 ^ 20 →
    pa = 4096 * i % 2 ^ 32 → (∀ j, i ≤ j → j < i + n → s.kPageTables j &&& vmPres = 0) →
    kvmMapsLoop flags n s i pa = .ok (s.mapFrames i n flags) := by
  induction n with
  | zero =>
    intro s i pa _ _ _
    have hnone : (fun j => if i ≤ j ∧ j < i + 0 then BitVec.ofNat 32 (4096 * j) ||| flags
        else s.kPageTables j) = s.kPageTables := by
      funext j
      exact if_neg (by omega)
    rw [kvmMapsLoop, mapFrames, hnone]
  | succ n ih =>
    intro s i pa hi hpa hfree
    have hpai : pa = 4096 * i := by
      rw [hpa, Nat.mod_eq_of_lt (by omega)]
    have hnext : (pa + pageSize) % 2 ^ 32 = 4096 * (i + 1) % 2 ^ 32 := by
      rw [hpai]
      rfl
    rw [kvmMapsLoop, hfree i le_rfl (by omega)]
    simp only [decide_true, assertk_true, ok_bind]
    rw [ih (by omega) hnext, hpai, setEntry_mapFrames]
    intro j hle hlt
    rw [setEntry_kPageTables, if_neg (by omega)]
    exact hfree j (by omega) (by omega)

theorem kvmMapsLoop_free (n : Nat) : ∀ {s s' : Vm} {i pa : Nat},
    kvmMapsLoop flags n s i pa = .ok s' → ∀ j, i ≤ j → j < i + n → s.kPageTables j &&& vmPres = 0 := by
  induction n with
  | zero =>
    intro s s' i pa _ j hle hlt
    omega
  | succ n ih =>
    intro s s' i pa hok j hle hlt
    obtain ⟨_, hfree, hok⟩ := bind_eq_ok hok
    by_cases hj : j = i
    · rw [hj]
      exact of_assertk hfree
    · have hrest := ih hok j (by omega) (by omega)
      rwa [setEntry_kPageTables, if_neg hj] at hrest

theorem kvmUnmapLoop_eq (n : Nat) : ∀ {s : Vm} {i : Nat}, kvmUnmapLoop n s i = s.unmapFrames i n := by
  induction n with
  | zero =>
    intro s i
    have hnone : (fun j => if i ≤ j ∧ j < i + 0 then vmNpres else s.kPageTables j) =
        s.kPageTables := by
      funext j
      exact if_neg (by omega)
    rw [kvmUnmapLoop, unmapFrames, hnone]
  | succ n ih =>
    intro s i
    rw [kvmUnmapLoop, ih, setEntry_unmapFrames]

theorem Kernel.mem_frames (hk : Kernel s A N) (hb : b ∈ A) (j : Nat) :
    s.frame b.start ≤ j ∧ j < s.frame b.start + 2 ^ b.order ↔ ∃ q ∈ b, j = s.frame q := by
  have hstart := hk.frame_eq (hk.owns.start_lt hb)
  constructor
  · rintro ⟨hle, hlt⟩
    have hq : b.start + (j - s.frame b.start) ∈ b := by
      rw [Block.mem_def]
      omega
    refine ⟨_, hq, ?_⟩
    rw [hk.frame_eq (hk.owns.lt_of_mem hb hq)]
    omega
  · rintro ⟨q, hq, rfl⟩
    have hframe := hk.frame_eq (hk.owns.lt_of_mem hb hq)
    rw [Block.mem_def] at hq
    omega

section

variable (hk : Kernel s A N) (hb : b ∈ A) (hend : s.alloc.pageAddr b.start + orderSize b.order ≤ physTop)
include hk hb hend

theorem Kernel.block_kva : s.kva b.start % 4096 = 0 ∧ kernelStart < s.kva b.start ∧
      (s.alloc.pageAddr b.start + kernelStart) % 2 ^ 32 = s.kva b.start ∧
      ((s.kva b.start + orderSize b.order) % 2 ^ 32 - s.kva b.start + 4095) / 4096 = 2 ^ b.order ∧
      (s.kva b.start - kernelStart) >>> 12 = s.frame b.start ∧
      s.alloc.pageAddr b.start = 4096 * s.frame b.start % 2 ^ 32 ∧
      s.frame b.start + 2 ^ b.order ≤ 2 ^ 20 := by
  have hlt := hk.owns.start_lt hb
  have hmod := hk.pageAddr_mod hlt
  have hpos : 0 < s.alloc.pageAddr b.start := by
    have := hk.pos
    rw [hk.pageAddr_eq hlt]
    omega
  have hks : kernelStart = 0xc0000000 := rfl
  have hphys : physTop = 0x3e000000 := rfl
  rw [orderSize_eq] at hend
  rw [orderSize_eq, kva, frame, Nat.shiftRight_eq_div_pow, Nat.shiftRight_eq_div_pow]
  generalize 2 ^ b.order = m at hend ⊢
  generalize s.alloc.pageAddr b.start = a at *
  omega

theorem kvmMap_block {f : Pte}
    (hfree : ∀ q ∈ b, s.kPageTables (s.frame q) &&& vmPres = 0) :
    s.kvmMap b.start f = .ok ((s.modifyPage b.start fun q => { q with data := s.kva b.start }).mapFrames
      (s.frame b.start) (2 ^ b.order) f) := by
  obtain ⟨hmod, hgt, hva, hcount, hidx, hpa, htop⟩ := hk.block_kva hb hend
  have hpos : 0 < orderSize b.order := by
    rw [orderSize_eq]
    exact Nat.mul_pos (by decide) (Nat.two_pow_pos _)
  have hlow : s.alloc.pageAddr b.start < physTop := by omega
  rw [kvmMap, assertk_bind, if_pos (decide_eq_true hlow)]
  simp only [hva, kvmMaps, modifyPage_alloc, BuddyAllocator.modifyPage_pages, if_true, hk.owns.size hb,
    hmod, decide_true, assertk_true, ok_bind, getPageTableEntry, hgt.le, hidx, hcount]
  apply kvmMapsLoop_eq _ htop hpa
  intro j hle hlt
  obtain ⟨q, hq, rfl⟩ := (hk.mem_frames hb j).1 ⟨hle, hlt⟩
  exact hfree q hq

theorem kvmUnmap_block (hdata : (s.alloc.pages b.start).data = s.kva b.start) :
    s.kvmUnmap b.start = .ok (s.unmapFrames (s.frame b.start) (2 ^ b.order)) := by
  obtain ⟨_, hgt, _, hcount, hidx, _, _⟩ := hk.block_kva hb hend
  have hsize : orderSize b.order % 4096 = 0 := by
    rw [orderSize_eq]
    exact Nat.mul_mod_right _ _
  rw [kvmUnmap, kvmUnmap3, hdata, hk.owns.size hb]
  simp only [hgt, hsize, decide_true, assertk_true, ok_bind, getPageTableEntry, hgt.le, hidx, hcount,
    kvmUnmapLoop_eq]

end

theorem mapFrames_one (s : Vm) (i : Nat) (flags : Pte) :
    s.mapFrames i 1 flags = s.setEntry i (BitVec.ofNat 32 (4096 * i) ||| flags) := by
  rw [mapFrames, setEntry]
  congr 1
  funext j
  by_cases hj : j = i
  · rw [if_pos (by omega), if_pos hj, hj]
  · rw [if_neg (by omega), if_neg hj]

section

variable (hk : Kernel s A N) (hb : ⟨p, 0⟩ ∈ A)
include hk hb

theorem Kernel.page_end (hlt : s.alloc.pageAddr p < physTop) :
    s.alloc.pageAddr p + orderSize 0 ≤ physTop := by
  have hmod := hk.pageAddr_mod (hk.owns.start_lt hb)
  have hphys : physTop = 0x3e000000 := rfl
  have hsize : orderSize 0 = 4096 := rfl
  change s.alloc.pageAddr p % 4096 = 0 at hmod
  omega

theorem kvmMap_spec (hok : s.kvmMap p flags = .ok s') :
    s' = (s.modifyPage p fun q => { q with data := s.kva p }).setEntry (s.frame p)
        (BitVec.ofNat 32 (s.alloc.pageAddr p) ||| flags) ∧
      s.alloc.pageAddr p < physTop ∧ s.kPageTables (s.frame p) &&& vmPres = 0 := by
  have hok' := hok
  rw [kvmMap, assertk_bind] at hok'
  split at hok'
  swap
  · cases hok'
  rename_i htop
  rw [decide_eq_true_iff] at htop
  have hend := hk.page_end hb htop
  obtain ⟨hmod, hgt, hva, hcount, hidx, hpa, _⟩ := hk.block_kva hb hend
  have hsize : (s.alloc.pages p).size = orderSize 0 := hk.owns.size hb
  simp only [hva, kvmMaps, modifyPage_alloc, BuddyAllocator.modifyPage_pages, if_true, hsize, hmod,
    decide_true, assertk_true, ok_bind, getPageTableEntry, hgt.le, hidx, hcount] at hok'
  have hfree := kvmMapsLoop_free _ hok'
  have hfreep : s.kPageTables (s.frame p) &&& vmPres = 0 := hfree _ le_rfl (by simp)
  refine ⟨?_, htop, hfreep⟩
  have hrun := kvmMap_block (f := flags) hk hb hend fun q hq => by
    obtain ⟨hle, hlt⟩ := (hk.mem_frames hb (s.frame q)).2 ⟨q, hq, rfl⟩
    exact hfree _ hle hlt
  rw [hok] at hrun
  rw [Except.ok.inj hrun]
  have hpa' : 4096 * s.frame p = s.alloc.pageAddr p := by
    have hlt : 4096 * s.frame p < 2 ^ 32 := by
      have hphys : physTop = 0x3e000000 := rfl
      rw [frame, Nat.shiftRight_eq_div_pow]
      omega
    rw [hpa, Nat.mod_eq_of_lt hlt]
  change (s.modifyPage p fun q => { q with data := s.kva p }).mapFrames (s.frame p) (2 ^ 0) flags = _
  rw [pow_zero, mapFrames_one, hpa']

theorem Kernel.kvmMap (hflags : flags.getLsbD 0 = true ∧ flags.toNat < 4096) (hok : s.kvmMap p flags = .ok s') :
    Kernel s' A N ∧ KMapped s' p := by
  obtain ⟨rfl, hlt, _⟩ := kvmMap_spec hk hb hok
  have hp : p < s.alloc.pageCnt := hk.owns.start_lt hb
  have hdata : Kernel (s.modifyPage p fun q => { q with data := s.kva p }) A N :=
    hk.modifyPage rfl rfl rfl
  refine ⟨hdata.congr rfl, ?_, hlt, ?_⟩
  · rw [setEntry_alloc, modifyPage_alloc, BuddyAllocator.modifyPage_pages, if_pos rfl]
    rfl
  · have he : presentFrame (BitVec.ofNat 32 (s.alloc.pageAddr p) ||| flags) = .ok (s.frame p) := by
      rw [presentFrame, if_neg (entry_present hflags.1),
        entry_frame (hk.pageAddr_mod hp) (hk.pageAddr_lt hp) hflags.2]
      rfl
    rw [setEntry_kPageTables]
    exact (if_pos rfl).symm ▸ he

end

theorem Grows.modifyPage {f : Page → Page} (hg : Grows s s' A A' P) (hout : ∀ c ∈ A, p ∉ c) :
    Grows s (s'.modifyPage p f) A A' P := by
  refine ⟨hg.sub, hg.addr, hg.pageCnt, ?_, hg.entry, hg.mem, hg.pageDir, hg.cr3⟩
  intro c hc q hq
  have hne : q ≠ p := fun he => hout c hc (he ▸ hq)
  rw [modifyPage_alloc, BuddyAllocator.modifyPage_pages, if_neg hne]
  exact hg.page c hc q hq

theorem Grows.setEntry {e : Pte} (hk : Kernel s A N) (hg : Grows s s' A A' P)
    (hout : ∀ c ∈ A, p ∉ c) (hlt : p < s.alloc.pageCnt) :
    Grows s (s'.setEntry (s'.frame p) e) A A' P := by
  refine ⟨hg.sub, hg.addr, hg.pageCnt, hg.page, ?_, hg.mem, hg.pageDir, hg.cr3⟩
  intro c hc q hq
  rw [setEntry_kPageTables, if_neg (by rw [hg.frame]; exact frame_ne_of_fresh hk hc hq hlt hout)]
  exact hg.entry c hc q hq

theorem Grows.kvmMap {N' : PageNode → List PageNode} (hk : Kernel s A N)
    (hg : Grows s s' A A' P) (hk' : Kernel s' A' N') (hb : ⟨p, 0⟩ ∈ A') (hout : ∀ c ∈ A, p ∉ c)
    (hok : s'.kvmMap p flags = .ok s'') : Grows s s'' A A' P := by
  have hlt : p < s.alloc.pageCnt := hg.pageCnt ▸ hk'.owns.start_lt hb
  obtain ⟨rfl, _, _⟩ := kvmMap_spec hk' hb hok
  exact (hg.modifyPage hout).setEntry hk hout hlt

/-- A page that came out of the allocator between `s` and `s'`. -/
structure Fresh (s s' : Vm) (A : Set Block) (p : Nat) : Prop where
  notMem : ∀ c ∈ A, p ∉ c
  lt : p < s.alloc.pageCnt
  refCnt : (s'.alloc.pages p).refCnt = 1
  refCnt_other : ∀ i, i ≠ p → (s'.alloc.pages i).refCnt = (s.alloc.pages i).refCnt
  rwlock : (s'.alloc.pages p).rwlock = rwlockInit
  lock : s'.alloc.lock = false

theorem Fresh.congr {s'' : Vm} (h : Fresh s s' A p) (halloc : s''.alloc = s'.alloc) : Fresh s s'' A p := by
  refine ⟨h.notMem, h.lt, ?_, ?_, ?_, ?_⟩ <;> rw [halloc]
  · exact h.refCnt
  · exact h.refCnt_other
  · exact h.rwlock
  · exact h.lock

theorem Fresh.counted (h : Fresh s s' A p) (hcnt : s'.alloc.pageCnt = s.alloc.pageCnt)
    (hc : Counted s.alloc A) : Counted s'.alloc (insert ⟨p, 0⟩ A) := by
  refine ⟨?_, ?_⟩
  · rintro b (rfl | hb)
    · rw [h.refCnt]
      exact Nat.one_pos
    · rw [h.refCnt_other _ fun he => h.notMem b hb (he ▸ b.start_mem)]
      exact hc.pos b hb
  · intro i hi hno
    rw [h.refCnt_other i fun he => hno _ (Or.inl rfl) he.symm]
    exact hc.zero i (hcnt ▸ hi) fun b hb => hno b (Or.inr hb)

/-- All managed memory can be mapped, and what is free is not mapped. -/
structure Ready (s : Vm) (A : Set Block) : Prop where
  top : s.alloc.addr + 4096 * s.alloc.pageCnt ≤ physTop
  unmapped : ∀ q < s.alloc.pageCnt, (∀ c ∈ A, q ∉ c) → s.kPageTables (s.frame q) &&& vmPres = 0

theorem allocPage_total {n k : Nat} (hk : Kernel s A N) (hlock : s.alloc.lock = false)
    (hle : k ≤ maxOrder) (hsize : fixSize n = orderSize k) :
    s._allocPage n = .error .outOfMemory ∨ ∃ p s', s._allocPage n = .ok (p, s') := by
  rw [_allocPage]
  obtain ⟨herr, _⟩ | ⟨q, a, hrun, _⟩ := _allocPage_spec hk.owns hlock hle hsize
  · rw [herr]
    exact Or.inl rfl
  · rw [hrun]
    exact Or.inr ⟨q, s.setAlloc a, rfl⟩

theorem Kernel.block_end (hk : Kernel s A N) (hb : b ∈ A)
    (htop : s.alloc.addr + 4096 * s.alloc.pageCnt ≤ physTop) :
    s.alloc.pageAddr b.start + orderSize b.order ≤ physTop := by
  have hlast : b.start + 2 ^ b.order - 1 < s.alloc.pageCnt := by
    apply hk.owns.lt_of_mem hb
    rw [Block.mem_def]
    have := Nat.two_pow_pos b.order
    omega
  rw [hk.pageAddr_eq (hk.owns.start_lt hb), orderSize_eq]
  omega

theorem Ready.kvmMap {f : Pte} (hr : Ready s A) (hk : Kernel s' A' N) (hb : b ∈ A')
    (haddr : s'.alloc.addr = s.alloc.addr) (hcnt : s'.alloc.pageCnt = s.alloc.pageCnt)
    (htab : s'.kPageTables = s.kPageTables) (hfresh : ∀ c ∈ A, ∀ q ∈ b, q ∉ c) :
    ∃ s'', s'.kvmMap b.start f = .ok s'' := by
  have hframe : ∀ q, s'.frame q = s.frame q := by
    intro q
    rw [frame, frame, pageAddr, pageAddr, haddr]
  have htop : s'.alloc.addr + 4096 * s'.alloc.pageCnt ≤ physTop := by
    rw [haddr, hcnt]
    exact hr.top
  refine ⟨_, kvmMap_block hk hb (hk.block_end hb htop) fun q hq => ?_⟩
  rw [htab, hframe]
  exact hr.unmapped q (hcnt ▸ hk.owns.lt_of_mem hb hq) fun c hc hqc => hfresh c hc q hq hqc

theorem mappedFlags : (vmPres ||| vmKrw).getLsbD 0 = true ∧ (vmPres ||| vmKrw).toNat < 4096 := by
  decide

theorem allocMap_spec {s1 : Vm} (hk : Kernel s A N) (halloc : s._allocPage pageSize = .ok (p, s1))
    (hmap : s1.kvmMap p (vmPres ||| vmKrw) = .ok s') :
    Kernel s' (insert ⟨p, 0⟩ A) N ∧ KMapped s' p ∧ Grows s s' A (insert ⟨p, 0⟩ A) ∅ ∧
      Fresh s s' A p ∧ s'.mem = s.mem ∧ s'.slabs = s.slabs := by
  obtain ⟨hk1, hframe, hg1, hs1⟩ := allocPage_spec hk (Nat.zero_le _) (by decide) halloc
  have hb : (⟨p, 0⟩ : Block) ∈ insert ⟨p, 0⟩ A := Or.inl rfl
  obtain ⟨hk', hm⟩ := hk1.kvmMap hb mappedFlags hmap
  obtain ⟨hs', _, _⟩ := kvmMap_spec hk1 hb hmap
  have hout : ∀ c ∈ A, p ∉ c := fun c hc => hframe.fresh c hc p (Block.start_mem _)
  have hlt : p < s.alloc.pageCnt := hframe.managed p (Block.start_mem _)
  have hself : s'.alloc.pages p = { s1.alloc.pages p with data := s1.kva p } := by
    rw [hs', setEntry_alloc, modifyPage_alloc, BuddyAllocator.modifyPage_pages, if_pos rfl]
  have hother : ∀ i, i ≠ p → s'.alloc.pages i = s1.alloc.pages i := by
    intro i hi
    rw [hs', setEntry_alloc, modifyPage_alloc, BuddyAllocator.modifyPage_pages, if_neg hi]
  refine ⟨hk', hm, hg1.kvmMap hk hk1 hb hout hmap, ⟨hout, hlt, ?_, ?_, ?_, ?_⟩, ?_, ?_⟩
  · rw [hself]
    exact hframe.refCnt
  · intro i hi
    rw [hother i hi]
    exact hframe.refCnt_other i hi
  · rw [hself]
    exact hframe.rwlock
  · rw [hs']
    exact hframe.lock
  · rw [hs', hs1]
    rfl
  · rw [hs', hs1]
    rfl

theorem kmalloc_page_spec {addr : Nat} (hk : Kernel s A N) (hok : s.kmalloc pageSize = .ok (addr, s')) :
    ∃ p, addr = s'.kva p ∧ Kernel s' (insert ⟨p, 0⟩ A) N ∧ KMapped s' p ∧
      Grows s s' A (insert ⟨p, 0⟩ A) ∅ ∧ Fresh s s' A p ∧ s'.mem = s.mem := by
  have hsize : fixSize pageSize = pageSize := by decide
  have hbig : ¬ pageSize ≤ slabMax := by decide
  simp only [kmalloc, hsize, hbig, if_false] at hok
  obtain ⟨⟨p, s1⟩, halloc, hok⟩ := bind_eq_ok hok
  obtain ⟨s2, hmap, hret⟩ := bind_eq_ok hok
  cases hret
  obtain ⟨hk', hm, hg, hfresh, hmem, _⟩ := allocMap_spec hk halloc hmap
  exact ⟨p, hm.data, hk', hm, hg, hfresh, hmem⟩

theorem kcallocPage_spec {addr : Nat} (hk : Kernel s A N) (hok : s.kcallocPage = .ok (addr, s')) :
    ∃ p, addr = s'.kva p ∧ Kernel s' (insert ⟨p, 0⟩ A) N ∧ KMapped s' p ∧
      Grows s s' A (insert ⟨p, 0⟩ A) ∅ ∧ Fresh s s' A p ∧ ∀ w, s'.mem (s'.frame p) w = 0 := by
  have hsize : fixSize pageSize = pageSize := by decide
  rw [kcallocPage, hsize] at hok
  obtain ⟨⟨addr1, s1⟩, hmalloc, hok⟩ := bind_eq_ok hok
  obtain ⟨p, rfl, hk1, hm, hg, hfresh, _⟩ := kmalloc_page_spec hk hmalloc
  have hlt : p < s1.alloc.pageCnt := hg.pageCnt ▸ hfresh.lt
  have hframeAt := hm.frameAt (hk1.pageAddr_mod hlt) (o := 0) (by decide)
  rw [Nat.add_zero] at hframeAt
  simp only [zeroPage, hframeAt, ok_bind] at hok
  cases hok
  refine ⟨p, rfl, hk1.congr rfl, ⟨hm.data, hm.lt, hm.entry⟩, ?_, hfresh.congr rfl, fun w => if_pos rfl⟩
  refine ⟨hg.sub, hg.addr, hg.pageCnt, hg.page, hg.entry, ?_, hg.pageDir, hg.cr3⟩
  intro c hc q hq hP
  have hne := frame_ne_of_fresh hk hc hq hfresh.lt hfresh.notMem
  rw [← hg.mem c hc q hq hP]
  funext w
  exact if_neg (by rw [hg.frame]; exact hne)

end Vm

end QuarkOS
