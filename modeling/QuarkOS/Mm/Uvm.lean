import QuarkOS.Mm.Vm

/-!
# User address spaces

`uvm.c`, `task_cow`, and the part of `load_elf_exec` that maps segments. A `struct mm_struct` is a
record that the functions take and give back; its page directory and the page tables lie in memory.
The pointers to page table entries are addresses.
-/

namespace QuarkOS

structure VmArea where
  va : Nat
  size : Nat
  flag : Pte
deriving DecidableEq, Repr

structure MmStruct where
  text : VmArea
  rodata : VmArea
  data : VmArea
  bss : VmArea
  brk : VmArea
  stack : VmArea
  size : Nat
  pgdir : Nat
deriving DecidableEq, Repr

def mmStructSize : Nat := 80

/-- The rounds of a loop that goes through `size` bytes in steps of a page. -/
def pageRounds (size : Nat) : Nat := (size + 4095) / 4096

def nextPage (addr : Nat) : Nat := (addr + pageSize) % 2 ^ 32

namespace Vm

def vmMapInit (s : Vm) (mm : MmStruct) : Except Fault (MmStruct × Vm) := do
  let (pgdir, s) ← s.kcallocPage
  .ok ({ mm with pgdir }, s)

/-- The address of the page table entry of `va`. -/
def vmPageIter (s : Vm) (va pgdir : Nat) (new : Bool) : Except Fault (Nat × Vm) := do
  let pde ← s.load (pgdir + 4 * pdeIndex va)
  if new && pde &&& vmPres = 0 then
    let (pte, s) ← s.kcallocPage
    let pa ← s.v2p pte
    let s ← s.store (pgdir + 4 * pdeIndex va) (BitVec.ofNat 32 pa ||| vmPres ||| vmUrw)
    .ok (pte + 4 * pteIndex va, s)
  else
    match ← s.alloc.getPage (pageCeil pde.toNat) with
    | none => .error .assertk
    | some page => .ok ((s.alloc.pages page).data + 4 * pteIndex va, s)

def vmMapAreaLoop (pgdir : Nat) (flag : Pte) : Nat → Vm → Nat → Nat → Except Fault Vm
  | 0, s, _, _ => .ok s
  | n + 1, s, va, pa => do
    let (pte, s) ← s.vmPageIter va pgdir true
    let e ← s.load pte
    assertk (e &&& vmPres = 0)
    let s ← s.store pte (BitVec.ofNat 32 pa ||| flag)
    vmMapAreaLoop pgdir flag n s (nextPage va) (nextPage pa)

def vmMapArea (s : Vm) (area : VmArea) (pa pgdir : Nat) : Except Fault Vm :=
  vmMapAreaLoop pgdir area.flag (pageRounds area.size) s area.va pa

/-- A page that is mapped already keeps its entry. -/
def vmMapsLoop (pgdir : Nat) (flag : Pte) : Nat → Vm → Nat → Nat → Except Fault Vm
  | 0, s, _, _ => .ok s
  | n + 1, s, va, pa => do
    let (pte, s) ← s.vmPageIter va pgdir true
    let e ← s.load pte
    let s ← if e &&& vmPres = 0 then s.store pte (BitVec.ofNat 32 pa ||| flag) else .ok s
    vmMapsLoop pgdir flag n s (nextPage va) (nextPage pa)

/-- The pages go into the page directory of the current task. -/
def vmMaps (s : Vm) (pgdir va pa : Nat) (flag : Pte) (size : Nat) : Except Fault Vm := do
  assertk (pa % 4096 = 0)
  vmMapsLoop pgdir flag (pageRounds size) s (pageCeil va) pa

def vmUnmapLoop (pgdir : Nat) : Nat → Vm → Nat → Except Fault Vm
  | 0, s, _ => .ok s
  | n + 1, s, addr => do
    let (pte, s) ← s.vmPageIter addr pgdir false
    let e ← s.load pte
    assertk (e &&& vmPres ≠ 0)
    let (errno, s) ← s.freePage (pageCeil e.toNat)
    if errno ≠ 0 then .ok s
    else do
      let s ← s.store pte vmNpres
      vmUnmapLoop pgdir n s (nextPage addr)

def vmUnmap (s : Vm) (area : VmArea) (pgdir : Nat) : Except Fault Vm :=
  vmUnmapLoop pgdir (pageRounds area.size) s area.va

/-- The page tables go back, for the directory entries that are left. -/
def recycleTables (pgdir : Nat) : List Nat → Vm → Except Fault Vm
  | [], s => .ok s
  | i :: l, s => do
    let pde ← s.load (pgdir + 4 * i)
    if pde &&& vmPres = 0 then recycleTables pgdir l s
    else
      match ← s.alloc.getPage (pageCeil pde.toNat) with
      | none => .error .assertk
      | some page => do
        let s ← s.kvmUnmap page
        let s ← s._freePage page
        recycleTables pgdir l s

def vmStructUnmaps (s : Vm) (mm : MmStruct) : Except Fault Vm := do
  let s ← s.vmUnmap mm.text mm.pgdir
  let s ← s.vmUnmap mm.data mm.pgdir
  let s ← s.vmUnmap mm.bss mm.pgdir
  let s ← s.vmUnmap mm.rodata mm.pgdir
  let s ← s.vmUnmap mm.brk mm.pgdir
  let s ← s.vmUnmap mm.stack mm.pgdir
  recycleTables mm.pgdir (List.range 768) s

def vmBrkInit (mm : MmStruct) : Except Fault MmStruct := do
  let brk := max mm.bss.va mm.text.va
  let brk := max brk mm.data.va
  let brk := max brk mm.rodata.va
  let brk := (pageCeil brk + pageSize) % 2 ^ 32
  assertk (brk < kernelStart - 2 * pageSize)
  .ok { mm with brk := { va := brk, size := 0, flag := vmPres ||| vmUrw } }

def vmStackInit (s : Vm) (mm : MmStruct) : Except Fault (MmStruct × Vm) := do
  let stack : VmArea :=
    { va := kernelStart - 2 * pageSize, size := pageSize, flag := vmPres ||| vmUrw }
  let (page, s) ← s._allocPage pageSize
  let s := s.modifyPage page fun p => { p with data := stack.va }
  let s ← s.vmMapArea stack (s.alloc.pageAddr page) mm.pgdir
  .ok ({ mm with stack, size := (mm.size + pageSize) % 2 ^ 32 }, s)

/-- With the address that the source returns. -/
def sbrk (s : Vm) (mm : MmStruct) (size : Nat) : Except Fault (Nat × MmStruct × Vm) := do
  let size := pageCeil size
  let (page, s) ← s._allocPage size
  let s ← s.vmMaps mm.pgdir mm.brk.va (s.alloc.pageAddr page) (vmPres ||| vmUrw) size
  let s := s.modifyPage page fun p => { p with data := mm.brk.va }
  let brk : VmArea :=
    { mm.brk with va := (mm.brk.va + size) % 2 ^ 32, size := (mm.brk.size + size) % 2 ^ 32 }
  .ok ((brk.va + 2 ^ 32 - size) % 2 ^ 32, { mm with brk }, s)

/-- The fields of a program header that decide where a segment goes. -/
structure Segment where
  vaddr : Nat
  memsz : Nat
  filesz : Nat
  write : Bool
  exec : Bool
deriving DecidableEq, Repr

def getFlags (pgh : Segment) : Pte := if pgh.write then vmUrw else vmUr

/-- The area of a segment is written over only for a segment without file contents. -/
def placeSegment (mm : MmStruct) (pgh : Segment) (area : VmArea) : Except Fault MmStruct :=
  let size := (mm.size + area.size) % 2 ^ 32
  if pgh.filesz = 0 then .ok { mm with bss := area, size }
  else if pgh.exec then do
    assertk (mm.text.size = 0)
    .ok { mm with text := area, size }
  else if pgh.write then do
    assertk (mm.data.size = 0)
    .ok { mm with data := area, size }
  else do
    assertk (mm.rodata.size = 0)
    .ok { mm with rodata := area, size }

/-- One round of the loop of `load_elf_exec`, without the file contents. -/
def loadSegment (s : Vm) (mm : MmStruct) (pgh : Segment) : Except Fault (MmStruct × Vm) := do
  let size := pageFloor pgh.memsz
  let (page, s) ← s._allocPage size
  let flag := getFlags pgh ||| vmPres
  let s ← s.vmMaps mm.pgdir pgh.vaddr (s.alloc.pageAddr page) flag size
  let mm ← placeSegment mm pgh { va := pgh.vaddr, size, flag }
  .ok (mm, s)

/-- The entry that parent and child share after a fork. -/
def demote (e : Pte) : Pte :=
  if e &&& vmUrw = vmUrw then (e &&& vmIgnoreBit1) &&& ~~~((1 : Pte) <<< vmRwBit) else e

def vmAreaCopyLoop (sPgdir dPgdir : Nat) : Nat → Vm → Nat → Except Fault Vm
  | 0, s, _ => .ok s
  | n + 1, s, addr => do
    let (pte, s) ← s.vmPageIter addr sPgdir false
    let (new, s) ← s.vmPageIter addr dPgdir true
    let e ← s.load pte
    let s ← if e &&& vmUrw = vmUrw then s.store pte (demote e) else .ok s
    let e ← s.load pte
    let s ← s.store new e
    let e ← s.load pte
    let s := match ← s.alloc.getPage (pageCeil e.toNat) with
      | none => s
      | some page => s.modifyPage page fun p => { p with refCnt := (p.refCnt + 1) % 2 ^ 16 }
    vmAreaCopyLoop sPgdir dPgdir n s (nextPage addr)

def vmAreaCopy (s : Vm) (addr size sPgdir dPgdir : Nat) : Except Fault Vm :=
  vmAreaCopyLoop sPgdir dPgdir (pageRounds size) s addr

def vmAreaCopyStack (s : Vm) (src : VmArea) (sPgdir dPgdir : Nat) : Except Fault Vm := do
  let kStart := (src.va + src.size + 2 ^ 32 - pageSize) % 2 ^ 32
  let (pde, s) ← s.vmPageIter kStart sPgdir false
  let (new, s) ← s.vmPageIter kStart dPgdir true
  let e ← s.load pde
  let e' ← s.load new
  assertk (e ≠ 0 ∧ e' = 0)
  let (stack, s) ← s.kmalloc pageSize
  let pa ← s.v2p stack
  let s ← s.store new (BitVec.ofNat 32 pa ||| vmPres ||| vmUrw)
  let e ← s.load pde
  let top ← s.p2v (pageCeil e.toNat)
  let s ← s.copyPage stack top
  let s ← s.kvmUnmap2 stack
  s.vmAreaCopy src.va ((src.size + 2 ^ 32 - pageSize) % 2 ^ 32) sPgdir dPgdir

/-- The address space that is copied is that of the current task. -/
def vmStructCopy (s : Vm) (src : MmStruct) : Except Fault (MmStruct × Vm) := do
  let (_, s) ← s.kmalloc mmStructSize
  let (new, s) ← s.vmMapInit src
  let s ← s.vmAreaCopy src.text.va src.text.size src.pgdir new.pgdir
  let s ← s.vmAreaCopy src.rodata.va src.rodata.size src.pgdir new.pgdir
  let s ← s.vmAreaCopy src.data.va src.data.size src.pgdir new.pgdir
  let s ← s.vmAreaCopy src.bss.va src.bss.size src.pgdir new.pgdir
  let s ← s.vmAreaCopy src.brk.va src.brk.size src.pgdir new.pgdir
  let s ← s.vmAreaCopyStack src.stack src.pgdir new.pgdir
  let s ← s.kvmCopy new.pgdir
  let cr3 ← s.v2p src.pgdir
  .ok (new, { s with cr3 })

/-- The result is the error code of the source. -/
def vmRemapPage (s : Vm) (va pgdir : Nat) : Except Fault (Int × Vm) := do
  let (pte, s) ← s.vmPageIter va pgdir true
  let e ← s.load pte
  if e &&& vmPres = 0 then .ok (-1, s)
  else
    match ← s.alloc.getPage (pageCeil e.toNat) with
    | none => .error .assertk
    | some old => do
      let (new, s) ← s._allocPage pageSize
      let s ← s.kvmMap new (vmPres ||| vmKrw)
      let s ← s.copyPage (s.alloc.pages new).data va
      let s ← s.kvmUnmap new
      let e ← s.load pte
      let s ← s.store pte (e &&& 0xfff ||| BitVec.ofNat 32 (s.alloc.pageAddr new))
      let s ← s._freePage old
      .ok (0, s)

/-- A kernel thread has no address space. -/
def taskCow (s : Vm) (mm : Option MmStruct) (addr : Nat) : Except Fault (Int × Vm) :=
  match mm with
  | none => .ok (-1, s)
  | some mm => s.vmRemapPage (pageCeil addr) mm.pgdir

end Vm

end QuarkOS
