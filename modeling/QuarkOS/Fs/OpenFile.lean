import Mathlib.Data.List.Perm.Subperm
import QuarkOS.Fs.DirBlock
import QuarkOS.Fs.Hash
import QuarkOS.Lib.Queue
import QuarkOS.Mm.Vm

/-!
# Open files

`vfs_open` and `vfs_close` with the list of open files of each task, `copy_open_file` of a fork and
`recycle_open_file`, which the cleaner calls for a task that has exited. A lookup has been done before a
file is opened and `found` is what it gave; `ext2_open` and `ext2_close` succeed on every inode.

`parse_path` asks `kmalloc` for the length of a path with its end and copies one byte more. When the length
is a power of two this byte is in the next chunk of the slab, whose first bytes are a link if it is free,
so from then on `kmalloc` may give out memory that is in use.

What the functions are for is a `Handle` for each open that no close has matched yet. They keep the
handles as long as the copies of the paths fit, a task opens an inode once, exits with no file open, and does
not cut a file out of the list behind a node that it shares with another task: this is what `Separate` asks
for.
-/

namespace QuarkOS

open Queue Function

structure OpenFile where
  inode : Nat
  fd : Nat
  next : Option Nat
deriving DecidableEq, Repr

structure FileWorld where
  hash : FdHash
  refCnt : Nat → Nat
  file : Nat → OpenFile
  /-- The addresses of the `open_file` objects that are allocated. -/
  nodes : List Nat
  /-- `open` of each task. -/
  head : Nat → Option Nat
  tasks : List Nat
  cleaner : Nat
  /-- No copy of a path has written behind its memory. -/
  intact : Bool

namespace FileWorld

variable (w : FileWorld)

def openFile (a : Nat) : Except Fault OpenFile :=
  if a ∈ w.nodes then .ok (w.file a) else .error .undefined

/-- The search of `add_open_file` and `remove_open_file`: the node of an inode and the one before it. -/
def findOpen (inode : Nat) : Nat → Option Nat → Option Nat → Except Fault (Option (Option Nat × Nat))
  | _, _, none => .ok none
  | 0, _, some _ => .error .spin
  | fuel + 1, prev, some a => do
    let file ← w.openFile a
    if file.inode = inode then .ok (some (prev, a)) else findOpen inode fuel (some a) file.next

/-- `addr` is the memory that `kmalloc` gives for the new node, which is free as long as the slabs are
intact. -/
def addOpenFile (t inode fd addr : Nat) : Except Fault FileWorld := do
  match ← w.findOpen inode w.nodes.length none (w.head t) with
  | some (_, a) => do
    assertk ((w.file a).fd = fd)
    .ok w
  | none =>
    if w.intact ∧ addr ∈ w.nodes then .error .outOfMemory
    else .ok { w with
      file := update w.file addr ⟨inode, fd, w.head t⟩
      nodes := addr :: w.nodes
      head := update w.head t (some addr) }

def removeOpenFile (t inode : Nat) : Except Fault (Nat × FileWorld) := do
  match ← w.findOpen inode w.nodes.length none (w.head t) with
  | none => .error .assertk
  | some (none, a) => .ok (a, { w with head := update w.head t (w.file a).next })
  | some (some prev, a) =>
    .ok (a, { w with
      file := update w.file prev { w.file prev with next := (w.file a).next } })

def setRefCnt (inode cnt : Nat) : FileWorld :=
  { w with refCnt := update w.refCnt inode (cnt % 2 ^ 16) }

/-- `parse_path`: the copy has `len + 1` bytes, and the chunk of `kmalloc` those of the next power of two. -/
def parsePath (path : Name) : FileWorld :=
  let len := path.length + 1
  { w with intact := w.intact && decide (len + 1 ≤ fixSize (max len Vm.slabMin)) }

/-- The copy of the path is freed before the node is allocated. -/
def vfsOpen (t : Nat) (path : Name) (found : Option Nat) (addr : Nat) : Except Fault (Int × FileWorld) :=
  let w := w.parsePath path
  match found with
  | none => .ok (-1, w)
  | some inode => do
    let (fd, hash) ← w.hash.allocFd inode
    let w := { w with hash }.setRefCnt inode (w.refCnt inode + 1)
    let w ← w.addOpenFile t inode fd addr
    .ok (Int.ofNat fd, w)

def vfsClose (t fd : Nat) : Except Fault (Int × FileWorld) := do
  match ← w.hash.getInode fd with
  | none => .ok (-1, w)
  | some node =>
    let w := w.setRefCnt node (w.refCnt node + 2 ^ 16 - 1)
    let (file, w) ← w.removeOpenFile t node
    if w.refCnt node = 0 then
      let hash ← w.hash.freeFd fd
      .ok (0, { w with nodes := w.nodes.erase file, hash })
    else .ok (0, w)

def countFiles : Nat → Option Nat → FileWorld → Except Fault FileWorld
  | _, none, w => .ok w
  | 0, some _, _ => .error .spin
  | fuel + 1, some a, w => do
    let file ← w.openFile a
    countFiles fuel file.next (w.setRefCnt file.inode (w.refCnt file.inode + 1))

def copyOpenFile (src desc : Nat) : Except Fault FileWorld :=
  let w := { w with head := update w.head desc (w.head src) }
  countFiles w.nodes.length (w.head src) w

/-- The part of `kernel_clone` that deals with open files; `task` is the new control block. -/
def kernelClone (cur task : Nat) (cloneFile : Bool) : Except Fault FileWorld :=
  let w := { w with head := update w.head task none, tasks := task :: w.tasks }
  if cloneFile then w.copyOpenFile cur task else .ok w

/-- The loop of `recycle_open_file`, which runs in the cleaner. -/
def closeFiles : Nat → Option Nat → FileWorld → Except Fault FileWorld
  | _, none, w => .ok w
  | 0, some _, _ => .error .spin
  | fuel + 1, some a, w => do
    let file ← w.openFile a
    let (_, w) ← w.vfsClose w.cleaner file.fd
    closeFiles fuel file.next w

def recycleOpenFile (head : Option Nat) : Except Fault FileWorld := do
  assertk head.isSome
  closeFiles w.nodes.length head w

/-- A task exits and the cleaner gives back what it had. -/
def taskExit (t : Nat) : Except Fault FileWorld := do
  let w ← if (w.head t).isSome then w.recycleOpenFile (w.head t) else .ok w
  .ok { w with tasks := w.tasks.erase t }

end FileWorld

inductive FileEvent
  | vfsOpen (t : Nat) (path : Name) (found : Option Nat) (addr : Nat)
  | vfsClose (t fd : Nat)
  | fork (t child : Nat) (cloneFile : Bool)
  | taskExit (t : Nat)
deriving DecidableEq, Repr

/-- What a call returns and the world after it; `none` when there is no such task, or when the memory of
a new task is in use. -/
def FileWorld.step (w : FileWorld) : FileEvent → Except Fault (Option (Int × FileWorld))
  | .vfsOpen t path found addr =>
    if t ∈ w.tasks then do
      let r ← w.vfsOpen t path found addr
      .ok (some r)
    else .ok none
  | .vfsClose t fd =>
    if t ∈ w.tasks then do
      let r ← w.vfsClose t fd
      .ok (some r)
    else .ok none
  | .fork t child cloneFile =>
    if t ∈ w.tasks ∧ child ∉ w.cleaner :: w.tasks then do
      let w ← w.kernelClone t child cloneFile
      .ok (some (0, w))
    else .ok none
  | .taskExit t =>
    if t ∈ w.tasks then do
      let w ← w.taskExit t
      .ok (some (0, w))
    else .ok none

/-- An open that no close has matched yet. -/
structure Handle where
  task : Nat
  inode : Nat
  fd : Nat
deriving DecidableEq, Repr

/-- The handles after a call that returned `ret`. A task that is forked with its files has a handle for
each one of its parent. -/
def record (ev : FileEvent) (ret : Int) (l : List Handle) : List Handle :=
  match ev with
  | .vfsOpen t _ (some inode) _ => if 0 ≤ ret then ⟨t, inode, ret.toNat⟩ :: l else l
  | .vfsOpen _ _ none _ => l
  | .vfsClose t fd => if ret = 0 then l.eraseP fun h => h.task = t ∧ h.fd = fd else l
  | .fork t child cloneFile =>
    if cloneFile then (l.filter fun h => h.task = t).map (fun h => { h with task := child }) ++ l
    else l
  | .taskExit t => l.filter fun h => h.task ≠ t

inductive OpenRun (C : FileWorld → FileEvent → Prop) (w0 : FileWorld) :
    FileWorld → List Handle → Prop
  | start : OpenRun C w0 w0 []
  | step {w w' : FileWorld} {l : List Handle} {ret : Int} (hrun : OpenRun C w0 w l) (ev : FileEvent)
      (hcond : C w ev) (hstep : w.step ev = .ok (some (ret, w'))) : OpenRun C w0 w' (record ev ret l)

def FileWorld.closeTimes (t fd : Nat) : Nat → FileWorld → Except Fault FileWorld
  | 0, w => .ok w
  | n + 1, w => do
    let (ret, w) ← w.vfsClose t fd
    assertk (ret = 0)
    closeTimes t fd n w

/-- The kernel keeps the handles: it counts them, a task can close a file as often as it has a handle for
it, and a descriptor leads to its inode as long as there is a handle. -/
structure OpenOk (w : FileWorld) (l : List Handle) : Prop where
  refCnt : ∀ inode, w.refCnt inode = l.countP fun h => h.inode = inode
  matched : ∀ t fd, ∃ w',
    FileWorld.closeTimes t fd (l.countP fun h => h.task = t ∧ h.fd = fd) w = .ok w'
  valid : ∀ fd inode, w.hash.getInode fd = .ok (some inode) ↔ ∃ h ∈ l, h.fd = fd ∧ h.inode = inode

def FileWorld.next (w : FileWorld) (a : Nat) : Option Nat := (w.file a).next

def OnList (w : FileWorld) (t a : Nat) : Prop := ∃ l, Chain w.next (w.head t) l ∧ a ∈ l

/-- The copy of the path is not larger than its chunk. -/
def CopyFits (path : Name) : Prop := path.length + 2 ≤ fixSize (max (path.length + 1) Vm.slabMin)

instance : DecidablePred CopyFits := fun _ => Nat.decLe ..

def Separate (w : FileWorld) : FileEvent → Prop
  | .vfsOpen _ path none _ => CopyFits path
  | .vfsOpen t path (some inode) _ =>
    CopyFits path ∧ (∀ a, OnList w t a → (w.file a).inode ≠ inode) ∧ w.refCnt inode + 1 < 2 ^ 16
  | .vfsClose t fd => ∀ prev a, OnList w t prev → w.next prev = some a →
    w.hash.fileTable fd = some (w.file a).inode → ∀ t' ∈ w.tasks, t' ≠ t → ¬ OnList w t' prev
  | .fork t _ cloneFile =>
    cloneFile = true → ∀ a, OnList w t a → w.refCnt (w.file a).inode + 1 < 2 ^ 16
  | .taskExit t => w.head t = none

structure NoFiles (w : FileWorld) : Prop where
  hash : w.hash.Wf
  fileTable : ∀ fd, w.hash.fileTable fd = none
  refCnt : ∀ inode, w.refCnt inode = 0
  head : ∀ t, w.head t = none
  nodes : w.nodes.Nodup
  tasks : w.tasks.Nodup
  intact : w.intact = true

def FileWorld.handle (w : FileWorld) (t a : Nat) : Handle := ⟨t, (w.file a).inode, (w.file a).fd⟩

/-- The list of a task has these nodes, one for each of its handles. -/
structure TaskFiles (w : FileWorld) (l : List Handle) (t : Nat) (nodes : List Nat) : Prop where
  chain : Chain w.next (w.head t) nodes
  alloc : ∀ a ∈ nodes, a ∈ w.nodes
  handles : (nodes.map (w.handle t)).Perm (l.filter fun h => h.task = t)

/-- `L` gives the nodes of each task, in the order of its list. -/
structure FileInv (w : FileWorld) (l : List Handle) (L : Nat → List Nat) : Prop where
  files : ∀ t ∈ w.tasks, TaskFiles w l t (L t)
  live : ∀ x ∈ l, x.task ∈ w.tasks
  /-- A task has an inode open once. -/
  once : (l.map fun x => (x.task, x.inode)).Nodup
  hash : w.hash.Wf
  table : ∀ x ∈ l, w.hash.fileTable x.fd = some x.inode
  opened : ∀ fd inode, w.hash.fileTable fd = some inode → ∃ x ∈ l, x.inode = inode
  refCnt : ∀ inode, w.refCnt inode = l.countP fun x => x.inode = inode
  small : ∀ inode, w.refCnt inode < 2 ^ 16
  nodes : w.nodes.Nodup
  tasks : w.tasks.Nodup
  intact : w.intact = true

variable {w w' w0 : FileWorld} {l l' : List Handle} {L : Nat → List Nat}
  {t t' child inode fd addr a : Nat} {ret : Int} {ev : FileEvent} {x y : Handle} {nodes : List Nat}

theorem CopyFits.parsePath_eq {path : Name} (h : CopyFits path) (w : FileWorld) : w.parsePath path = w := by
  have hlen : path.length + 1 + 1 ≤ fixSize (max (path.length + 1) Vm.slabMin) := h
  rw [FileWorld.parsePath, decide_eq_true hlen, Bool.and_true]

theorem NoFiles.inv (h : NoFiles w) : FileInv w [] fun _ => [] where
  files := fun t _ => ⟨h.head t, nofun, List.Perm.refl _⟩
  live := nofun
  once := List.nodup_nil
  hash := h.hash
  table := nofun
  opened := fun fd inode hfile => absurd ((h.fileTable fd).symm.trans hfile) nofun
  refCnt := h.refCnt
  small := fun inode => by rw [h.refCnt inode]; decide
  nodes := h.nodes
  tasks := h.tasks
  intact := h.intact

namespace TaskFiles

section

variable (h : TaskFiles w l t nodes)
include h

theorem mem_iff : x ∈ nodes.map (w.handle t) ↔ x ∈ l ∧ x.task = t := by
  rw [h.handles.mem_iff, List.mem_filter, decide_eq_true_iff]

theorem handle_mem (ha : a ∈ nodes) : w.handle t a ∈ l :=
  (h.mem_iff.1 (List.mem_map_of_mem ha)).1

theorem length_le : nodes.length ≤ w.nodes.length :=
  (List.subperm_of_subset h.chain.nodup fun a ha => h.alloc a ha).length_le

theorem onList_iff : OnList w t a ↔ a ∈ nodes := by
  constructor
  · rintro ⟨k, hchain, ha⟩
    rwa [hchain.unique h.chain] at ha
  · exact fun ha => ⟨nodes, h.chain, ha⟩

end

theorem map_handle (hfile : ∀ a ∈ nodes, w'.file a = w.file a) :
    nodes.map (w'.handle t) = nodes.map (w.handle t) :=
  List.map_congr_left fun a ha => by rw [FileWorld.handle, hfile a ha, FileWorld.handle]

theorem chain_congr (h : TaskFiles w l t nodes) (hfile : ∀ a ∈ nodes, w'.file a = w.file a) :
    Chain w'.next (w.head t) nodes := by
  refine h.chain.congr fun a ha => ?_
  rw [FileWorld.next, hfile a ha]
  rfl

theorem cons (h : TaskFiles w l t nodes) (hhead : w'.head t = some addr)
    (hnode : w'.file addr = ⟨inode, fd, w.head t⟩) (hfile : ∀ a ∈ nodes, w'.file a = w.file a)
    (hnodes : w'.nodes = addr :: w.nodes) : TaskFiles w' (⟨t, inode, fd⟩ :: l) t (addr :: nodes) where
  chain := by
    refine ⟨hhead, ?_⟩
    rw [FileWorld.next, hnode]
    exact h.chain_congr hfile
  alloc := by
    intro a ha
    rw [hnodes]
    rcases List.mem_cons.1 ha with rfl | ha
    · exact List.mem_cons_self
    · exact List.mem_cons_of_mem addr (h.alloc a ha)
  handles := by
    rw [List.map_cons, map_handle hfile, FileWorld.handle, hnode]
    refine (h.handles.cons _).trans (List.Perm.of_eq (Eq.symm ?_))
    apply List.filter_cons_of_pos
    exact decide_eq_true rfl

theorem frame (h : TaskFiles w l t nodes) (hhead : w'.head t = w.head t)
    (hfile : ∀ a ∈ nodes, w'.file a = w.file a) (hnodes : ∀ a ∈ nodes, a ∈ w'.nodes)
    (hl : (l.filter fun x => x.task = t).Perm (l'.filter fun x => x.task = t)) :
    TaskFiles w' l' t nodes where
  chain := by
    rw [hhead]
    exact h.chain_congr hfile
  alloc := hnodes
  handles := by
    rw [map_handle hfile]
    exact h.handles.trans hl

end TaskFiles

section Search

variable {start prev : Option Nat} {fuel : Nat}

theorem findOpen_none (hchain : Chain w.next start nodes) (halloc : ∀ a ∈ nodes, a ∈ w.nodes)
    (hne : ∀ a ∈ nodes, (w.file a).inode ≠ inode) (hfuel : nodes.length ≤ fuel) :
    w.findOpen inode fuel prev start = .ok none := by
  induction nodes generalizing start prev fuel with
  | nil =>
    obtain rfl : start = none := hchain
    unfold FileWorld.findOpen
    rfl
  | cons a nodes ih =>
    obtain ⟨rfl, hchain⟩ := hchain
    obtain ⟨fuel, rfl⟩ : ∃ n, fuel = n + 1 := ⟨fuel - 1, by simp only [List.length_cons] at hfuel; omega⟩
    rw [FileWorld.findOpen, FileWorld.openFile, if_pos (halloc a List.mem_cons_self), ok_bind,
      if_neg (hne a List.mem_cons_self)]
    exact ih hchain (fun b hb => halloc b (List.mem_cons_of_mem a hb))
      (fun b hb => hne b (List.mem_cons_of_mem a hb)) (Nat.le_of_succ_le_succ hfuel)

theorem findOpen_some {k m : List Nat} (hchain : Chain w.next start (k ++ a :: m))
    (halloc : ∀ b ∈ k ++ a :: m, b ∈ w.nodes) (hne : ∀ b ∈ k, (w.file b).inode ≠ inode)
    (heq : (w.file a).inode = inode) (hfuel : k.length < fuel) :
    w.findOpen inode fuel prev start = .ok (some (k.getLast?.or prev, a)) := by
  induction k generalizing start prev fuel with
  | nil =>
    obtain ⟨rfl, _⟩ := hchain
    obtain ⟨fuel, rfl⟩ : ∃ n, fuel = n + 1 := ⟨fuel - 1, by omega⟩
    rw [FileWorld.findOpen, FileWorld.openFile, if_pos (halloc a List.mem_cons_self), ok_bind, if_pos heq]
    rfl
  | cons b k ih =>
    obtain ⟨rfl, hchain⟩ := hchain
    obtain ⟨fuel, rfl⟩ : ∃ n, fuel = n + 1 := ⟨fuel - 1, by omega⟩
    rw [FileWorld.findOpen, FileWorld.openFile, if_pos (halloc b List.mem_cons_self), ok_bind,
      if_neg (hne b List.mem_cons_self)]
    refine (ih hchain (fun c hc => halloc c (List.mem_cons_of_mem b hc))
      (fun c hc => hne c (List.mem_cons_of_mem b hc)) (Nat.lt_of_succ_lt_succ hfuel)).trans ?_
    rw [List.getLast?_cons]
    cases k.getLast? <;> rfl

end Search

namespace FileInv

theorem eq_of_inode (h : FileInv w l L) (hx : x ∈ l) (hy : y ∈ l) (htask : x.task = y.task)
    (hinode : x.inode = y.inode) : x = y :=
  List.inj_on_of_nodup_map h.once hx hy (by rw [htask, hinode])

theorem eq_of_fd (h : FileInv w l L) (hx : x ∈ l) (hy : y ∈ l) (htask : x.task = y.task)
    (hfd : x.fd = y.fd) : x = y := by
  apply h.eq_of_inode hx hy htask
  have htable := h.table y hy
  rw [← hfd, h.table x hx] at htable
  exact Option.some.inj htable

theorem node_inj (h : FileInv w l L) (ht : t ∈ w.tasks) {a b : Nat} (ha : a ∈ L t) (hb : b ∈ L t)
    (hinode : (w.file a).inode = (w.file b).inode) : a = b := by
  have hfiles := h.files t ht
  have hnodup : ((L t).map (w.handle t)).Nodup :=
    hfiles.handles.nodup_iff.2 ((List.Nodup.of_map _ h.once).filter _)
  apply List.inj_on_of_nodup_map hnodup ha hb
  exact h.eq_of_inode (hfiles.handle_mem ha) (hfiles.handle_mem hb) rfl hinode

theorem vfsOpen {path : Name} (h : FileInv w l L) (ht : t ∈ w.tasks) (hfits : CopyFits path)
    (hnew : ∀ a ∈ L t, (w.file a).inode ≠ inode) (hlt : w.refCnt inode + 1 < 2 ^ 16)
    (hopen : w.vfsOpen t path (some inode) addr = .ok (ret, w')) :
    ∃ fd, ret = Int.ofNat fd ∧
      FileInv w' (⟨t, inode, fd⟩ :: l) (update L t (addr :: L t)) := by
  have hfiles := h.files t ht
  rw [FileWorld.vfsOpen, hfits.parsePath_eq w] at hopen
  obtain ⟨⟨fd, hash⟩, halloc, hopen⟩ := bind_eq_ok hopen
  obtain ⟨hwf, htable, hcase⟩ := h.hash.allocFd halloc
  obtain ⟨w1, hadd, hopen⟩ := bind_eq_ok hopen
  cases hopen
  have hnone : ({ w with hash }.setRefCnt inode (w.refCnt inode + 1)).findOpen inode w.nodes.length
      none (w.head t) = .ok none :=
    findOpen_none hfiles.chain hfiles.alloc hnew hfiles.length_le
  obtain ⟨found, hfound, hadd⟩ := bind_eq_ok hadd
  cases hnone.symm.trans hfound
  dsimp only at hadd
  split at hadd
  · cases hadd
  rename_i haddr
  cases hadd
  replace haddr : addr ∉ w.nodes := fun hmem => haddr ⟨h.intact, hmem⟩
  -- the new node is in no list, so every node there is as it was
  have hkeep : ∀ t' ∈ w.tasks, ∀ a ∈ L t', update w.file addr ⟨inode, fd, w.head t⟩ a =
      w.file a := by
    intro t' ht' a ha
    apply update_of_ne
    rintro rfl
    exact haddr ((h.files t' ht').alloc a ha)
  have hself : update w.file addr ⟨inode, fd, w.head t⟩ addr = ⟨inode, fd, w.head t⟩ :=
    update_self ..
  have hfresh : ∀ x ∈ l, x.task = t → x.inode ≠ inode := by
    rintro x hx rfl rfl
    obtain ⟨a, ha, heq⟩ := List.mem_map.1 (hfiles.mem_iff.2 ⟨hx, rfl⟩)
    exact hnew a ha (congrArg Handle.inode heq)
  refine ⟨fd, rfl, ?_⟩
  constructor
  case files =>
    intro t' ht'
    by_cases heq : t' = t
    · subst heq
      rw [update_self]
      exact hfiles.cons (update_self ..) hself (hkeep t' ht') rfl
    · rw [update_of_ne heq]
      refine (h.files t' ht').frame (update_of_ne heq ..) (hkeep t' ht') ?_ ?_
      · exact fun a ha => List.mem_cons_of_mem addr ((h.files t' ht').alloc a ha)
      · apply List.Perm.of_eq
        exact (List.filter_cons_of_neg (by simpa using Ne.symm heq)).symm
  case live =>
    intro x hx
    rcases List.mem_cons.1 hx with rfl | hx
    · exact ht
    · exact h.live x hx
  case once =>
    refine List.nodup_cons.2 ⟨fun hmem => ?_, h.once⟩
    obtain ⟨x, hx, heq⟩ := List.mem_map.1 hmem
    exact hfresh x hx (congrArg Prod.fst heq) (congrArg Prod.snd heq)
  case hash => exact hwf
  case table =>
    intro x hx
    rcases List.mem_cons.1 hx with rfl | hx
    · show hash.fileTable fd = some inode
      rw [htable]
      exact update_self ..
    · show hash.fileTable x.fd = some x.inode
      have hold := h.table x hx
      rw [htable, update_apply]
      split
      · rename_i heq
        rw [heq] at hold
        rcases hcase with hsame | ⟨hfree, _⟩
        · exact hsame.symm.trans hold
        · exact absurd (hfree.symm.trans hold) nofun
      · exact hold
  case opened =>
    intro fd' inode' hfile
    have hfile' : hash.fileTable fd' = some inode' := hfile
    rw [htable, update_apply] at hfile'
    split at hfile'
    · cases hfile'
      exact ⟨_, List.mem_cons_self, rfl⟩
    · obtain ⟨x, hx, hinode⟩ := h.opened fd' inode' hfile'
      exact ⟨x, List.mem_cons_of_mem _ hx, hinode⟩
  case refCnt =>
    intro inode'
    show update w.refCnt inode ((w.refCnt inode + 1) % 2 ^ 16) inode' = _
    rw [List.countP_cons, ← h.refCnt inode', update_apply, Nat.mod_eq_of_lt hlt]
    by_cases heq : inode' = inode
    · subst heq
      rw [if_pos rfl, if_pos (decide_eq_true rfl)]
    · rw [if_neg heq, if_neg fun hdec => heq (of_decide_eq_true hdec).symm, Nat.add_zero]
  case small =>
    intro inode'
    show update w.refCnt inode ((w.refCnt inode + 1) % 2 ^ 16) inode' < 2 ^ 16
    rw [update_apply]
    split
    · exact Nat.mod_lt _ (by decide)
    · exact h.small inode'
  case nodes => exact List.nodup_cons.2 ⟨haddr, h.nodes⟩
  case tasks => exact h.tasks
  case intact => exact h.intact

/-- What `remove_open_file` leaves: the node is gone from the list of the task, and a list is as it was
when it does not share the node before. -/
structure Cut (w w' : FileWorld) (t a : Nat) (left : List Nat) : Prop where
  hash : w'.hash = w.hash
  refCnt : w'.refCnt = w.refCnt
  nodes : w'.nodes = w.nodes
  tasks : w'.tasks = w.tasks
  intact : w'.intact = w.intact
  handle : w'.handle = w.handle
  chain : Chain w'.next (w'.head t) left
  frame : ∀ t' ≠ t, ∀ k, Chain w.next (w.head t') k →
    (∀ prev ∈ k, OnList w t prev → w.next prev ≠ some a) → Chain w'.next (w'.head t') k

theorem removeOpenFile {k m : List Nat} (hchain : Chain w.next (w.head t) (k ++ a :: m))
    (halloc : ∀ b ∈ k ++ a :: m, b ∈ w.nodes) (hne : ∀ b ∈ k, (w.file b).inode ≠ (w.file a).inode)
    (hfuel : k.length < w.nodes.length) :
    ∃ w', w.removeOpenFile t (w.file a).inode = .ok (a, w') ∧ Cut w w' t a (k ++ m) := by
  have hfind : w.findOpen (w.file a).inode w.nodes.length none (w.head t) =
      .ok (some (k.getLast?.or none, a)) := findOpen_some hchain halloc hne rfl hfuel
  rcases List.eq_nil_or_concat' k with rfl | ⟨k, prev, rfl⟩
  · refine ⟨{ w with head := update w.head t (w.file a).next }, ?_, rfl, rfl, rfl, rfl, rfl, rfl, ?_, ?_⟩
    · rw [FileWorld.removeOpenFile, hfind, ok_bind]
      rfl
    · show Chain w.next (update w.head t _ t) _
      rw [update_self]
      exact hchain.2
    · intro t' hne' k hk _
      show Chain w.next (update w.head t _ t') k
      rwa [update_of_ne hne']
  · have hchain' : Chain w.next (w.head t) (k ++ prev :: a :: m) := by
      rwa [List.append_assoc] at hchain
    have hprev : OnList w t prev := ⟨_, hchain', List.mem_append_right k List.mem_cons_self⟩
    have hnext : w.next prev = some a := (Chain.of_append hchain').2.1
    -- the store goes to the node before, whose other fields stay
    have hnext' : ∀ b, (update w.file prev { w.file prev with next := w.next a } b).next =
        update w.next prev (w.next a) b := by
      intro b
      rw [update_apply, update_apply]
      split <;> rfl
    refine ⟨{ w with
        file := update w.file prev { w.file prev with next := (w.file a).next } }, ?_, rfl,
      rfl, rfl, rfl, rfl, ?_, ?_, ?_⟩
    · rw [FileWorld.removeOpenFile, hfind, ok_bind, List.getLast?_concat]
      rfl
    · funext t' b
      show Handle.mk t' (update w.file prev _ b).inode (update w.file prev _ b).fd = _
      rw [update_apply]
      split
      · rename_i heq
        rw [heq]
        rfl
      · rfl
    · rw [List.append_assoc]
      exact hchain'.unlink.congr fun b _ => hnext' b
    · intro t' hne' k' hk' hsep
      refine hk'.congr fun b hb => (hnext' b).trans (update_of_ne ?_ ..)
      rintro rfl
      exact hsep b hb hprev hnext

section

variable (h : FileInv w l L) (hx : x ∈ l)
include h hx

theorem removeHandle (cnt : Nat) :
    ∃ a k m w1, L x.task = k ++ a :: m ∧ w.handle x.task a = x ∧
      (w.setRefCnt x.inode cnt).removeOpenFile x.task x.inode = .ok (a, w1) ∧
        Cut (w.setRefCnt x.inode cnt) w1 x.task a (k ++ m) := by
  have hfiles := h.files x.task (h.live x hx)
  obtain ⟨a, ha, heq⟩ := List.mem_map.1 (hfiles.mem_iff.2 ⟨hx, rfl⟩)
  obtain ⟨k, m, hsplit⟩ := List.append_of_mem ha
  have hlen : k.length < w.nodes.length := by
    have hle := hfiles.length_le
    rw [hsplit, List.length_append, List.length_cons] at hle
    omega
  have hchain := hfiles.chain
  rw [hsplit] at hchain
  have hinode : (w.file a).inode = x.inode := congrArg Handle.inode heq
  have hne : ∀ b ∈ k, (w.file b).inode ≠ (w.file a).inode := by
    intro b hb hsame
    obtain rfl := h.node_inj (h.live x hx) (hsplit ▸ List.mem_append_left _ hb) ha hsame
    exact (List.nodup_append.1 hchain.nodup).2.2 b hb b List.mem_cons_self rfl
  obtain ⟨w1, hok, hcut⟩ := removeOpenFile (w := w.setRefCnt x.inode cnt) hchain
    (fun b hb => hfiles.alloc b (hsplit ▸ hb)) hne hlen
  exact ⟨a, k, m, w1, hsplit, heq, hinode ▸ hok, hcut⟩

theorem vfsClose_eq : ∃ a k m w1, L x.task = k ++ a :: m ∧ w.handle x.task a = x ∧
      Cut (w.setRefCnt x.inode (w.refCnt x.inode + 2 ^ 16 - 1)) w1 x.task a (k ++ m) ∧
      w1.refCnt = update w.refCnt x.inode (w.refCnt x.inode - 1) ∧
      ((w.refCnt x.inode ≠ 1 ∧ w.vfsClose x.task x.fd = .ok (0, w1)) ∨
        w.refCnt x.inode = 1 ∧ ∃ hash, hash.Wf ∧
          hash.fileTable = update w.hash.fileTable x.fd none ∧
            w.vfsClose x.task x.fd = .ok (0, { w1 with nodes := w.nodes.erase a, hash })) := by
  obtain ⟨a, k, m, w1, hsplit, heq, hremove, hcut⟩ :=
    h.removeHandle hx (w.refCnt x.inode + 2 ^ 16 - 1)
  have hpos : 0 < w.refCnt x.inode := by
    rw [h.refCnt]
    exact List.countP_pos_iff.2 ⟨x, hx, decide_eq_true rfl⟩
  have hcnt : (w.refCnt x.inode + 2 ^ 16 - 1) % 2 ^ 16 = w.refCnt x.inode - 1 := by
    have := h.small x.inode
    omega
  have hrefCnt : w1.refCnt = update w.refCnt x.inode (w.refCnt x.inode - 1) := by
    rw [hcut.refCnt, FileWorld.setRefCnt, hcnt]
  have htable := h.table x hx
  refine ⟨a, k, m, w1, hsplit, heq, hcut, hrefCnt, ?_⟩
  have hself : w1.refCnt x.inode = w.refCnt x.inode - 1 := by
    rw [hrefCnt, update_self]
  rw [FileWorld.vfsClose, h.hash.getInode_eq htable, ok_bind]
  dsimp only
  rw [hremove, ok_bind]
  dsimp only
  rw [hself]
  by_cases hone : w.refCnt x.inode = 1
  · right
    rw [if_pos (by omega)]
    have hhash : w1.hash = w.hash := hcut.hash
    have hnodes : w1.nodes = w.nodes := hcut.nodes
    obtain ⟨hash, hfree, hwf, hfile⟩ := h.hash.freeFd htable
    refine ⟨hone, hash, hwf, hfile, ?_⟩
    rw [hhash, hfree, ok_bind, hnodes]
  · left
    rw [if_neg (by omega)]
    exact ⟨hone, rfl⟩

theorem erase {k m nodes : List Nat} {w1 : FileWorld} {cnt : Nat} {hash : FdHash}
    (hsplit : L x.task = k ++ a :: m) (heq : w.handle x.task a = x)
    (hcut : Cut (w.setRefCnt x.inode cnt) w1 x.task a (k ++ m))
    (hrefCnt : w1.refCnt = update w.refCnt x.inode (w.refCnt x.inode - 1))
    (hsep : Separate w (.vfsClose x.task x.fd)) (hwf : hash.Wf)
    (htable : ∀ y ∈ l.erase x, hash.fileTable y.fd = some y.inode)
    (hopened : ∀ fd inode, hash.fileTable fd = some inode → ∃ y ∈ l.erase x, y.inode = inode)
    (hnodes : nodes.Nodup) (hleft : ∀ b ∈ k ++ m, b ∈ nodes)
    (halloc : ∀ t ∈ w.tasks, t ≠ x.task → ∀ b ∈ L t, b ∈ nodes) :
    FileInv { w1 with nodes, hash } (l.erase x) (update L x.task (k ++ m)) := by
  have hperm : l.Perm (x :: l.erase x) := List.perm_cons_erase hx
  have htasks : w1.tasks = w.tasks := hcut.tasks
  have hhandle : w1.handle = w.handle := hcut.handle
  constructor
  case files =>
    intro t ht
    have ht' : t ∈ w.tasks := htasks ▸ ht
    have hfiles := h.files t ht'
    have hfilter := hperm.filter fun y => decide (y.task = t)
    by_cases hself : t = x.task
    · subst hself
      rw [update_self]
      refine ⟨hcut.chain, hleft, ?_⟩
      show ((k ++ m).map (w1.handle x.task)).Perm _
      rw [List.filter_cons, if_pos (decide_eq_true rfl)] at hfilter
      have hall := hfiles.handles.trans hfilter
      rw [hsplit] at hall
      have hmiddle : (k ++ a :: m).Perm (a :: (k ++ m)) := List.perm_middle
      have hmap := hmiddle.map (w.handle x.task)
      rw [List.map_cons, heq] at hmap
      rw [hhandle]
      exact (hmap.symm.trans hall).cons_inv
    · rw [update_of_ne hself]
      rw [List.filter_cons, if_neg fun hdec => hself (of_decide_eq_true hdec).symm] at hfilter
      refine ⟨hcut.frame t hself (L t) hfiles.chain ?_, halloc t ht' hself, ?_⟩
      · intro prev hprev hon hnext
        refine hsep prev a hon hnext ?_ t ht' hself ⟨L t, hfiles.chain, hprev⟩
        rw [h.table x hx]
        exact congrArg some (congrArg Handle.inode heq).symm
      · show ((L t).map (w1.handle t)).Perm _
        rw [hhandle]
        exact hfiles.handles.trans hfilter
  case live =>
    intro y hy
    show y.task ∈ w1.tasks
    rw [htasks]
    exact h.live y (List.mem_of_mem_erase hy)
  case once => exact h.once.sublist (List.erase_sublist.map _)
  case hash => exact hwf
  case table => exact htable
  case opened => exact hopened
  case refCnt =>
    intro inode
    show w1.refCnt inode = _
    have hcount := hperm.countP_eq fun y => decide (y.inode = inode)
    rw [← h.refCnt inode, List.countP_cons] at hcount
    rw [hrefCnt, update_apply]
    split
    · rename_i hself
      subst hself
      rw [if_pos (decide_eq_true rfl)] at hcount
      omega
    · rename_i hne
      rw [if_neg fun hdec => hne (of_decide_eq_true hdec).symm] at hcount
      omega
  case small =>
    intro inode
    show w1.refCnt inode < 2 ^ 16
    rw [hrefCnt, update_apply]
    split
    · have := h.small x.inode
      omega
    · exact h.small inode
  case nodes => exact hnodes
  case tasks => exact htasks ▸ h.tasks
  case intact => exact hcut.intact.trans h.intact

theorem eq_of_one (hone : w.refCnt x.inode = 1) (hy : y ∈ l)
    (hinode : y.inode = x.inode) : y = x := by
  by_contra hne
  have hcount := (List.perm_cons_erase hx).countP_eq fun z => decide (z.inode = x.inode)
  rw [← h.refCnt, hone, List.countP_cons, if_pos (decide_eq_true rfl)] at hcount
  have hpos : 0 < (l.erase x).countP fun z => decide (z.inode = x.inode) :=
    List.countP_pos_iff.2 ⟨y, (List.mem_erase_of_ne hne).2 hy, decide_eq_true hinode⟩
  omega

theorem vfsClose (hsep : Separate w (.vfsClose x.task x.fd)) (hclose : w.vfsClose x.task x.fd = .ok (ret, w')) :
    ret = 0 ∧ ∃ L', FileInv w' (l.erase x) L' := by
  obtain ⟨a, k, m, w1, hsplit, heq, hcut, hrefCnt, hcase⟩ := h.vfsClose_eq hx
  have ht := h.live x hx
  have hfiles := h.files x.task ht
  have hnodup : l.Nodup := List.Nodup.of_map _ h.once
  have hleft : ∀ b ∈ k ++ m, b ∈ L x.task := by
    intro b hb
    rw [hsplit]
    exact List.perm_middle.mem_iff.2 (List.mem_cons_of_mem a hb)
  rcases hcase with ⟨hmany, hok⟩ | ⟨hone, hash, hwf, hfile, hok⟩
  · have hhash : w1.hash = w.hash := hcut.hash
    have hnodes : w1.nodes = w.nodes := hcut.nodes
    rw [hclose] at hok
    cases hok
    refine ⟨rfl, update L x.task (k ++ m), ?_⟩
    show FileInv { w' with nodes := w'.nodes, hash := w'.hash } _ _
    refine h.erase hx hsplit heq hcut hrefCnt hsep (hhash ▸ h.hash) ?_ ?_ (hnodes ▸ h.nodes) ?_ ?_
    · intro y hy
      rw [hhash]
      exact h.table y (List.mem_of_mem_erase hy)
    · intro fd inode hopen
      rw [hhash] at hopen
      obtain ⟨y, hy, rfl⟩ := h.opened fd inode hopen
      by_cases hinode : y.inode = x.inode
      · have hcount := (List.perm_cons_erase hx).countP_eq fun z => decide (z.inode = x.inode)
        rw [← h.refCnt, List.countP_cons, if_pos (decide_eq_true rfl)] at hcount
        have hpos : 0 < (l.erase x).countP fun z => decide (z.inode = x.inode) := by omega
        obtain ⟨z, hz, hdec⟩ := List.countP_pos_iff.1 hpos
        exact ⟨z, hz, (of_decide_eq_true hdec).trans hinode.symm⟩
      · refine ⟨y, (List.mem_erase_of_ne ?_).2 hy, rfl⟩
        rintro rfl
        exact hinode rfl
    · intro b hb
      rw [hnodes]
      exact hfiles.alloc b (hleft b hb)
    · intro t ht _ b hb
      rw [hnodes]
      exact (h.files t ht).alloc b hb
  · rw [hclose] at hok
    cases hok
    refine ⟨rfl, _, h.erase hx hsplit heq hcut hrefCnt hsep hwf ?_ ?_ (h.nodes.erase a) ?_ ?_⟩
    · intro y hy
      obtain ⟨hne, hyl⟩ := (List.Nodup.mem_erase_iff hnodup).1 hy
      rw [hfile, update_of_ne, h.table y hyl]
      intro hfd
      have htable := h.table y hyl
      rw [hfd, h.table x hx] at htable
      exact hne (h.eq_of_one hx hone hyl (Option.some.inj htable).symm)
    · intro fd inode hopen
      rw [hfile, update_apply] at hopen
      split at hopen
      · cases hopen
      · rename_i hfd
        obtain ⟨y, hy, rfl⟩ := h.opened fd inode hopen
        refine ⟨y, (List.mem_erase_of_ne ?_).2 hy, rfl⟩
        rintro rfl
        exact hfd (h.hash.inj hopen (h.table y hy))
    · intro b hb
      refine (List.mem_erase_of_ne ?_).2 (hfiles.alloc b (hleft b hb))
      rintro rfl
      have hchain := hfiles.chain.nodup
      rw [hsplit] at hchain
      exact (List.nodup_cons.1 (List.perm_middle.nodup_iff.1 hchain)).1 hb
    · intro t ht hne b hb
      refine (List.mem_erase_of_ne ?_).2 ((h.files t ht).alloc b hb)
      rintro rfl
      have hinode : (w.file b).inode = x.inode := congrArg Handle.inode heq
      have hother := h.eq_of_one hx hone ((h.files t ht).handle_mem hb) hinode
      exact hne (congrArg Handle.task hother)

end

theorem countFiles_ok {start : Option Nat} {fuel : Nat} (hchain : Chain w.next start nodes)
    (halloc : ∀ a ∈ nodes, a ∈ w.nodes) (hnodup : (nodes.map fun a => (w.file a).inode).Nodup)
    (hlt : ∀ a ∈ nodes, w.refCnt (w.file a).inode + 1 < 2 ^ 16)
    (hsmall : ∀ inode, w.refCnt inode < 2 ^ 16) (hfuel : nodes.length ≤ fuel) :
    ∃ refCnt, FileWorld.countFiles fuel start w = .ok { w with refCnt } ∧
      (∀ inode, refCnt inode < 2 ^ 16) ∧
        ∀ inode, refCnt inode = w.refCnt inode + nodes.countP fun a => (w.file a).inode = inode := by
  induction nodes generalizing w start fuel with
  | nil =>
    obtain rfl : start = none := hchain
    refine ⟨w.refCnt, ?_, hsmall, fun _ => rfl⟩
    unfold FileWorld.countFiles
    rfl
  | cons a nodes ih =>
    obtain ⟨rfl, hchain⟩ := hchain
    obtain ⟨fuel, rfl⟩ : ∃ n, fuel = n + 1 := ⟨fuel - 1, by simp only [List.length_cons] at hfuel; omega⟩
    have hcnt : ∀ inode, (w.setRefCnt (w.file a).inode (w.refCnt (w.file a).inode + 1)).refCnt inode =
        if inode = (w.file a).inode then w.refCnt (w.file a).inode + 1 else w.refCnt inode := by
      intro inode
      rw [FileWorld.setRefCnt, Nat.mod_eq_of_lt (hlt a List.mem_cons_self)]
      exact update_apply ..
    have hother : ∀ b ∈ nodes, (w.file b).inode ≠ (w.file a).inode := by
      intro b hb heq
      exact (List.nodup_cons.1 hnodup).1 (List.mem_map.2 ⟨b, hb, heq⟩)
    have hlt' : ∀ b ∈ nodes, (w.setRefCnt (w.file a).inode (w.refCnt (w.file a).inode + 1)).refCnt
        (w.file b).inode + 1 < 2 ^ 16 := by
      intro b hb
      rw [hcnt, if_neg (hother b hb)]
      exact hlt b (List.mem_cons_of_mem a hb)
    have hsmall' : ∀ inode, (w.setRefCnt (w.file a).inode
        (w.refCnt (w.file a).inode + 1)).refCnt inode < 2 ^ 16 := by
      intro inode
      rw [hcnt]
      split
      · exact hlt a List.mem_cons_self
      · exact hsmall inode
    obtain ⟨refCnt, hok, hless, hcount⟩ := ih
      (w := w.setRefCnt (w.file a).inode (w.refCnt (w.file a).inode + 1)) hchain
      (fun b hb => halloc b (List.mem_cons_of_mem a hb)) (List.nodup_cons.1 hnodup).2 hlt' hsmall'
      (Nat.le_of_succ_le_succ hfuel)
    refine ⟨refCnt, ?_, hless, fun inode => ?_⟩
    · rw [FileWorld.countFiles, FileWorld.openFile, if_pos (halloc a List.mem_cons_self), ok_bind]
      exact hok
    · rw [hcount, hcnt, List.countP_cons]
      by_cases heq : inode = (w.file a).inode
      · rw [if_pos heq, if_pos (decide_eq_true heq.symm), heq]
        exact Nat.succ_add ..
      · rw [if_neg heq, if_neg fun hdec => heq (of_decide_eq_true hdec).symm, Nat.add_zero]
        rfl

def copies (t child : Nat) (l : List Handle) : List Handle :=
  (l.filter fun x => x.task = t).map fun x => { x with task := child }

theorem mem_copies : x ∈ copies t child l ↔ ∃ y ∈ l, y.task = t ∧ { y with task := child } = x := by
  rw [copies, List.mem_map]
  simp only [List.mem_filter, decide_eq_true_iff, and_assoc]

section

variable (h : FileInv w l L)
include h

theorem addTask {refCnt : Nat → Nat} {head : Option Nat} (hchild : child ∉ w.tasks)
    (hchain : Chain w.next head nodes) (halloc : ∀ a ∈ nodes, a ∈ w.nodes)
    (hhandles : (nodes.map (w.handle child)).Perm l')
    (honce : (l'.map fun x => (x.task, x.inode)).Nodup)
    (htable : ∀ x ∈ l', x.task = child ∧ w.hash.fileTable x.fd = some x.inode)
    (hrefCnt : ∀ inode, refCnt inode = w.refCnt inode + l'.countP fun x => x.inode = inode)
    (hsmall : ∀ inode, refCnt inode < 2 ^ 16) :
    FileInv { w with refCnt, head := update w.head child head, tasks := child :: w.tasks }
      (l' ++ l) (update L child nodes) := by
  have hold : ∀ x ∈ l, x.task ≠ child := by
    rintro x hx rfl
    exact hchild (h.live x hx)
  constructor
  case files =>
    intro t ht
    by_cases heq : t = child
    · subst heq
      rw [update_self]
      refine ⟨?_, halloc, hhandles.trans (List.Perm.of_eq ?_)⟩
      · show Chain w.next (update w.head t head t) nodes
        rwa [update_self]
      · rw [List.filter_append, List.filter_eq_self.2 fun x hx => decide_eq_true (htable x hx).1,
          List.filter_eq_nil_iff.2 fun x hx hdec => hold x hx (of_decide_eq_true hdec), List.append_nil]
    · have ht' : t ∈ w.tasks := (List.mem_cons.1 ht).resolve_left heq
      rw [update_of_ne heq]
      refine (h.files t ht').frame (update_of_ne heq ..) (fun _ _ => rfl) (h.files t ht').alloc
        (List.Perm.of_eq ?_)
      have hnil : (l'.filter fun x => x.task = t) = [] := by
        refine List.filter_eq_nil_iff.2 fun x hx hdec => ?_
        exact heq ((of_decide_eq_true hdec).symm.trans (htable x hx).1)
      rw [List.filter_append, hnil, List.nil_append]
  case live =>
    intro x hx
    rcases List.mem_append.1 hx with hx | hx
    · exact List.mem_cons.2 (Or.inl (htable x hx).1)
    · exact List.mem_cons_of_mem child (h.live x hx)
  case once =>
    rw [List.map_append]
    refine List.nodup_append.2 ⟨honce, h.once, ?_⟩
    intro p hp q hq heq
    obtain ⟨x, hx, rfl⟩ := List.mem_map.1 hp
    obtain ⟨y, hy, rfl⟩ := List.mem_map.1 hq
    exact hold y hy ((congrArg Prod.fst heq).symm.trans (htable x hx).1)
  case hash => exact h.hash
  case table =>
    intro x hx
    rcases List.mem_append.1 hx with hx | hx
    · exact (htable x hx).2
    · exact h.table x hx
  case opened =>
    intro fd inode hopen
    obtain ⟨x, hx, hinode⟩ := h.opened fd inode hopen
    exact ⟨x, List.mem_append_right l' hx, hinode⟩
  case refCnt =>
    intro inode
    rw [List.countP_append, Nat.add_comm, ← h.refCnt inode]
    exact hrefCnt inode
  case small => exact hsmall
  case nodes => exact h.nodes
  case tasks => exact List.nodup_cons.2 ⟨hchild, h.tasks⟩
  case intact => exact h.intact

theorem fork {cloneFile : Bool} (ht : t ∈ w.tasks)
    (hchild : child ∉ w.cleaner :: w.tasks) (hsep : Separate w (.fork t child cloneFile))
    (hfork : w.kernelClone t child cloneFile = .ok w') :
    ∃ L', FileInv w' (record (.fork t child cloneFile) 0 l) L' := by
  have hchild' : child ∉ w.tasks := fun hmem => hchild (List.mem_cons_of_mem _ hmem)
  cases cloneFile with
  | false =>
    cases hfork
    refine ⟨update L child [], ?_⟩
    have hnil : Chain w.next none [] := rfl
    exact h.addTask hchild' hnil nofun (List.Perm.refl []) List.nodup_nil nofun (fun _ => rfl) h.small
  | true =>
    have hfiles := h.files t ht
    have hne : t ≠ child := by
      rintro rfl
      exact hchild' ht
    have hnodup : ((L t).map fun a => (w.file a).inode).Nodup := by
      refine List.Nodup.map_on (fun a ha b hb heq => h.node_inj ht ha hb heq) hfiles.chain.nodup
    have hlt : ∀ a ∈ L t, w.refCnt (w.file a).inode + 1 < 2 ^ 16 :=
      fun a ha => hsep rfl a (hfiles.onList_iff.2 ha)
    have hclone : w.kernelClone t child true = FileWorld.countFiles w.nodes.length (w.head t)
        { w with head := update w.head child (w.head t), tasks := child :: w.tasks } := by
      show FileWorld.countFiles w.nodes.length
        (update (update w.head child none) child
          (update w.head child none t) t) _ = _
      rw [update_of_ne hne, update_of_ne hne]
      show FileWorld.countFiles w.nodes.length (w.head t) { w with
        head := update (update w.head child none) child
          (update w.head child none t)
        tasks := child :: w.tasks } = _
      rw [update_of_ne hne, update_idem]
    obtain ⟨refCnt, hok, hless, hcount⟩ := countFiles_ok
      (w := { w with head := update w.head child (w.head t), tasks := child :: w.tasks })
      hfiles.chain hfiles.alloc hnodup hlt h.small hfiles.length_le
    rw [hclone, hok] at hfork
    cases hfork
    have hhandles : ((L t).map (w.handle child)).Perm (copies t child l) := by
      have hmap := hfiles.handles.map fun x => { x with task := child }
      rwa [List.map_map] at hmap
    refine ⟨update L child (L t), ?_⟩
    refine h.addTask hchild' hfiles.chain hfiles.alloc hhandles ?_ ?_ ?_ hless
    · rw [List.map_map]
      refine List.Nodup.map_on ?_ ((List.Nodup.of_map _ h.once).filter _)
      intro x hx y hy heq
      rw [List.mem_filter, decide_eq_true_iff] at hx hy
      exact h.eq_of_inode hx.1 hy.1 (hx.2.trans hy.2.symm) (congrArg Prod.snd heq)
    · intro x hx
      obtain ⟨y, hy, _, rfl⟩ := mem_copies.1 hx
      exact ⟨rfl, h.table y hy⟩
    · intro inode
      have hsame := hhandles.countP_eq fun x => decide (x.inode = inode)
      rw [List.countP_map] at hsame
      rw [hcount]
      exact congrArg (w.refCnt inode + ·) hsame

theorem taskExit (hnone : w.head t = none) (hexit : w.taskExit t = .ok w') :
    FileInv w' (record (.taskExit t) 0 l) L := by
  have hexit' : w' = { w with tasks := w.tasks.erase t } := by
    rw [FileWorld.taskExit, hnone] at hexit
    exact (Except.ok.inj hexit).symm
  subst hexit'
  have hother : ∀ x ∈ l, x.task ≠ t := by
    rintro x hx rfl
    have hfiles := h.files x.task (h.live x hx)
    have hnil : L x.task = [] := hfiles.chain.unique hnone
    have hmem := hfiles.mem_iff.2 ⟨hx, rfl⟩
    rw [hnil] at hmem
    exact absurd hmem List.not_mem_nil
  have hkeep : record (.taskExit t) 0 l = l :=
    List.filter_eq_self.2 fun x hx => decide_eq_true (hother x hx)
  rw [hkeep]
  exact {
    files := fun t' ht' =>
      have hfiles := h.files t' (List.mem_of_mem_erase ht')
      ⟨hfiles.chain, hfiles.alloc, hfiles.handles⟩
    live := fun x hx => (List.mem_erase_of_ne (hother x hx)).2 (h.live x hx)
    once := h.once
    hash := h.hash
    table := h.table
    opened := h.opened
    refCnt := h.refCnt
    small := h.small
    nodes := h.nodes
    tasks := h.tasks.erase t
    intact := h.intact }

theorem handle_iff (hx : x ∈ l) (hy : y ∈ l) :
    (y.task = x.task ∧ y.fd = x.fd) ↔ x = y := by
  constructor
  · rintro ⟨htask, hfd⟩
    exact h.eq_of_fd hx hy htask.symm hfd.symm
  · rintro rfl
    exact ⟨rfl, rfl⟩

theorem record_close (hx : x ∈ l) : record (.vfsClose x.task x.fd) 0 l = l.erase x := by
  show l.eraseP (fun y => y.task = x.task ∧ y.fd = x.fd) = _
  rw [List.erase_eq_eraseP]
  have hiff := fun y hy => h.handle_iff hx (y := y) hy
  clear h hx
  induction l with
  | nil => rfl
  | cons y l ih =>
    have hself := hiff y List.mem_cons_self
    rw [List.eraseP_cons, List.eraseP_cons, ih fun z hz => hiff z (List.mem_cons_of_mem y hz)]
    simp only [hself, beq_eq_decide]

/-- A close of a descriptor that its task has no handle for changes nothing, where it returns. -/
theorem vfsClose_other (ht : t ∈ w.tasks)
    (hnone : ∀ x ∈ l, x.task = t → x.fd ≠ fd) (hclose : w.vfsClose t fd = .ok (ret, w')) :
    ret = -1 ∧ w' = w := by
  obtain ⟨found, hfound, hclose⟩ := bind_eq_ok hclose
  cases found with
  | none =>
    cases hclose
    exact ⟨rfl, rfl⟩
  | some node =>
    have hfiles := h.files t ht
    have hfile : w.hash.fileTable fd = some node := by
      rw [FdHash.getInode] at hfound
      split at hfound
      · exact Except.ok.inj hfound
      · cases hfound
    -- the search fails, and with it the assertion
    have hsearch : (w.setRefCnt node (w.refCnt node + 2 ^ 16 - 1)).findOpen node w.nodes.length none
        (w.head t) = .ok none := by
      refine findOpen_none hfiles.chain hfiles.alloc (fun a ha heq => ?_) hfiles.length_le
      have hx := hfiles.handle_mem ha
      refine hnone _ hx rfl (h.hash.inj (h.table _ hx) ?_)
      rw [hfile]
      exact congrArg some heq.symm
    obtain ⟨⟨_, _⟩, hremove, _⟩ := bind_eq_ok hclose
    obtain ⟨found, hfound, hremove⟩ := bind_eq_ok hremove
    cases hsearch.symm.trans hfound
    cases hremove

theorem step (hsep : Separate w ev)
    (hstep : w.step ev = .ok (some (ret, w'))) : ∃ L', FileInv w' (record ev ret l) L' := by
  cases ev with
  | vfsOpen t path found addr =>
    rw [FileWorld.step] at hstep
    split at hstep
    · rename_i ht
      obtain ⟨r, hopen, hstep⟩ := bind_eq_ok hstep
      cases hstep
      cases found with
      | none =>
        rw [FileWorld.vfsOpen, CopyFits.parsePath_eq hsep w] at hopen
        cases hopen
        exact ⟨L, h⟩
      | some inode =>
        obtain ⟨hfits, hnew, hlt⟩ := hsep
        obtain ⟨fd, rfl, hinv⟩ :=
          h.vfsOpen ht hfits (fun a ha => hnew a ((h.files t ht).onList_iff.2 ha)) hlt hopen
        exact ⟨_, hinv⟩
    · cases hstep
  | vfsClose t fd =>
    rw [FileWorld.step] at hstep
    split at hstep
    · rename_i ht
      obtain ⟨r, hclose, hstep⟩ := bind_eq_ok hstep
      cases hstep
      by_cases hsome : ∃ x ∈ l, x.task = t ∧ x.fd = fd
      · obtain ⟨x, hx, rfl, rfl⟩ := hsome
        obtain ⟨rfl, L', hinv⟩ := h.vfsClose hx hsep hclose
        rw [h.record_close hx]
        exact ⟨L', hinv⟩
      · have hnone : ∀ x ∈ l, x.task = t → x.fd ≠ fd :=
          fun x hx htask hfd => hsome ⟨x, hx, htask, hfd⟩
        obtain ⟨rfl, rfl⟩ := h.vfsClose_other ht hnone hclose
        exact ⟨L, h⟩
    · cases hstep
  | fork t child cloneFile =>
    rw [FileWorld.step] at hstep
    split at hstep
    · rename_i hguard
      obtain ⟨w1, hfork, hstep⟩ := bind_eq_ok hstep
      cases hstep
      exact h.fork hguard.1 hguard.2 hsep hfork
    · cases hstep
  | taskExit t =>
    rw [FileWorld.step] at hstep
    split at hstep
    · obtain ⟨w1, hexit, hstep⟩ := bind_eq_ok hstep
      cases hstep
      exact ⟨L, h.taskExit hsep hexit⟩
    · cases hstep

end

end FileInv

theorem OpenRun.inv (hstart : NoFiles w0) (hrun : OpenRun Separate w0 w l) : ∃ L, FileInv w l L := by
  induction hrun with
  | start => exact ⟨_, hstart.inv⟩
  | step _ ev hcond hstep ih =>
    obtain ⟨L, hinv⟩ := ih
    exact hinv.step hcond hstep

theorem FileInv.openOk (h : FileInv w l L) : OpenOk w l where
  refCnt := h.refCnt
  matched := by
    intro t fd
    by_cases hsome : ∃ x ∈ l, x.task = t ∧ x.fd = fd
    · obtain ⟨x, hx, rfl, rfl⟩ := hsome
      have hone : (l.countP fun y => y.task = x.task ∧ y.fd = x.fd) = 1 := by
        rw [← List.count_eq_one_of_mem (List.Nodup.of_map _ h.once) hx]
        refine List.countP_congr fun y hy => ?_
        rw [decide_eq_true_iff, h.handle_iff hx hy, beq_iff_eq]
        exact eq_comm
      obtain ⟨a, k, m, w1, _, _, _, _, hcase⟩ := h.vfsClose_eq hx
      obtain ⟨w2, hok⟩ : ∃ w2, w.vfsClose x.task x.fd = .ok (0, w2) := by
        rcases hcase with ⟨_, hok⟩ | ⟨_, _, _, _, hok⟩
        · exact ⟨_, hok⟩
        · exact ⟨_, hok⟩
      refine ⟨w2, ?_⟩
      rw [hone, FileWorld.closeTimes, hok]
      rfl
    · refine ⟨w, ?_⟩
      rw [List.countP_eq_zero.2 fun x hx hdec => hsome ⟨x, hx, of_decide_eq_true hdec⟩]
      rfl
  valid := by
    intro fd inode
    constructor
    · intro hget
      rw [FdHash.getInode] at hget
      split at hget
      · have hfile := Except.ok.inj hget
        obtain ⟨x, hx, rfl⟩ := h.opened fd inode hfile
        exact ⟨x, hx, h.hash.inj (h.table x hx) hfile, rfl⟩
      · cases hget
    · rintro ⟨x, hx, rfl, rfl⟩
      exact h.hash.getInode_eq (h.table x hx)

/-- In a run whose steps are all separate, the kernel keeps the handles. -/
theorem openRun_openOk (hstart : NoFiles w0) (hrun : OpenRun Separate w0 w l) : OpenOk w l := by
  obtain ⟨L, hinv⟩ := hrun.inv hstart
  exact hinv.openOk

def oneTask : FileWorld where
  hash := { entry := fun _ => none, fileTable := fun _ => none }
  refCnt := fun _ => 0
  file := fun _ => ⟨0, 0, none⟩
  nodes := []
  head := fun _ => none
  tasks := [1]
  cleaner := 0
  intact := true

theorem oneTask_noFiles : NoFiles oneTask where
  hash := FdHash.wf_empty
  fileTable := fun _ => rfl
  refCnt := fun _ => rfl
  head := fun _ => rfl
  nodes := List.nodup_nil
  tasks := List.nodup_singleton 1
  intact := rfl

theorem exists_step {β : Type} {f : Int × FileWorld → β} {b : β}
    (h : (w.step ev).toOption.join.map f = some b) : ∃ r, w.step ev = .ok (some r) ∧ f r = b := by
  cases hstep : w.step ev with
  | error e =>
    rw [hstep] at h
    cases h
  | ok r =>
    rw [hstep] at h
    obtain ⟨r, rfl, hf⟩ := Option.map_eq_some_iff.1 h
    exact ⟨r, rfl, hf⟩

/-- The task opens a file. -/
theorem openRun_openOk_oneTask : ∃ w l, OpenRun Separate oneTask w l ∧ l ≠ [] ∧ OpenOk w l := by
  have hsep : Separate oneTask (.vfsOpen 1 [0x61] (some 0xc0000010) 64) := by
    refine ⟨by decide, ?_, by decide⟩
    rintro a ⟨nodes, hchain, ha⟩
    have hnil : nodes = [] := hchain.unique rfl
    rw [hnil] at ha
    exact absurd ha List.not_mem_nil
  have hret : ((oneTask.step (.vfsOpen 1 [0x61] (some 0xc0000010) 64)).toOption.join.map Prod.fst) =
      some 0 := by
    decide +kernel
  obtain ⟨⟨ret, w⟩, hstep, rfl⟩ := exists_step hret
  have hrun := OpenRun.start.step _ hsep hstep
  exact ⟨w, _, hrun, List.cons_ne_nil _ _, openRun_openOk oneTask_noFiles hrun⟩

/-- A task that has opened a file twice can close it once, and one that exits with a file open fails an
assertion: `remove_open_file` searches the list of the cleaner. -/
theorem openTwice_not_openOk : (∃ w l, OpenRun (fun _ _ => True) oneTask w l ∧ ¬ OpenOk w l) ∧
      ∃ w l, OpenRun (fun _ _ => True) oneTask w l ∧ l ≠ [] ∧
        ∀ r, w.step (.taskExit 1) ≠ .ok r := by
  constructor
  · have hret : ((oneTask.step (.vfsOpen 1 [0x61] (some 0xc0000010) 64)).toOption.join.map fun r =>
        (r.1, (r.2.step (.vfsOpen 1 [0x61] (some 0xc0000010) 128)).toOption.join.map fun r =>
          (r.1, (FileWorld.closeTimes 1 0 2 r.2).isOk))) = some (0, some (0, false)) := by
      decide +kernel
    obtain ⟨⟨ret, w⟩, hstep, hret⟩ := exists_step hret
    obtain ⟨rfl, hret⟩ := Prod.mk.inj hret
    obtain ⟨⟨ret, w'⟩, hstep', hret⟩ := exists_step hret
    obtain ⟨rfl, hclose⟩ := Prod.mk.inj hret
    refine ⟨w', _, (OpenRun.start.step _ trivial hstep).step _ trivial hstep', fun hok => ?_⟩
    obtain ⟨w'', hok⟩ := hok.matched 1 0
    have hok' : FileWorld.closeTimes 1 0 2 w' = .ok w'' := hok
    rw [hok'] at hclose
    cases hclose
  · have hret : ((oneTask.step (.vfsOpen 1 [0x61] (some 0xc0000010) 64)).toOption.join.map fun r =>
        (r.1, (r.2.step (.taskExit 1)).isOk)) = some (0, false) := by
      decide +kernel
    obtain ⟨⟨ret, w⟩, hstep, hret⟩ := exists_step hret
    obtain ⟨rfl, hexit⟩ := Prod.mk.inj hret
    refine ⟨w, _, OpenRun.start.step _ trivial hstep, List.cons_ne_nil _ _, fun r hok => ?_⟩
    rw [hok] at hexit
    cases hexit

end QuarkOS
