import Mathlib.Algebra.Order.BigOperators.Group.List
import Mathlib.Order.CompletePartialOrder
import Mathlib.Order.Interval.Set.Disjoint
import QuarkOS.Mm.PageSetup

/-!
# Memory before the page allocator

`memBlock_init` makes the list of free regions from the memory map of the boot loader. It is meant to be
in ascending order, but the insertion sort compares the pointers to the nodes and not the addresses in
them; the nodes are in one array, so it never moves one and the list has the order of the map.

`block_alloc` takes the first region that is large enough and cuts what it needs off its front, and
`block_alloc_align` asks for so much more that an aligned address is among what it gets. Whatever is asked
for, the ranges that were handed out and the regions that are left share no byte, since each call only
moves bytes from one region to the range that it hands out.
-/

namespace QuarkOS

def BlockInfo.range (i : BlockInfo) : Set Nat := Set.Ico i.addr (i.addr + i.size)

def multibootMemoryAvailable : Nat := 1

def multibootMemoryReserved : Nat := 2

/-- `struct multiboot_mmap_entry`. The address and the length have 64 bits. -/
structure MmapEntry where
  addr : Nat
  len : Nat
  type : Nat
  zero : Nat
deriving DecidableEq, Repr

namespace MmapEntry

variable (entry : MmapEntry)

def Available : Prop := entry.type = multibootMemoryAvailable

instance : DecidablePred Available := fun entry =>
  inferInstanceAs (Decidable (entry.type = multibootMemoryAvailable))

def range : Set Nat := Set.Ico entry.addr (entry.addr + entry.len)

/-- The memory of the kernel and below it is not available. -/
def aboveKernel (kEnd : Nat) : MmapEntry :=
  if entry.Available ∧ entry.addr < kEnd then
    let endAddr := (entry.addr + entry.len) % 2 ^ 64
    if endAddr < kEnd then { entry with type := multibootMemoryReserved }
    else { entry with addr := kEnd, len := endAddr - kEnd }
  else entry

/-- What the array of `blockInfo`s takes from the front of an entry. -/
def cutFront (alloc : Nat) : MmapEntry :=
  { entry with addr := (entry.addr + alloc) % 2 ^ 64, len := entry.len - alloc }

/-- The `blockInfo` of an entry, which has 32 bits for the address and the size. -/
def info : BlockInfo where
  addr := entry.addr % 2 ^ 32
  size := entry.len % 2 ^ 32

end MmapEntry

/-- The first loop of `memBlock_init`: the entries that it went over, the lowest one of them that is
available with its place, and the number of those. -/
structure MmapScan where
  passed : List MmapEntry
  firstMem : Option (Nat × MmapEntry)
  cnt : Nat
deriving DecidableEq, Repr

def MmapScan.lower (s : MmapScan) (entry : MmapEntry) : Bool :=
  match s.firstMem with
  | none => true
  | some (_, first) => first.addr > entry.addr

def MmapScan.entry (kEnd : Nat) (s : MmapScan) (entry : MmapEntry) : Except Fault MmapScan := do
  assertk (entry.zero = 0)
  let entry := entry.aboveKernel kEnd
  if entry.Available then
    .ok { passed := s.passed ++ [entry]
          firstMem := if s.lower entry then some (s.passed.length, entry) else s.firstMem
          cnt := (s.cnt + 1) % 2 ^ 32 }
  else .ok { s with passed := s.passed ++ [entry] }

def sizeofBlockInfo : Nat := 16

/-- The second loop, with the pointer to the next `blockInfo`. A node of the list is given with its
address. -/
def addInfos : List MmapEntry → Nat → Nat → List (Nat × BlockInfo) →
    Except Fault (Nat × Nat × List (Nat × BlockInfo))
  | [], info, size, nodes => .ok (info, size, nodes)
  | entry :: entries, info, size, nodes => do
    assertk (entry.zero = 0)
    if entry.Available then
      addInfos entries (info + sizeofBlockInfo) ((size + entry.len) % 2 ^ 32)
        (nodes ++ [(info, entry.info)])
    else addInfos entries info size nodes

/-- A node is put behind the first one, from the back on, that it does not have to stand before. -/
def sortInsert (hdr : Nat × BlockInfo) : List (Nat × BlockInfo) → List (Nat × BlockInfo)
  | [] => [hdr]
  | tmp :: before => if hdr.1 < tmp.1 then tmp :: sortInsert hdr before else hdr :: tmp :: before

/-- The nodes before the next one are in the accumulator, from the last one on. -/
def sortBlockInfo (nodes : List (Nat × BlockInfo)) : List (Nat × BlockInfo) :=
  (nodes.foldl (fun before hdr => sortInsert hdr before) []).reverse

/-- What the page tables of the boot code map. -/
def bootMapped : Nat := 0x400000

/-- `memBlock_init` up to the call of `reload`, with the address of the array of `blockInfo`s. -/
def memBlockInit (kEnd : Nat) (mmap : List MmapEntry) : Except Fault (Nat × BlockAllocator) := do
  let s ← mmap.foldlM (MmapScan.entry kEnd) { passed := [], firstMem := none, cnt := 0 }
  match s.firstMem with
  | none => .error .assertk
  | some (place, first) => do
    assertk (first.addr < bootMapped)
    assertk (s.cnt ≠ 0)
    let alloc := sizeofBlockInfo * s.cnt % 2 ^ 32
    let infos := first.addr + kernelStart
    assertk (first.len > alloc)
    if bootMapped < first.addr + alloc then .error .pageFault
    else do
      let entries := s.passed.modify place fun entry => entry.cutFront alloc
      let (info, size, nodes) ← addInfos entries infos 0 []
      assertk (info = infos + alloc)
      let nodes := sortBlockInfo nodes
      match nodes with
      | [] => .error .undefined
      | (_, node) :: _ => .ok (infos, { addr := node.addr, size, infos := nodes.map Prod.snd })

theorem sortInsert_of_le {hdr : Nat × BlockInfo} {before : List (Nat × BlockInfo)}
    (h : ∀ tmp ∈ before, tmp.1 ≤ hdr.1) : sortInsert hdr before = hdr :: before := by
  cases before with
  | nil => rfl
  | cons tmp before =>
    rw [sortInsert, if_neg (Nat.not_lt.2 (h tmp List.mem_cons_self))]

theorem sortBlockInfo_of_pairwise {nodes : List (Nat × BlockInfo)}
    (h : nodes.Pairwise fun a b => a.1 ≤ b.1) : sortBlockInfo nodes = nodes := by
  suffices hfold : ∀ before, (∀ tmp ∈ before, ∀ hdr ∈ nodes, tmp.1 ≤ hdr.1) →
      nodes.foldl (fun before hdr => sortInsert hdr before) before = nodes.reverse ++ before by
    rw [sortBlockInfo, hfold [] nofun, List.append_nil, List.reverse_reverse]
  induction nodes with
  | nil => exact fun _ _ => rfl
  | cons hdr nodes ih =>
    intro before hbefore
    rw [List.pairwise_cons] at h
    rw [List.foldl_cons, sortInsert_of_le fun tmp htmp => hbefore tmp htmp hdr List.mem_cons_self,
      ih h.2, List.reverse_cons, List.append_assoc, List.singleton_append]
    rintro tmp (_ | ⟨_, htmp⟩) x hx
    · exact h.1 x hx
    · exact hbefore tmp htmp x (List.mem_cons_of_mem _ hx)

def available (entries : List MmapEntry) : List MmapEntry := entries.filter fun e => e.Available

variable {e first : MmapEntry} {entries passed mmap : List MmapEntry} {kEnd : Nat}

theorem available_cons_of_pos (h : e.Available) :
    available (e :: entries) = e :: available entries := List.filter_cons_of_pos (decide_eq_true h)

theorem available_cons_of_neg (h : ¬ e.Available) : available (e :: entries) = available entries :=
  List.filter_cons_of_neg (by rwa [decide_eq_true_iff])

theorem available_append (l l' : List MmapEntry) :
    available (l ++ l') = available l ++ available l' := List.filter_append ..

theorem mem_available : e ∈ available entries ↔ e ∈ entries ∧ e.Available := by
  rw [available, List.mem_filter, decide_eq_true_iff]

/-- The parts of the map above the kernel, in its order. -/
def usable (kEnd : Nat) (mmap : List MmapEntry) : List MmapEntry :=
  available (mmap.map fun entry => entry.aboveKernel kEnd)

/-- The first one of the lowest entries loses its front. -/
def cutLowest (alloc : Nat) : List MmapEntry → List MmapEntry
  | [] => []
  | entry :: entries =>
    if ∀ e ∈ entries, entry.addr ≤ e.addr then entry.cutFront alloc :: entries
    else entry :: cutLowest alloc entries

/-- The regions that are made of a map, in its order. -/
def parts (kEnd : Nat) (mmap : List MmapEntry) : List BlockInfo :=
  (cutLowest (sizeofBlockInfo * (usable kEnd mmap).length) (usable kEnd mmap)).map MmapEntry.info

theorem cutLowest_append {alloc : Nat} {before after : List MmapEntry}
    (hbefore : ∀ e ∈ before, first.addr < e.addr) (hafter : ∀ e ∈ after, first.addr ≤ e.addr) :
    cutLowest alloc (before ++ first :: after) = before ++ first.cutFront alloc :: after := by
  induction before with
  | nil => rw [List.nil_append, cutLowest, if_pos hafter, List.nil_append]
  | cons e before ih =>
    rw [List.cons_append, cutLowest, if_neg, ih fun x hx => hbefore x (List.mem_cons_of_mem _ hx),
      List.cons_append]
    intro hall
    exact absurd (hall first (by simp)) (Nat.not_le.2 (hbefore e List.mem_cons_self))

/-- What `firstMem` says about the entries that were passed. -/
def Lowest (passed : List MmapEntry) : Option (Nat × MmapEntry) → Prop
  | none => ∀ e ∈ passed, ¬ e.Available
  | some (place, first) => first.Available ∧ ∃ before after, passed = before ++ first :: after ∧
    before.length = place ∧ (∀ e ∈ available before, first.addr < e.addr) ∧
    ∀ e ∈ available after, first.addr ≤ e.addr

theorem Lowest.append_neg : ∀ {o : Option (Nat × MmapEntry)},
    Lowest passed o → ¬ e.Available → Lowest (passed ++ [e]) o
  | none, h, hnot => by
    intro x hx
    obtain hx | hx := List.mem_append.1 hx
    · exact h x hx
    · cases List.mem_singleton.1 hx
      exact hnot
  | some (place, first), h, hnot => by
    obtain ⟨hav, before, after, rfl, hlen, hbefore, hafter⟩ := h
    refine ⟨hav, before, after ++ [e], by simp, hlen, hbefore, ?_⟩
    rw [available_append, available_cons_of_neg hnot]
    simpa [available] using hafter

theorem Lowest.append_higher {place : Nat}
    (h : Lowest passed (some (place, first))) (hle : first.addr ≤ e.addr) :
    Lowest (passed ++ [e]) (some (place, first)) := by
  obtain ⟨hav, before, after, rfl, hlen, hbefore, hafter⟩ := h
  refine ⟨hav, before, after ++ [e], by simp, hlen, hbefore, fun x hx => ?_⟩
  obtain ⟨hx, hxa⟩ := mem_available.1 hx
  obtain hx | hx := List.mem_append.1 hx
  · exact hafter x (mem_available.2 ⟨hx, hxa⟩)
  · cases List.mem_singleton.1 hx
    exact hle

theorem Lowest.append_lower : ∀ {o : Option (Nat × MmapEntry)}, Lowest passed o → e.Available →
    (∀ place first, o = some (place, first) → e.addr < first.addr) →
    Lowest (passed ++ [e]) (some (passed.length, e))
  | none, h, hav, _ =>
    ⟨hav, passed, [], rfl, rfl,
      fun x hx => absurd (mem_available.1 hx).2 (h x (mem_available.1 hx).1), nofun⟩
  | some (place, first), h, hav, hlow => by
    have hlow := hlow place first rfl
    obtain ⟨_, before, after, rfl, _, hbefore, hafter⟩ := h
    refine ⟨hav, _, [], rfl, rfl, fun x hx => ?_, nofun⟩
    obtain ⟨hx, hxa⟩ := mem_available.1 hx
    obtain hx | hx := List.mem_append.1 hx
    · exact hlow.trans (hbefore x (mem_available.2 ⟨hx, hxa⟩))
    · obtain rfl | hx := List.mem_cons.1 hx
      · exact hlow
      · exact hlow.trans_le (hafter x (mem_available.2 ⟨hx, hxa⟩))

theorem MmapScan.lower_eq_true {s : MmapScan} :
    s.lower e = true ↔ ∀ place first, s.firstMem = some (place, first) → e.addr < first.addr := by
  rw [lower]
  cases s.firstMem with
  | none => simp
  | some found =>
    obtain ⟨place, first⟩ := found
    simp

theorem MmapScan.entry_eq_ok {s s' : MmapScan} (h : s.entry kEnd e = .ok s') :
    s'.passed = s.passed ++ [e.aboveKernel kEnd] ∧
      (Lowest s.passed s.firstMem → Lowest s'.passed s'.firstMem) := by
  obtain ⟨_, _, h⟩ := bind_eq_ok h
  dsimp only at h
  split at h
  · rename_i havail
    cases h
    refine ⟨rfl, fun hs => ?_⟩
    dsimp only
    split
    · rename_i hlow
      exact hs.append_lower havail (lower_eq_true.1 hlow)
    · rename_i hhigh
      rw [lower_eq_true] at hhigh
      push Not at hhigh
      obtain ⟨place, first, hfirst, hle⟩ := hhigh
      rw [hfirst] at hs ⊢
      exact hs.append_higher hle
  · rename_i hnot
    cases h
    exact ⟨rfl, fun hs => hs.append_neg hnot⟩

theorem foldlM_entry : ∀ {s s' : MmapScan}, mmap.foldlM (MmapScan.entry kEnd) s = .ok s' →
    s'.passed = s.passed ++ (mmap.map fun e => e.aboveKernel kEnd) ∧
      (Lowest s.passed s.firstMem → Lowest s'.passed s'.firstMem) := by
  induction mmap with
  | nil =>
    intro s s' h
    cases h
    exact ⟨(List.append_nil _).symm, id⟩
  | cons e mmap ih =>
    intro s s' h
    rw [List.foldlM_cons] at h
    obtain ⟨s1, hentry, h⟩ := bind_eq_ok h
    obtain ⟨hpassed, hfound⟩ := MmapScan.entry_eq_ok hentry
    obtain ⟨hpassed', hfound'⟩ := ih h
    refine ⟨?_, hfound' ∘ hfound⟩
    rw [hpassed', hpassed, List.append_assoc, List.singleton_append, List.map_cons]

theorem addInfos_eq_ok : ∀ {info size : Nat}
    {nodes : List (Nat × BlockInfo)} {info' size' : Nat} {nodes' : List (Nat × BlockInfo)},
    addInfos entries info size nodes = .ok (info', size', nodes') → size < 2 ^ 32 →
    (∀ node ∈ nodes, node.1 ≤ info) → (nodes.Pairwise fun a b => a.1 ≤ b.1) →
    info' = info + sizeofBlockInfo * (available entries).length ∧
      size' = (size + (((available entries).map MmapEntry.info).map BlockInfo.size).sum) % 2 ^ 32 ∧
      nodes'.map Prod.snd = nodes.map Prod.snd ++ (available entries).map MmapEntry.info ∧
      nodes'.Pairwise fun a b => a.1 ≤ b.1 := by
  induction entries with
  | nil =>
    intro info size nodes info' size' nodes' h hsize _ hnodes
    cases h
    exact ⟨rfl, (Nat.mod_eq_of_lt hsize).symm, (List.append_nil _).symm, hnodes⟩
  | cons e entries ih =>
    intro info size nodes info' size' nodes' h hsize hle hnodes
    obtain ⟨_, _, h⟩ := bind_eq_ok h
    split at h
    · rename_i havail
      have hle' : ∀ node ∈ nodes ++ [(info, e.info)], node.1 ≤ info + sizeofBlockInfo := by
        intro node hnode
        obtain hnode | hnode := List.mem_append.1 hnode
        · exact (hle node hnode).trans (Nat.le_add_right _ _)
        · cases List.mem_singleton.1 hnode
          exact Nat.le_add_right _ _
      have hnodes' : (nodes ++ [(info, e.info)]).Pairwise fun a b => a.1 ≤ b.1 := by
        refine List.pairwise_append.2 ⟨hnodes, List.pairwise_singleton .., fun a ha b hb => ?_⟩
        cases List.mem_singleton.1 hb
        exact hle a ha
      obtain ⟨hinfo, hsize', hmap, hpair⟩ := ih h (Nat.mod_lt _ (by decide)) hle' hnodes'
      rw [available_cons_of_pos havail]
      refine ⟨?_, ?_, ?_, hpair⟩
      · rw [hinfo, List.length_cons, Nat.mul_succ]
        omega
      · have hlen : e.info.size = e.len % 2 ^ 32 := rfl
        rw [hsize', List.map_cons, List.map_cons, List.sum_cons, hlen]
        omega
      · rw [hmap, List.map_append, List.map_cons, List.append_assoc]
        rfl
    · rename_i hnot
      rw [available_cons_of_neg hnot]
      exact ih h hsize hle hnodes

theorem available_modify {alloc place : Nat} (h : Lowest passed (some (place, first))) :
    available (passed.modify place fun e => e.cutFront alloc) = cutLowest alloc (available passed) := by
  obtain ⟨hav, before, after, rfl, rfl, hbefore, hafter⟩ := h
  have hav' : (first.cutFront alloc).Available := hav
  have hmod : (before ++ first :: after).modify before.length (fun e => e.cutFront alloc) =
      before ++ first.cutFront alloc :: after := by
    rw [List.modify_eq_take_cons_drop (by simp)]
    simp
  rw [hmod, available_append, available_cons_of_pos hav', available_append, available_cons_of_pos hav,
    cutLowest_append hbefore hafter]

theorem length_cutLowest (alloc : Nat) (entries : List MmapEntry) :
    (cutLowest alloc entries).length = entries.length := by
  induction entries with
  | nil => rfl
  | cons e entries ih =>
    rw [cutLowest]
    split
    · rfl
    · rw [List.length_cons, ih, List.length_cons]

theorem memBlockInit_eq_ok {array : Nat} {b : BlockAllocator}
    (h : memBlockInit kEnd mmap = .ok (array, b)) :
    b.infos = parts kEnd mmap ∧ b.size = ((parts kEnd mmap).map BlockInfo.size).sum % 2 ^ 32 ∧
      ∃ before first after, usable kEnd mmap = before ++ first :: after ∧
        (∀ e ∈ before, first.addr < e.addr) ∧ (∀ e ∈ after, first.addr ≤ e.addr) ∧
        array = first.addr + kernelStart ∧ sizeofBlockInfo * (usable kEnd mmap).length < first.len := by
  obtain ⟨s, hscan, h⟩ := bind_eq_ok h
  obtain ⟨hpassed, hlow⟩ := foldlM_entry hscan
  have hlow : Lowest s.passed s.firstMem := hlow nofun
  rw [List.nil_append] at hpassed
  have husable : available s.passed = usable kEnd mmap := congrArg available hpassed
  split at h
  · cases h
  · rename_i place first hfirst
    rw [hfirst] at hlow
    simp only [bind_ok_iff] at h
    obtain ⟨_, _, _, _, _, hroom, h⟩ := h
    have hroom := of_assertk hroom
    split at h
    · cases h
    · obtain ⟨⟨info, size, nodes⟩, hadd, h⟩ := bind_eq_ok h
      dsimp only at h
      obtain ⟨_, hend, h⟩ := bind_eq_ok h
      have hend := of_assertk hend
      generalize sizeofBlockInfo * s.cnt % 2 ^ 32 = alloc at hadd hend hroom
      obtain ⟨hinfo, hsize, hmap, hpair⟩ := addInfos_eq_ok hadd (by decide) nofun .nil
      rw [available_modify hlow, husable] at hinfo hsize hmap
      rw [length_cutLowest] at hinfo
      have halloc : alloc = sizeofBlockInfo * (usable kEnd mmap).length := by omega
      subst halloc
      rw [sortBlockInfo_of_pairwise hpair] at h
      obtain ⟨hav, before, after, hsplit, _, hbefore, hafter⟩ := hlow
      rw [hsplit, available_append, available_cons_of_pos hav] at husable
      split at h
      · cases h
      · cases h
        exact ⟨hmap, by rw [hsize, Nat.zero_add]; rfl, _, first, _, husable.symm, hbefore, hafter, rfl, hroom⟩

/-- What the list of free regions should be: in ascending order, without overlap, made of available
memory that neither the kernel nor the nodes of the list are in, and with its total size. -/
structure EarlyList (kEnd : Nat) (mmap : List MmapEntry) (array : Nat) (b : BlockAllocator) : Prop where
  sorted : b.infos.Pairwise fun i j => i.addr ≤ j.addr
  apart : b.infos.Pairwise fun i j => Disjoint i.range j.range
  available : ∀ i ∈ b.infos, ∃ e ∈ mmap, e.Available ∧ i.range ⊆ e.range
  kernel : ∀ i ∈ b.infos, kEnd ≤ i.addr
  nodes : ∀ i ∈ b.infos, array + sizeofBlockInfo * b.infos.length ≤ i.addr + kernelStart
  size : b.size = (b.infos.map BlockInfo.size).sum

/-- The map for which it is so: its parts, as they are with 32 bits, come in ascending order without
overlap, are inside of available entries above the kernel and the room for the nodes, and have less than
4 GiB together. -/
structure MapFits (kEnd : Nat) (mmap : List MmapEntry) : Prop where
  order : (parts kEnd mmap).Pairwise fun i j => i.addr ≤ j.addr ∧ Disjoint i.range j.range
  available : ∀ i ∈ parts kEnd mmap, ∃ e ∈ mmap, e.Available ∧ i.range ⊆ e.range
  kernel : ∀ i ∈ parts kEnd mmap, kEnd ≤ i.addr
  nodes : ∀ i ∈ parts kEnd mmap, ∃ e ∈ usable kEnd mmap,
    e.addr + sizeofBlockInfo * (usable kEnd mmap).length ≤ i.addr
  total : ((parts kEnd mmap).map BlockInfo.size).sum < 2 ^ 32

theorem earlyList_iff_mapFits {kEnd array : Nat} {mmap : List MmapEntry} {b : BlockAllocator}
    (hok : memBlockInit kEnd mmap = .ok (array, b)) :
    EarlyList kEnd mmap array b ↔ MapFits kEnd mmap := by
  obtain ⟨hinfos, hsize, before, first, after, hsplit, hbefore, hafter, rfl, _⟩ :=
    memBlockInit_eq_ok hok
  have hfirst : first ∈ usable kEnd mmap := hsplit ▸ by simp
  have hlen : b.infos.length = (usable kEnd mmap).length := by
    rw [hinfos, parts, List.length_map, length_cutLowest]
  constructor
  · rintro ⟨hsorted, hapart, havail, hkernel, hnodes, htotal⟩
    rw [hlen] at hnodes
    rw [hinfos] at hsorted hapart havail hkernel hnodes htotal
    refine ⟨hsorted.and hapart, havail, hkernel, fun i hi => ⟨first, hfirst, ?_⟩, ?_⟩
    · have hi := hnodes i hi
      omega
    · rw [← htotal, hsize]
      exact Nat.mod_lt _ (by decide)
  · rintro ⟨horder, havail, hkernel, hnodes, htotal⟩
    rw [Nat.mod_eq_of_lt htotal] at hsize
    rw [← hinfos] at horder havail hkernel hnodes hsize
    refine ⟨horder.imp And.left, horder.imp And.right, havail, hkernel, fun i hi => ?_, hsize⟩
    obtain ⟨e, he, hle⟩ := hnodes i hi
    have hlow : first.addr ≤ e.addr := by
      rw [hsplit, List.mem_append, List.mem_cons] at he
      obtain he | rfl | he := he
      · exact (hbefore e he).le
      · exact le_rfl
      · exact hafter e he
    rw [hlen]
    omega

/-- The available entries are below 4 GiB and do not overlap, and none of those above the kernel is
empty. -/
structure SaneMap (kEnd : Nat) (mmap : List MmapEntry) : Prop where
  below : ∀ e ∈ available mmap, e.addr + e.len ≤ 2 ^ 32
  apart : (available mmap).Pairwise fun e e' => Disjoint e.range e'.range
  nonempty : ∀ e ∈ usable kEnd mmap, 0 < e.len

theorem aboveKernel_of_not (h : ¬ e.Available) : e.aboveKernel kEnd = e := if_neg fun h' => h h'.1

theorem range_aboveKernel (hbelow : e.addr + e.len ≤ 2 ^ 32) : (e.aboveKernel kEnd).range ⊆ e.range := by
  rw [MmapEntry.aboveKernel]
  split
  · rename_i h
    dsimp only
    rw [Nat.mod_eq_of_lt (by omega)]
    split
    · exact subset_rfl
    · rename_i hend
      refine Set.Ico_subset_Ico h.2.le ?_
      dsimp only
      omega
  · exact subset_rfl

theorem le_addr_aboveKernel (h : (e.aboveKernel kEnd).Available) : kEnd ≤ (e.aboveKernel kEnd).addr := by
  rw [MmapEntry.aboveKernel] at h ⊢
  split
  · rename_i hcond
    rw [if_pos hcond] at h
    dsimp only at h ⊢
    split
    · rename_i hend
      rw [if_pos hend] at h
      cases h
    · exact le_rfl
  · rename_i hcond
    rw [if_neg hcond] at h
    by_contra hlt
    exact hcond ⟨h, by omega⟩

theorem usable_eq (kEnd : Nat) (mmap : List MmapEntry) :
    usable kEnd mmap = available ((available mmap).map fun e => e.aboveKernel kEnd) := by
  induction mmap with
  | nil => rfl
  | cons e mmap ih =>
    by_cases hav : e.Available
    · rw [available_cons_of_pos hav, usable, List.map_cons, List.map_cons]
      by_cases hav' : (e.aboveKernel kEnd).Available
      · rw [available_cons_of_pos hav', available_cons_of_pos hav', ← ih, usable]
      · rw [available_cons_of_neg hav', available_cons_of_neg hav', ← ih, usable]
    · rw [available_cons_of_neg hav, ← ih, usable, List.map_cons, aboveKernel_of_not hav,
        available_cons_of_neg hav, usable]

theorem mem_usable (h : e ∈ usable kEnd mmap) :
    ∃ e0 ∈ available mmap, e = e0.aboveKernel kEnd ∧ e.Available := by
  rw [usable_eq] at h
  obtain ⟨hmem, hav⟩ := mem_available.1 h
  obtain ⟨e0, he0, rfl⟩ := List.mem_map.1 hmem
  exact ⟨e0, he0, rfl, hav⟩

namespace SaneMap

variable {kEnd : Nat} {mmap : List MmapEntry}

variable {e : MmapEntry}

section

variable (h : SaneMap kEnd mmap)
include h

theorem part (he : e ∈ usable kEnd mmap) :
    kEnd ≤ e.addr ∧ e.addr + e.len ≤ 2 ^ 32 ∧ ∃ e0 ∈ mmap, e0.Available ∧ e.range ⊆ e0.range := by
  obtain ⟨e0, he0, rfl, hav⟩ := mem_usable he
  have hrange : (e0.aboveKernel kEnd).range ⊆ e0.range := range_aboveKernel (h.below e0 he0)
  have hlen := h.nonempty _ he
  refine ⟨le_addr_aboveKernel hav, ?_, e0, (mem_available.1 he0).1, (mem_available.1 he0).2, hrange⟩
  have hlast := (hrange (Set.mem_Ico.2 ⟨Nat.le_add_right _ _, Nat.add_lt_add_left
    (Nat.sub_one_lt_of_lt hlen) _⟩)).2
  have hbelow := h.below e0 he0
  omega

theorem apart_usable : (usable kEnd mmap).Pairwise fun e e' => Disjoint e.range e'.range := by
  rw [usable_eq]
  refine List.Pairwise.filter _ (List.pairwise_map.2 (h.apart.imp_of_mem ?_))
  intro e e' he he' hdisj
  exact hdisj.mono (range_aboveKernel (h.below e he)) (range_aboveKernel (h.below e' he'))

theorem end_le {e' : MmapEntry} (he' : e' ∈ usable kEnd mmap)
    (hle : e.addr ≤ e'.addr) (hdisj : Disjoint e.range e'.range) :
    e.addr + e.len ≤ e'.addr := by
  by_contra hlt
  have hlen := h.nonempty _ he'
  exact Set.disjoint_left.1 hdisj (Set.mem_Ico.2 ⟨hle, by omega⟩)
    (Set.mem_Ico.2 ⟨le_rfl, by omega⟩)

theorem info_eq (hkEnd : 0 < kEnd)
    (he : e ∈ usable kEnd mmap) : e.info = ⟨e.addr, e.len⟩ := by
  obtain ⟨hkernel, hbelow, _⟩ := h.part he
  have hlen := h.nonempty e he
  rw [MmapEntry.info, Nat.mod_eq_of_lt (by omega), Nat.mod_eq_of_lt (by omega)]

theorem info_cutFront (hkEnd : 0 < kEnd) {alloc : Nat}
    (he : e ∈ usable kEnd mmap) (halloc : alloc < e.len) :
    (e.cutFront alloc).info = ⟨e.addr + alloc, e.len - alloc⟩ := by
  obtain ⟨hkernel, hbelow, _⟩ := h.part he
  rw [MmapEntry.info, MmapEntry.cutFront, BlockInfo.mk.injEq]
  dsimp only
  omega

end

theorem sum_len_le : ∀ {entries : List MmapEntry} {addr : Nat}, (∀ e ∈ entries, addr ≤ e.addr) →
    (entries.Pairwise fun e e' => e.addr + e.len ≤ e'.addr) →
    (∀ e ∈ entries, e.addr + e.len ≤ 2 ^ 32) → addr ≤ 2 ^ 32 →
    addr + (entries.map MmapEntry.len).sum ≤ 2 ^ 32
  | [], _, _, _, _, haddr => haddr
  | e :: entries, addr, hge, hpair, hbelow, _ => by
    rw [List.pairwise_cons] at hpair
    have hrest := sum_len_le hpair.1 hpair.2 (fun x hx => hbelow x (List.mem_cons_of_mem _ hx))
      (hbelow e List.mem_cons_self)
    have haddr := hge e List.mem_cons_self
    rw [List.map_cons, List.sum_cons]
    omega

/-- The entry with the array is the first one in the map if the regions are in ascending order. -/
theorem before_nil (h : SaneMap kEnd mmap) (hkEnd : 0 < kEnd) {before after : List MmapEntry}
    {first : MmapEntry} {alloc : Nat} (hsplit : usable kEnd mmap = before ++ first :: after)
    (hbefore : ∀ e ∈ before, first.addr < e.addr) (hroom : alloc < first.len)
    (hsorted : ∀ e ∈ before, e.info.addr ≤ first.addr + alloc) : before = [] := by
  cases before with
  | nil => rfl
  | cons e before =>
    have he : e ∈ usable kEnd mmap := by simp [hsplit]
    have hfirst : first ∈ usable kEnd mmap := by simp [hsplit]
    have hdisj := h.apart_usable
    rw [hsplit, List.cons_append, List.pairwise_cons] at hdisj
    have hlt := hbefore e List.mem_cons_self
    have hend := h.end_le he hlt.le (hdisj.1 first (by simp)).symm
    have hle := hsorted e List.mem_cons_self
    rw [h.info_eq hkEnd he] at hle
    dsimp only at hle
    omega

/-- For a map as it should be, the list is in order exactly if the entries of the map are. -/
theorem mapFits_iff (h : SaneMap kEnd mmap) (hkEnd : 0 < kEnd) {array : Nat} {b : BlockAllocator}
    (hok : memBlockInit kEnd mmap = .ok (array, b)) :
    MapFits kEnd mmap ↔ (usable kEnd mmap).Pairwise fun e e' => e.addr ≤ e'.addr := by
  obtain ⟨_, _, before, first, after, hsplit, hbefore, hafter, _, hroom⟩ := memBlockInit_eq_ok hok
  have hfirst : first ∈ usable kEnd mmap := by simp [hsplit]
  have hmem : ∀ e ∈ after, e ∈ usable kEnd mmap := fun e he => by simp [hsplit, he]
  have hinfo : ∀ e ∈ after, e.info = ⟨e.addr, e.len⟩ := fun e he => h.info_eq hkEnd (hmem e he)
  have hparts : parts kEnd mmap = before.map MmapEntry.info ++
      ⟨first.addr + sizeofBlockInfo * (usable kEnd mmap).length,
        first.len - sizeofBlockInfo * (usable kEnd mmap).length⟩ :: after.map MmapEntry.info := by
    rw [parts, ← info_cutFront h hkEnd hfirst hroom]
    generalize sizeofBlockInfo * (usable kEnd mmap).length = alloc
    rw [hsplit, cutLowest_append hbefore hafter, List.map_append, List.map_cons]
  constructor
  · rintro ⟨horder, _, _, _, _⟩
    rw [hparts, List.pairwise_append, List.pairwise_cons] at horder
    obtain rfl := h.before_nil hkEnd hsplit hbefore hroom fun e he =>
      (horder.2.2 _ (List.mem_map_of_mem he) _ List.mem_cons_self).1
    rw [hsplit, List.nil_append, List.pairwise_cons]
    refine ⟨hafter, (List.pairwise_map.1 horder.2.1.2).imp_of_mem fun {e e'} he he' hle => ?_⟩
    rw [hinfo e he, hinfo e' he'] at hle
    exact hle.1
  · intro hsorted
    have hsorted' := hsorted
    rw [hsplit, List.pairwise_append, List.pairwise_cons] at hsorted'
    obtain rfl : before = [] := by
      refine List.eq_nil_iff_forall_not_mem.2 fun e he => ?_
      exact absurd (hsorted'.2.2 e he first List.mem_cons_self) (Nat.not_le.2 (hbefore e he))
    have hdisj := h.apart_usable
    -- the entries follow one another
    have hfollow : (usable kEnd mmap).Pairwise fun e e' => e.addr + e.len ≤ e'.addr :=
      (hsorted.and hdisj).imp_of_mem fun _ he' hpair => h.end_le he' hpair.1 hpair.2
    have hge : ∀ e ∈ usable kEnd mmap, first.addr ≤ e.addr := by
      simpa [hsplit] using hafter
    have htotal := sum_len_le hge hfollow (fun e he => (h.part he).2.1)
      (by have := (h.part hfirst).2.1; omega)
    obtain ⟨hkernel, hbelow, _⟩ := h.part hfirst
    have hrest : ∀ e ∈ after, first.addr + first.len ≤ e.addr := by
      rw [hsplit] at hfollow
      exact (List.pairwise_cons.1 hfollow).1
    have hcut : (⟨first.addr + sizeofBlockInfo * (usable kEnd mmap).length,
        first.len - sizeofBlockInfo * (usable kEnd mmap).length⟩ : BlockInfo).range ⊆ first.range :=
      Set.Ico_subset_Ico (Nat.le_add_right _ _) (by dsimp only; omega)
    have hpart : ∀ i ∈ parts kEnd mmap, (∃ e ∈ usable kEnd mmap, i.range ⊆ e.range) ∧
        first.addr + sizeofBlockInfo * (usable kEnd mmap).length ≤ i.addr := by
      intro i hi
      rw [hparts, List.map_nil, List.nil_append, List.mem_cons] at hi
      obtain rfl | hi := hi
      · exact ⟨⟨first, hfirst, hcut⟩, le_rfl⟩
      · obtain ⟨e, he, rfl⟩ := List.mem_map.1 hi
        rw [hinfo e he]
        refine ⟨⟨e, hmem e he, subset_rfl⟩, ?_⟩
        have hle := hrest e he
        dsimp only
        omega
    refine ⟨?_, fun i hi => ?_, fun i hi => ?_, fun i hi => ⟨first, hfirst, (hpart i hi).2⟩, ?_⟩
    · rw [hsplit, List.nil_append, List.pairwise_cons] at hdisj hsorted
      rw [hparts, List.map_nil, List.nil_append, List.pairwise_cons]
      refine ⟨fun i hi => ?_, List.pairwise_map.2 ((hsorted.2.and hdisj.2).imp_of_mem ?_)⟩
      · obtain ⟨e, he, rfl⟩ := List.mem_map.1 hi
        rw [hinfo e he]
        refine ⟨?_, (hdisj.1 e he).mono_left hcut⟩
        have hle := hrest e he
        dsimp only
        omega
      · intro e e' he he' hpair
        rw [hinfo e he, hinfo e' he']
        exact hpair
    · obtain ⟨⟨e, he, hsub⟩, _⟩ := hpart i hi
      obtain ⟨_, _, e0, he0, hav, hsub'⟩ := h.part he
      exact ⟨e0, he0, hav, hsub.trans hsub'⟩
    · have hge := (hpart i hi).2
      omega
    · have hlens : after.map (BlockInfo.size ∘ MmapEntry.info) = after.map MmapEntry.len :=
        List.map_congr_left fun e he => congrArg BlockInfo.size (hinfo e he)
      rw [hparts, List.map_nil, List.nil_append, List.map_cons, List.map_map, hlens, List.sum_cons]
      rw [hsplit, List.nil_append, List.map_cons, List.sum_cons] at htotal
      dsimp only
      omega

end SaneMap

/-- The list is as it should be exactly for the maps that already are: for a sane map, when the entries above
the kernel are listed from the lowest on. -/
theorem earlyList_iff {array : Nat} {b : BlockAllocator} (hok : memBlockInit kEnd mmap = .ok (array, b)) :
    (EarlyList kEnd mmap array b ↔ MapFits kEnd mmap) ∧
      (SaneMap kEnd mmap → 0 < kEnd →
        (EarlyList kEnd mmap array b ↔ (usable kEnd mmap).Pairwise fun e e' => e.addr ≤ e'.addr)) :=
  ⟨earlyList_iff_mapFits hok, fun hsane hkEnd =>
    (earlyList_iff_mapFits hok).trans (hsane.mapFits_iff hkEnd hok)⟩

def smallMap : List MmapEntry :=
  [⟨0, 0x9fc00, 1, 0⟩, ⟨0xf0000, 0x10000, 2, 0⟩, ⟨0x100000, 0x700000, 1, 0⟩, ⟨0x1000000, 0x1000000, 1, 0⟩]

theorem smallMap_sane : SaneMap 0x200000 smallMap := by
  refine ⟨by decide, ?_, by decide⟩
  have hfollow : (available smallMap).Pairwise fun e e' => e.addr + e.len ≤ e'.addr := by decide
  refine hfollow.imp fun {e e'} hle => Set.disjoint_left.2 fun x hx hx' => ?_
  exact absurd (hx.2.trans_le hle) (Nat.not_lt.2 hx'.1)

/-- With the end of the kernel at 2 MiB, the first region starts behind the two nodes. -/
theorem earlyList_smallMap : ∃ b, memBlockInit 0x200000 smallMap = .ok (0x200000 + kernelStart, b) ∧
    b.infos = [⟨0x200020, 0x5fffe0⟩, ⟨0x1000000, 0x1000000⟩] ∧
    EarlyList 0x200000 smallMap (0x200000 + kernelStart) b := by
  have hok : memBlockInit 0x200000 smallMap = .ok (0x200000 + kernelStart,
      ⟨0x200020, 0x15fffe0, [⟨0x200020, 0x5fffe0⟩, ⟨0x1000000, 0x1000000⟩]⟩) := by
    decide +kernel
  exact ⟨_, hok, rfl, ((earlyList_iff hok).2 smallMap_sane (by decide)).2 (by decide)⟩

/-- From the same map the other way round, the region at 16 MiB stays before the one at 2 MiB. -/
theorem smallMap_reverse_not_earlyList : ∃ array b,
    memBlockInit 0x200000 smallMap.reverse = .ok (array, b) ∧
    b.infos = [⟨0x1000000, 0x1000000⟩, ⟨0x200020, 0x5fffe0⟩] ∧
    ¬ EarlyList 0x200000 smallMap.reverse array b := by
  have hok : memBlockInit 0x200000 smallMap.reverse = .ok (0x200000 + kernelStart,
      ⟨0x1000000, 0x15fffe0, [⟨0x1000000, 0x1000000⟩, ⟨0x200020, 0x5fffe0⟩]⟩) := by
    decide +kernel
  refine ⟨_, _, hok, rfl, fun h => ?_⟩
  exact absurd h.sorted (by decide)

namespace BlockAllocator

/-- Disjoint regions below 4 GiB, with their total size. -/
structure Regions (b : BlockAllocator) : Prop where
  apart : b.infos.Pairwise fun i j => Disjoint i.range j.range
  below : ∀ i ∈ b.infos, i.addr + i.size ≤ 2 ^ 32
  size : b.size = (b.infos.map BlockInfo.size).sum
  size_lt : b.size < 2 ^ 32

/-- A range that was handed out, with the alignment that was asked for. -/
structure Handed extends BlockInfo where
  align : Nat
deriving DecidableEq, Repr

/-- Calls that complete, with what they handed out, the last one first. No size overflows when it is
rounded up to a multiple of four. -/
inductive BlockRun (b0 : BlockAllocator) : BlockAllocator → List Handed → Prop
  | start : BlockRun b0 b0 []
  | blockAlloc {b b' : BlockAllocator} {L : List Handed} {addr n : Nat} (hrun : BlockRun b0 b L)
      (hn : n + 3 < 2 ^ 32) (hok : b.blockAlloc n = .ok (addr, b')) :
      BlockRun b0 b' (⟨⟨addr, n⟩, 1⟩ :: L)
  | blockAllocAlign {b b' : BlockAllocator} {L : List Handed} {addr n k : Nat}
      (hrun : BlockRun b0 b L) (hk : 4 < 2 ^ k) (hn : n + 2 ^ k - 1 + 3 < 2 ^ 32)
      (hok : b.blockAllocAlign n (2 ^ k) = .ok (addr, b')) :
      BlockRun b0 b' (⟨⟨addr, n⟩, 2 ^ k⟩ :: L)

theorem memAlign_spec {s a : Nat} (hpos : 0 < a) (hs : s + a - 1 < 2 ^ 32) :
    a ∣ memAlign s a ∧ s ≤ memAlign s a ∧ memAlign s a ≤ s + a - 1 := by
  have hdiv : (s + a - 1) / a * a + (s + a - 1) % a = s + a - 1 := Nat.div_add_mod' _ _
  have hmod := Nat.mod_lt (s + a - 1) hpos
  rw [memAlign, Nat.mod_eq_of_lt hs]
  exact ⟨Nat.dvd_mul_left _ _, by omega, by omega⟩

theorem takeFront_eq_some {size addr : Nat} {infos infos' : List BlockInfo}
    (h : takeFront size infos = some (addr, infos')) :
    ∃ l i r, infos = l ++ i :: r ∧ (∀ j ∈ l, j.size < size) ∧ size ≤ i.size ∧ addr = i.addr ∧
      infos' = l ++ ⟨(i.addr + size) % 2 ^ 32, i.size - size⟩ :: r := by
  induction infos generalizing infos' with
  | nil => cases h
  | cons info infos ih =>
    rw [takeFront] at h
    split at h
    · rename_i hfit
      cases h
      exact ⟨[], info, infos, rfl, nofun, hfit, rfl, rfl⟩
    · rename_i hsmall
      obtain ⟨⟨a, rest⟩, hrest, heq⟩ := Option.map_eq_some_iff.1 h
      cases heq
      obtain ⟨l, i, r, rfl, hl, hfit, haddr, rfl⟩ := ih hrest
      refine ⟨info :: l, i, r, rfl, ?_, hfit, haddr, rfl⟩
      intro j hj
      obtain rfl | hj := List.mem_cons.1 hj
      · exact Nat.lt_of_not_le hsmall
      · exact hl j hj

/-- What is left of a region. At the end of the address space the address wraps around, but then nothing
is left. -/
theorem range_cut {i : BlockInfo} {size : Nat} (hbelow : i.addr + i.size ≤ 2 ^ 32) (hfit : size ≤ i.size) :
    (⟨(i.addr + size) % 2 ^ 32, i.size - size⟩ : BlockInfo).range =
      Set.Ico (i.addr + size) (i.addr + i.size) := by
  rw [BlockInfo.range]
  by_cases hend : i.addr + size = 2 ^ 32
  · have hsize : i.size - size = 0 := by omega
    rw [hsize, Nat.add_zero, Set.Ico_self, Set.Ico_eq_empty (by omega)]
  · rw [Nat.mod_eq_of_lt (by omega)]
    have hend' : i.addr + size + (i.size - size) = i.addr + i.size := by omega
    rw [hend']

/-- A call moves the bytes from `addr` on out of one region. -/
structure Cut (b b' : BlockAllocator) (addr size : Nat) : Prop where
  region : ∃ i ∈ b.infos, Set.Ico addr (addr + size) ⊆ i.range
  below : addr + size ≤ 2 ^ 32
  outside : ∀ i ∈ b'.infos, Disjoint (Set.Ico addr (addr + size)) i.range
  left : ∀ i ∈ b'.infos, ∃ j ∈ b.infos, i.range ⊆ j.range
  regions : b'.Regions

variable {b b' b0 : BlockAllocator} {addr n size : Nat} {L : List Handed}

theorem blockAlloc_eq_ok (hok : b.blockAlloc n = .ok (addr, b')) :
    ∃ l i r, b.infos = l ++ i :: r ∧ memAlign n 4 ≤ i.size ∧ addr = i.addr ∧
      b'.infos = l ++ ⟨(i.addr + memAlign n 4) % 2 ^ 32, i.size - memAlign n 4⟩ :: r ∧
      b'.size = (b.size + 2 ^ 32 - memAlign n 4) % 2 ^ 32 := by
  obtain ⟨_, _, hok⟩ := bind_eq_ok hok
  dsimp only at hok
  split at hok
  · cases hok
  · rename_i htake
    obtain ⟨_, _, hok⟩ := bind_eq_ok hok
    cases hok
    obtain ⟨l, i, r, hinfos, _, hfit, haddr, hinfos'⟩ := takeFront_eq_some htake
    exact ⟨l, i, r, hinfos, hfit, haddr, hinfos', rfl⟩

theorem Regions.blockAlloc (h : b.Regions) (hok : b.blockAlloc n = .ok (addr, b')) :
    b.Cut b' addr (memAlign n 4) := by
  obtain ⟨l, i, r, hinfos, hfit, rfl, hinfos', hsize'⟩ := blockAlloc_eq_ok hok
  generalize memAlign n 4 = size at hfit hinfos' hsize'
  obtain ⟨hapart, hbelow, hsize, hlt⟩ := h
  rw [hinfos] at hapart hbelow hsize
  rw [List.pairwise_middle fun h => h.symm, List.pairwise_cons] at hapart
  have hi : i.addr + i.size ≤ 2 ^ 32 := hbelow i (by simp)
  have hcut := range_cut hi hfit
  have htaken : Set.Ico i.addr (i.addr + size) ⊆ i.range :=
    Set.Ico_subset_Ico_right (by omega)
  have hleft : Set.Ico (i.addr + size) (i.addr + i.size) ⊆ i.range :=
    Set.Ico_subset_Ico_left (by omega)
  have hmem : ∀ j, j ∈ b'.infos ↔ j = ⟨(i.addr + size) % 2 ^ 32, i.size - size⟩ ∨ j ∈ l ++ r := by
    intro j
    rw [hinfos', List.mem_append, List.mem_cons, List.mem_append]
    exact or_left_comm
  refine ⟨⟨i, by simp [hinfos], htaken⟩, by omega, ?_, ?_, ?_, ?_, ?_, ?_⟩
  · intro j hj
    obtain rfl | hj := (hmem j).1 hj
    · rw [hcut]
      exact Set.Ico_disjoint_Ico_same
    · exact (hapart.1 j hj).mono_left htaken
  · intro j hj
    obtain rfl | hj := (hmem j).1 hj
    · exact ⟨i, by simp [hinfos], hcut ▸ hleft⟩
    · refine ⟨j, ?_, subset_rfl⟩
      rw [hinfos]
      exact (List.perm_middle.mem_iff).2 (List.mem_cons_of_mem _ hj)
  · rw [hinfos', List.pairwise_middle fun h => h.symm, List.pairwise_cons]
    refine ⟨fun j hj => ?_, hapart.2⟩
    rw [hcut]
    exact (hapart.1 j hj).mono_left hleft
  · intro j hj
    obtain rfl | hj := (hmem j).1 hj
    · have hmod := Nat.mod_le (i.addr + size) (2 ^ 32)
      change (i.addr + size) % 2 ^ 32 + (i.size - size) ≤ 2 ^ 32
      omega
    · exact hbelow j ((List.perm_middle.mem_iff).2 (List.mem_cons_of_mem _ hj))
  · rw [hsize', hinfos']
    simp only [List.map_append, List.map_cons, List.sum_append, List.sum_cons] at hsize ⊢
    omega
  · rw [hsize']
    exact Nat.mod_lt _ (by decide)

theorem Regions.blockAllocAlign {k : Nat} (h : b.Regions) (hk : 4 < 2 ^ k)
    (hn : n + 2 ^ k - 1 + 3 < 2 ^ 32) (hok : b.blockAllocAlign n (2 ^ k) = .ok (addr, b')) :
    ∃ start size, b.Cut b' start size ∧ start ≤ addr ∧ addr + n ≤ start + size ∧ 2 ^ k ∣ addr := by
  obtain ⟨_, hassert, hok⟩ := bind_eq_ok hok
  obtain ⟨⟨start, b''⟩, halloc, hok⟩ := bind_eq_ok hok
  cases hok
  have hmul : 2 ^ k % 4 = 0 := (of_assertk hassert).2
  rw [Nat.mod_eq_of_lt (by omega)] at halloc
  have hcut := h.blockAlloc halloc
  obtain ⟨⟨m, hm⟩, hround, _⟩ := memAlign_spec (s := n + 2 ^ k - 1) (a := 4) (by decide) hn
  -- a multiple of four: even for `n = 0` the request is not smaller than the alignment
  have hroom : start + 2 ^ k - 1 < 2 ^ 32 := by
    have hbelow := hcut.below
    omega
  obtain ⟨hdvd, hge, hle⟩ := memAlign_spec (by omega) hroom
  exact ⟨start, _, hcut, hge, by omega, hdvd⟩

/-- What holds after any calls: each range that was handed out lies in one of the first regions at a
multiple of its alignment, and shares no byte with another one or with a region that is left; the total
size is that of the regions. -/
structure Handing (b0 b : BlockAllocator) (L : List Handed) : Prop where
  regions : b.Regions
  left : ∀ i ∈ b.infos, ∃ j ∈ b0.infos, i.range ⊆ j.range
  apart : L.Pairwise fun x y => Disjoint x.range y.range
  inside : ∀ x ∈ L, ∃ j ∈ b0.infos, x.range ⊆ j.range
  outside : ∀ x ∈ L, ∀ i ∈ b.infos, Disjoint x.range i.range
  aligned : ∀ x ∈ L, x.align ∣ x.addr

theorem Handing.cut (h : Handing b0 b L) (hcut : b.Cut b' addr size) {x : Handed}
    (hx : x.range ⊆ Set.Ico addr (addr + size)) (halign : x.align ∣ x.addr) :
    Handing b0 b' (x :: L) where
  regions := hcut.regions
  left := by
    intro i hi
    obtain ⟨j, hj, hij⟩ := hcut.left i hi
    obtain ⟨j0, hj0, hjj⟩ := h.left j hj
    exact ⟨j0, hj0, hij.trans hjj⟩
  apart := by
    obtain ⟨i, hi, hregion⟩ := hcut.region
    refine List.pairwise_cons.2 ⟨fun y hy => ?_, h.apart⟩
    exact ((h.outside y hy i hi).mono_right (hx.trans hregion)).symm
  inside := by
    rintro y (_ | ⟨_, hy⟩)
    · obtain ⟨i, hi, hregion⟩ := hcut.region
      obtain ⟨j, hj, hij⟩ := h.left i hi
      exact ⟨j, hj, (hx.trans hregion).trans hij⟩
    · exact h.inside y hy
  outside := by
    rintro y (_ | ⟨_, hy⟩) i hi
    · exact (hcut.outside i hi).mono_left hx
    · obtain ⟨j, hj, hij⟩ := hcut.left i hi
      exact (h.outside y hy j hj).mono_right hij
  aligned := by
    rintro y (_ | ⟨_, hy⟩)
    · exact halign
    · exact h.aligned y hy

theorem blockRun_handing (hb : b0.Regions) (hrun : BlockRun b0 b L) : Handing b0 b L := by
  induction hrun with
  | start => exact ⟨hb, fun i hi => ⟨i, hi, subset_rfl⟩, .nil, nofun, nofun, nofun⟩
  | blockAlloc _ hn hok ih =>
    have hround := (memAlign_spec (a := 4) (by decide) hn).2.1
    exact ih.cut (ih.regions.blockAlloc hok) (Set.Ico_subset_Ico_right (Nat.add_le_add_left hround _))
      (one_dvd _)
  | blockAllocAlign _ hk hn hok ih =>
    obtain ⟨start, size, hcut, hge, hle, hdvd⟩ := ih.regions.blockAllocAlign hk hn hok
    exact ih.cut hcut (Set.Ico_subset_Ico hge hle) hdvd

def twoRegions : BlockAllocator where
  addr := 0x800000
  size := 0x500
  infos := [⟨0x800000, 0x100⟩, ⟨0x400002, 0x400⟩]

/-- The first call finds room in the second region only, the second call in the first one. -/
theorem blockRun_handing_twoRegions : ∃ b, BlockRun twoRegions b
    [⟨⟨0x800000, 5⟩, 1⟩, ⟨⟨0x400200, 10⟩, 512⟩] ∧
    Handing twoRegions b [⟨⟨0x800000, 5⟩, 1⟩, ⟨⟨0x400200, 10⟩, 512⟩] := by
  have hregions : twoRegions.Regions := by
    refine ⟨?_, by decide, by decide, by decide⟩
    refine List.pairwise_pair.2 (Set.disjoint_left.2 fun x hx hy => ?_)
    have h1 := hx.1
    have h2 := hy.2
    change 0x800000 ≤ x at h1
    change x < 0x400002 + 0x400 at h2
    omega
  have halign : BlockRun twoRegions
      ⟨0x800000, 0x2f4, [⟨0x800000, 0x100⟩, ⟨0x40020e, 0x1f4⟩]⟩ [⟨⟨0x400200, 10⟩, 512⟩] :=
    .blockAllocAlign (n := 10) (k := 9) .start (by decide) (by decide) (by decide +kernel)
  have hrun : BlockRun twoRegions ⟨0x800008, 0x2ec, [⟨0x800008, 0xf8⟩, ⟨0x40020e, 0x1f4⟩]⟩
      [⟨⟨0x800000, 5⟩, 1⟩, ⟨⟨0x400200, 10⟩, 512⟩] :=
    .blockAlloc (n := 5) halign (by decide) (by decide +kernel)
  exact ⟨_, hrun, blockRun_handing hregions hrun⟩

end BlockAllocator

end QuarkOS
