import QuarkOS.Base.Prelude
import QuarkOS.Lib.Bytes
import QuarkOS.Lib.Tiling

/-!
# The user heap

`malloc.c` of the user library over the bytes of the process. The header of a chunk stands in front of
it: the pointer to the next chunk, the size with the header, and a word with the flag `used` and the
magic number. `malloc` looks for a chunk from `head` on and splits it; `free` joins a chunk with the
free ones behind it. A page that `sbrk` gives is a row of chunks of its own: nothing leads to it from the
pages before, so that only the chunks of the first page are used again.

`Row` says which chunks the bytes hold. The memory that `sbrk` gives holds any bytes, and the program may
write wherever it has been given memory.
-/

namespace QuarkOS

open Bytes Tiling Function

def heapMagic : Nat := 0x35e92b2e

def sizeofChunk : Nat := 12

/-- `ALIGN(s, 2)`, computed in 32 bits. -/
def align2 (s : Nat) : Nat := (s + 1) % 2 ^ 32 / 2 * 2

structure UserHeap where
  mem : Area
  head : Nat
  tail : Nat
  /-- Where the next page of `sbrk` starts. -/
  brk : Nat

namespace UserHeap

/-! ### The fields of a chunk -/

section

variable (m : Area) (chunk : Nat)

def next : Nat := load m chunk 4

def size : Nat := load m (chunk + 4) 4

def used : Bool := load m (chunk + 8) 4 % 2 = 1

def magic : Nat := load m (chunk + 8) 4 / 2

def setNext (next : Nat) : Area := store m chunk 4 next

def setSize (size : Nat) : Area := store m (chunk + 4) 4 size

/-- The other bits of the word are kept. -/
def setUsed (used : Bool) : Area := store m (chunk + 8) 4 (2 * magic m chunk + used.toNat)

def setMagic (magic : Nat) : Area := store m (chunk + 8) 4 (2 * magic + (used m chunk).toNat)

def chunkInit (next size : Nat) : Area :=
  let m := setNext m chunk next
  let m := setUsed m chunk false
  let m := setMagic m chunk heapMagic
  setSize m chunk size

end

/-! ### The calls -/

def allocAddr (chunk : Nat) : Nat := chunk + sizeofChunk

def chunkHeader (addr : Nat) : Nat := addr - sizeofChunk

def allocChunk (h : UserHeap) (chunk need : Nat) : Except Fault (Nat × UserHeap) := do
  assertk (used h.mem chunk = false ∧ magic h.mem chunk = heapMagic)
  let freeSize := (size h.mem chunk + 2 ^ 32 - need) % 2 ^ 32
  let (need, h) :=
    if freeSize < sizeofChunk + 2 then (size h.mem chunk, h)
    else
      let new := chunk + need
      let m := chunkInit h.mem new (next h.mem chunk) freeSize
      let m := setNext m chunk new
      (need, { h with mem := m, tail := if chunk = h.tail then new else h.tail })
  let m := setUsed h.mem chunk true
  let m := setSize m chunk need
  .ok (allocAddr chunk, { h with mem := m })

/-- The loop of `malloc`. -/
def findChunk (m : Area) (need : Nat) : Nat → Nat → Except Fault (Option Nat)
  | 0, _ => .error .spin
  | fuel + 1, hdr =>
    if hdr = 0 then .ok none
    else if used m hdr = false ∧ need ≤ size m hdr then .ok (some hdr)
    else findChunk m need fuel (next m hdr)

/-- `sbrk(4096)`: the page after the one it gave before, as long as the addresses last. -/
def sbrk (h : UserHeap) : Nat × UserHeap :=
  if h.brk + 4096 ≤ 2 ^ 32 then (h.brk, { h with brk := h.brk + 4096 }) else (0, h)

/-- A walk over more chunks than there are addresses does not end. -/
def malloc (h : UserHeap) (n : Nat) : Except Fault (Nat × UserHeap) := do
  let need := align2 ((n + sizeofChunk) % 2 ^ 32)
  match ← findChunk h.mem need (2 ^ 32) h.head with
  | some hdr => h.allocChunk hdr need
  | none => do
    let (b, h) := h.sbrk
    assertk (b ≠ 0)
    let head := if h.head = 0 then b else h.head
    let h := { h with head, mem := chunkInit h.mem b 0 4096, tail := b }
    h.allocChunk b need

/-- The loop of `free`: the chunk behind the free ones and the size with them. -/
def mergeLoop (m : Area) (chunk : Nat) : Nat → Nat → Nat → Except Fault (Nat × Nat)
  | 0, _, _ => .error .spin
  | fuel + 1, p, sum =>
    if p ≠ 0 ∧ used m p = false then do
      assertk (magic m chunk = heapMagic)
      mergeLoop m chunk fuel (next m p) ((sum + size m p) % 2 ^ 32)
    else .ok (p, sum)

def free (h : UserHeap) (addr : Nat) : Except Fault UserHeap := do
  let chunk := chunkHeader addr
  assertk (used h.mem chunk = true ∧ magic h.mem chunk = heapMagic)
  let m := setUsed h.mem chunk false
  let (p, sum) ← mergeLoop m chunk (2 ^ 32) (next m chunk) (size m chunk)
  if p ≠ next m chunk then
    let m := setSize (setNext m chunk p) chunk sum
    .ok { h with mem := m, tail := if p = 0 then chunk else h.tail }
  else .ok { h with mem := m }

/-- The loop of `free_space`. -/
def freeSpace (m : Area) : Nat → Nat → Nat → Except Fault Nat
  | 0, _, _ => .error .spin
  | fuel + 1, hdr, sum =>
    if hdr = 0 then .ok sum else freeSpace m fuel (next m hdr) ((sum + size m hdr) % 2 ^ 32)

end UserHeap

/-! ### The chunks in the bytes -/

structure Chunk where
  size : Nat
  used : Bool
deriving DecidableEq, Repr

namespace UserHeap

/-- The bytes at `off` are the header of `c`. -/
structure Header (m : Area) (off : Nat) (c : Chunk) (following : Nat) : Prop where
  next : load m off 4 = following
  size : load m (off + 4) 4 = c.size
  word : load m (off + 8) 4 = 2 * heapMagic + c.used.toNat

/-- The pointer to a row of chunks, `last` for the end. -/
def first (off : Nat) (l : List Chunk) (last : Nat) : Nat := if l = [] then last else off

/-- The chunks lie one after the other from `off` on, and each points to the next. -/
def Row (m : Area) : Nat → List Chunk → Nat → Prop
  | _, [], _ => True
  | off, c :: rest, last =>
    Header m off c (first (off + c.size) rest last) ∧ Row m (off + c.size) rest last

/-- The page at `off` is tiled by chunks. -/
structure Region (m : Area) (off : Nat) (l : List Chunk) : Prop where
  row : Row m off l 0
  whole : Tiling.span Chunk.size l = 4096
  fits : ∀ c ∈ l, sizeofChunk ≤ c.size ∧ c.size % 2 = 0

variable {m m' : Area} {h h' : UserHeap} {off following last need : Nat} {c : Chunk}
  {l l1 l2 : List Chunk}

theorem Header.used_eq (hc : Header m off c following) : used m off = c.used := by
  rw [used, hc.word]
  cases c.used <;> decide

theorem Header.magic_eq (hc : Header m off c following) : magic m off = heapMagic := by
  rw [magic, hc.word]
  cases c.used <;> decide

theorem Header.frame (hc : Header m off c following)
    (hframe : ∀ i, off ≤ i → i < off + sizeofChunk → m' i = m i) : Header m' off c following where
  next := (load_congr fun i _ _ => hframe i (by omega) (by rw [sizeofChunk]; omega)).trans hc.next
  size := (load_congr fun i _ _ => hframe i (by omega) (by rw [sizeofChunk]; omega)).trans hc.size
  word := (load_congr fun i _ _ => hframe i (by omega) (by rw [sizeofChunk]; omega)).trans hc.word

/-! ### Writing a field -/

theorem Header.setNext {p : Nat} (hc : Header m off c following) (hp : p < 2 ^ 32) :
    Header (setNext m off p) off c p where
  next := load_store.trans (Nat.mod_eq_of_lt hp)
  size := (load_store_of_disjoint (by omega)).trans hc.size
  word := (load_store_of_disjoint (by omega)).trans hc.word

theorem Header.setSize {n : Nat} (hc : Header m off c following) (hn : n < 2 ^ 32) :
    Header (setSize m off n) off { c with size := n } following where
  next := (load_store_of_disjoint (by omega)).trans hc.next
  size := load_store.trans (Nat.mod_eq_of_lt hn)
  word := (load_store_of_disjoint (by omega)).trans hc.word

theorem Header.setUsed {b : Bool} (hc : Header m off c following) :
    Header (setUsed m off b) off { c with used := b } following where
  next := (load_store_of_disjoint (by omega)).trans hc.next
  size := (load_store_of_disjoint (by omega)).trans hc.size
  word := by
    rw [UserHeap.setUsed, hc.magic_eq, load_store]
    cases b <;> rfl

theorem header_chunkInit {p n : Nat} (hp : p < 2 ^ 32) (hn : n < 2 ^ 32) :
    Header (chunkInit m off p n) off { size := n, used := false } p where
  next := by
    rw [chunkInit, UserHeap.setSize, load_store_of_disjoint (by omega), setMagic,
      load_store_of_disjoint (by omega), UserHeap.setUsed, load_store_of_disjoint (by omega),
      UserHeap.setNext, load_store]
    exact Nat.mod_eq_of_lt hp
  size := load_store.trans (Nat.mod_eq_of_lt hn)
  word := by
    have hunused : used (UserHeap.setUsed (UserHeap.setNext m off p) off false) off = false := by
      rw [used, UserHeap.setUsed, load_store, Bool.toNat_false]
      exact decide_eq_false (by omega)
    rw [chunkInit, UserHeap.setSize, load_store_of_disjoint (by omega), setMagic, hunused, load_store]
    rfl

theorem chunkInit_frame {p n i : Nat} (hi : i < off ∨ off + sizeofChunk ≤ i) :
    chunkInit m off p n i = m i := by
  rw [sizeofChunk] at hi
  rw [chunkInit, UserHeap.setSize, store_of_not_mem (by omega), setMagic, store_of_not_mem (by omega),
    UserHeap.setUsed, store_of_not_mem (by omega), UserHeap.setNext, store_of_not_mem (by omega)]

/-! ### Rows -/

theorem row_append : Row m off (l1 ++ l2) last ↔
    Row m off l1 (first (off + Tiling.span Chunk.size l1) l2 last) ∧
      Row m (off + Tiling.span Chunk.size l1) l2 last := by
  induction l1 generalizing off with
  | nil => exact (true_and _).symm.to_iff
  | cons c l1 ih =>
    have hfirst : first (off + c.size) (l1 ++ l2) last =
        first (off + c.size) l1 (first (off + (c.size + Tiling.span Chunk.size l1)) l2 last) := by
      cases l1 with
      | nil => rfl
      | cons => rfl
    rw [List.cons_append, Row, Row, ih, Tiling.span_cons, hfirst, and_assoc, Nat.add_assoc]

theorem Row.frame (hrow : Row m off l last)
    (hframe : ∀ a c, Placed Chunk.size off l a c → ∀ i, a ≤ i → i < a + sizeofChunk → m' i = m i) :
    Row m' off l last := by
  induction l generalizing off with
  | nil => trivial
  | cons b l ih =>
    exact ⟨hrow.1.frame (hframe off b (Or.inl ⟨rfl, rfl⟩)),
      ih hrow.2 fun a c hplaced => hframe a c (Or.inr hplaced)⟩

theorem Row.frame_outside (hrow : Row m off l last) (hfits : ∀ c ∈ l, sizeofChunk ≤ c.size)
    (hframe : ∀ i, off ≤ i → i < off + Tiling.span Chunk.size l → m' i = m i) : Row m' off l last := by
  refine hrow.frame fun a c hplaced i hle hlt => ?_
  have hbounds := hplaced.le
  have hsize := hfits c hplaced.mem
  exact hframe i (by omega) (by omega)

theorem Region.replace {old new : List Chunk} (hr : Region m off (l1 ++ (old ++ l2)))
    (hold : old ≠ []) (hnew : new ≠ [])
    (hrow : Row m' (off + Tiling.span Chunk.size l1) new
      (first (off + Tiling.span Chunk.size l1 + Tiling.span Chunk.size old) l2 0))
    (hspan : Tiling.span Chunk.size new = Tiling.span Chunk.size old)
    (hfits : ∀ c ∈ new, sizeofChunk ≤ c.size ∧ c.size % 2 = 0)
    (hframe : ∀ i, i < off + Tiling.span Chunk.size l1 ∨
      off + Tiling.span Chunk.size l1 + Tiling.span Chunk.size old ≤ i → m' i = m i) :
    Region m' off (l1 ++ (new ++ l2)) := by
  have hsize : ∀ c ∈ l1 ++ (new ++ l2), sizeofChunk ≤ c.size ∧ c.size % 2 = 0 := by
    intro c hc
    rw [List.mem_append, List.mem_append] at hc
    rcases hc with hc | hc | hc
    · exact hr.fits c (List.mem_append_left _ hc)
    · exact hfits c hc
    · exact hr.fits c (List.mem_append_right _ (List.mem_append_right _ hc))
  have hfirst : first (off + Tiling.span Chunk.size l1) (new ++ l2) 0 =
      first (off + Tiling.span Chunk.size l1) (old ++ l2) 0 := by
    rw [first, first, if_neg (by simp [hnew]), if_neg (by simp [hold])]
  have hrows := hr.row
  rw [row_append, row_append] at hrows
  refine ⟨?_, ?_, hsize⟩
  · rw [row_append, row_append, hfirst, hspan]
    refine ⟨hrows.1.frame_outside ?_ ?_, hrow, hrows.2.2.frame_outside ?_ ?_⟩
    · exact fun c hc => (hsize c (List.mem_append_left _ hc)).1
    · exact fun i _ hlt => hframe i (Or.inl hlt)
    · exact fun c hc => (hsize c (List.mem_append_right _ (List.mem_append_right _ hc))).1
    · exact fun i hle _ => hframe i (Or.inr hle)
  · have hold := hr.whole
    rw [Tiling.span_append, Tiling.span_append] at hold ⊢
    rw [hspan]
    exact hold

/-! ### The loops -/

theorem findChunk_row (hrow : Row m off l 0) (hoff : 0 < off) {fuel : Nat} (hfuel : l.length < fuel) :
    ∃ found, findChunk m need fuel (first off l 0) = .ok found ∧
      ∀ a, found = some a → ∃ c, Placed Chunk.size off l a c ∧ c.used = false ∧ need ≤ c.size := by
  induction fuel generalizing off l with
  | zero => exact absurd hfuel (Nat.not_lt_zero _)
  | succ fuel ih =>
    cases l with
    | nil => exact ⟨none, rfl, nofun⟩
    | cons c l =>
      have hne : ¬first off (c :: l) 0 = 0 := by
        rw [first, if_neg (List.cons_ne_nil c l)]
        omega
      have hat : first off (c :: l) 0 = off := if_neg (List.cons_ne_nil c l)
      rw [findChunk, if_neg hne, hat, hrow.1.used_eq, size, hrow.1.size]
      split
      · rename_i hfit
        refine ⟨some off, rfl, fun a ha => ⟨c, Or.inl ⟨(Option.some.inj ha).symm, rfl⟩, hfit⟩⟩
      · rw [next, hrow.1.next]
        obtain ⟨found, hfind, hfound⟩ := ih hrow.2 (by omega) (Nat.lt_of_succ_lt_succ hfuel)
        refine ⟨found, hfind, fun a ha => ?_⟩
        obtain ⟨d, hplaced, hd⟩ := hfound a ha
        exact ⟨d, Or.inr hplaced, hd⟩

theorem mergeLoop_row {chunk sum fuel : Nat} (hrow : Row m off l 0) (hoff : 0 < off)
    (hmagic : magic m chunk = heapMagic) (hsum : sum + Tiling.span Chunk.size l < 2 ^ 32)
    (hfuel : l.length < fuel) :
    ∃ passed rest, l = passed ++ rest ∧ (∀ c ∈ passed, c.used = false) ∧
      mergeLoop m chunk fuel (first off l 0) sum =
        .ok (first (off + Tiling.span Chunk.size passed) rest 0, sum + Tiling.span Chunk.size passed) := by
  induction fuel generalizing off l sum with
  | zero => exact absurd hfuel (Nat.not_lt_zero _)
  | succ fuel ih =>
    cases l with
    | nil =>
      refine ⟨[], [], rfl, nofun, ?_⟩
      rw [mergeLoop, if_neg (fun h => h.1 rfl)]
      rfl
    | cons c l =>
      have hat : first off (c :: l) 0 = off := if_neg (List.cons_ne_nil c l)
      rw [mergeLoop, hat, hrow.1.used_eq]
      split
      · rename_i hfree
        rw [Tiling.span_cons] at hsum
        have hrest : sum + c.size + Tiling.span Chunk.size l < 2 ^ 32 := by omega
        obtain ⟨passed, rest, rfl, hpassed, hloop⟩ :=
          ih hrow.2 (by omega) hrest (Nat.lt_of_succ_lt_succ hfuel)
        refine ⟨c :: passed, rest, rfl, ?_, ?_⟩
        · intro d hd
          rcases List.mem_cons.1 hd with rfl | hd
          · exact hfree.2
          · exact hpassed d hd
        · have hmod : (sum + c.size) % 2 ^ 32 = sum + c.size := Nat.mod_eq_of_lt (by omega)
          rw [hmagic, assertk_pos rfl, next, hrow.1.next, size,
            hrow.1.size, hmod, hloop, Tiling.span_cons, Nat.add_assoc, Nat.add_assoc]
      · exact ⟨[], c :: l, rfl, nofun, rfl⟩

/-! ### Taking a chunk -/

theorem allocChunk_header {a : Nat} (hc : Header h.mem a c following) (hfree : c.used = false)
    (hneed : sizeofChunk ≤ need ∧ need ≤ c.size ∧ need % 2 = 0)
    (hfits : c.size % 2 = 0) (hin : a + c.size ≤ 2 ^ 32) :
    ∃ d rest h', h.allocChunk a need = .ok (allocAddr a, h') ∧
      Row h'.mem a (d :: rest) following ∧ Tiling.span Chunk.size (d :: rest) = c.size ∧
      d.used = true ∧ need ≤ d.size ∧
      (∀ e ∈ d :: rest, sizeofChunk ≤ e.size ∧ e.size % 2 = 0) ∧
      (∀ i, i < a ∨ a + c.size ≤ i → h'.mem i = h.mem i) ∧
      h'.head = h.head ∧ h'.brk = h.brk := by
  have hlast : following < 2 ^ 32 := by
    rw [← hc.next]
    exact load_lt h.mem a 4
  have hsize : size h.mem a = c.size := hc.size
  have hlt : c.size < 2 ^ 32 := by
    rw [← hc.size]
    exact load_lt h.mem (a + 4) 4
  have hcond : used h.mem a = false ∧ magic h.mem a = heapMagic :=
    ⟨hc.used_eq.trans hfree, hc.magic_eq⟩
  have hheader : sizeofChunk = 12 := rfl
  have hmod : (c.size + 2 ^ 32 - need) % 2 ^ 32 = c.size - need := by omega
  rw [allocChunk, assertk_pos hcond, hsize, hmod]
  dsimp only
  by_cases hsplit : c.size - need < sizeofChunk + 2
  · rw [if_pos hsplit]
    refine ⟨{ c with used := true }, [], _, rfl, ⟨?_, trivial⟩, rfl, rfl, hneed.2.1, ?_, ?_, rfl, rfl⟩
    · exact hc.setUsed.setSize hlt
    · intro e he
      rw [List.mem_singleton.1 he]
      exact ⟨hneed.1.trans hneed.2.1, hfits⟩
    · intro i hi
      exact (store_of_not_mem (by omega)).trans (store_of_not_mem (by omega))
  · rw [if_neg hsplit]
    have hnext : next h.mem a < 2 ^ 32 := load_lt h.mem a 4
    -- The header of the chunk and that of the new one do not overlap.
    have hnew : Header (chunkInit h.mem (a + need) (next h.mem a) (c.size - need)) (a + need)
        { size := c.size - need, used := false } following := by
      rw [next, hc.next]
      exact header_chunkInit hlast (by omega)
    have hold : Header (chunkInit h.mem (a + need) (next h.mem a) (c.size - need)) a c following :=
      hc.frame fun i _ hlt => chunkInit_frame (Or.inl (by omega))
    refine ⟨{ size := need, used := true }, [{ size := c.size - need, used := false }], _, rfl,
      ⟨?_, ?_, trivial⟩, ?_, rfl, le_rfl, ?_, ?_, rfl, rfl⟩
    · have hto : Header (setNext (chunkInit h.mem (a + need) (next h.mem a) (c.size - need)) a (a + need))
          a c (a + need) := hold.setNext (by omega)
      have hneed' : need < 2 ^ 32 := by omega
      exact hto.setUsed.setSize hneed'
    · refine hnew.frame fun i hle _ => ?_
      exact (store_of_not_mem (by omega)).trans
        ((store_of_not_mem (by omega)).trans (store_of_not_mem (by omega)))
    · rw [Tiling.span_cons, Tiling.span_cons, Tiling.span_nil]
      dsimp only
      omega
    · intro e he
      rcases List.mem_cons.1 he with rfl | he
      · exact ⟨hneed.1, hneed.2.2⟩
      · rw [List.mem_singleton.1 he]
        dsimp only
        omega
    · intro i hi
      refine (store_of_not_mem (by omega)).trans ((store_of_not_mem (by omega)).trans
        ((store_of_not_mem (by omega)).trans (chunkInit_frame ?_)))
      omega

/-! ### Giving a chunk back -/

theorem free_row {a : Nat} (hc : Header h.mem a c (first (a + c.size) l 0))
    (hrow : Row h.mem (a + c.size) l 0) (hused : c.used = true)
    (hfits : ∀ d ∈ c :: l, sizeofChunk ≤ d.size) (hin : a + (c.size + Tiling.span Chunk.size l) ≤ 2 ^ 32)
    (ha : 0 < a) :
    ∃ passed rest h', l = passed ++ rest ∧ (∀ d ∈ passed, d.used = false) ∧
      h.free (allocAddr a) = .ok h' ∧
      Header h'.mem a { size := c.size + Tiling.span Chunk.size passed, used := false }
        (first (a + c.size + Tiling.span Chunk.size passed) rest 0) ∧
      (∀ i, i < a ∨ a + sizeofChunk ≤ i → h'.mem i = h.mem i) ∧
      h'.head = h.head ∧ h'.brk = h.brk := by
  have hheader : sizeofChunk = 12 := rfl
  have hsize := hfits c List.mem_cons_self
  have hcond : used h.mem a = true ∧ magic h.mem a = heapMagic :=
    ⟨hc.used_eq.trans hused, hc.magic_eq⟩
  have hclear : Header (setUsed h.mem a false) a { c with used := false }
      (first (a + c.size) l 0) := hc.setUsed
  have hkept : Row (setUsed h.mem a false) (a + c.size) l 0 := by
    refine hrow.frame_outside (fun d hd => hfits d (List.mem_cons_of_mem c hd)) fun i hle _ => ?_
    exact store_of_not_mem (by omega)
  have hlength : l.length < 2 ^ 32 := by
    have hmul := mul_length_le_span fun d hd => hfits d (List.mem_cons_of_mem c hd)
    rw [hheader] at hmul
    omega
  have hsum : c.size + Tiling.span Chunk.size l < 2 ^ 32 := by omega
  obtain ⟨passed, rest, hl, hpassed, hloop⟩ :=
    mergeLoop_row hkept (by omega) hclear.magic_eq hsum hlength
  have hpointer : next (setUsed h.mem a false) a = first (a + c.size) l 0 := hclear.next
  have hlen : size (setUsed h.mem a false) a = c.size := hclear.size
  have hframe : ∀ i, i < a ∨ a + sizeofChunk ≤ i → setUsed h.mem a false i = h.mem i :=
    fun i hi => store_of_not_mem (by omega)
  have haddr : chunkHeader (allocAddr a) = a := Nat.add_sub_cancel a sizeofChunk
  have htotal : c.size + Tiling.span Chunk.size passed < 2 ^ 32 := by
    rw [hl, Tiling.span_append] at hsum
    omega
  have hafter : first (a + c.size + Tiling.span Chunk.size passed) rest 0 < 2 ^ 32 := by
    rw [first]
    split
    · decide
    · rename_i hrest
      obtain ⟨d, hd⟩ := List.exists_mem_of_ne_nil rest hrest
      have hd12 := hfits d (List.mem_cons_of_mem c (hl ▸ List.mem_append_right passed hd))
      have hle := le_span_of_mem Chunk.size hd
      rw [hl, Tiling.span_append] at hin
      omega
  rw [free, haddr, assertk_pos hcond]
  dsimp only
  rw [hpointer, hlen, hloop, ok_bind]
  dsimp only
  by_cases hsame : first (a + c.size + Tiling.span Chunk.size passed) rest 0 = first (a + c.size) l 0
  · -- The pointer is the same only when there was nothing to join.
    have hpassed_nil : passed = [] := by
      by_contra hne
      obtain ⟨d, hd⟩ := List.exists_mem_of_ne_nil passed hne
      have hd12 := hfits d (List.mem_cons_of_mem c (hl ▸ List.mem_append_left rest hd))
      have hle := le_span_of_mem Chunk.size hd
      have hl_ne : l ≠ [] := by
        rw [hl]
        exact List.append_ne_nil_of_left_ne_nil hne rest
      rw [first, first, if_neg hl_ne] at hsame
      split at hsame <;> omega
    subst hpassed_nil
    rw [List.nil_append] at hl
    subst hl
    rw [if_neg (not_not_intro hsame)]
    exact ⟨[], l, _, rfl, nofun, rfl, hclear, hframe, rfl, rfl⟩
  · rw [if_pos hsame]
    refine ⟨passed, rest, _, hl, hpassed, rfl, (hclear.setNext hafter).setSize htotal, ?_, rfl, rfl⟩
    intro i hi
    exact (store_of_not_mem (by omega)).trans ((store_of_not_mem (by omega)).trans (hframe i hi))

/-! ### Whole runs -/

/-- The heap, and the pointers that are in use with the sizes that were asked for. -/
structure HeapWorld where
  heap : UserHeap
  live : List (Nat × Nat)

/-- The states reached by `malloc` of up to 4084 bytes, `free` of pointers in use and writes to the
memory that is in use, as long as `sbrk` gives memory. -/
inductive HeapRun (base : Nat) : HeapWorld → Prop
  | start {mem : Area} :
      HeapRun base { heap := { mem, head := 0, tail := 0, brk := base }, live := [] }
  | malloc {w : HeapWorld} {h' : UserHeap} {p n : Nat} : HeapRun base w → n ≤ 4084 →
      w.heap.brk + 4096 ≤ 2 ^ 32 → w.heap.malloc n = .ok (p, h') →
      HeapRun base { heap := h', live := (p, n) :: w.live }
  | free {w : HeapWorld} {h' : UserHeap} {p n : Nat} : HeapRun base w → (p, n) ∈ w.live →
      w.heap.free p = .ok h' →
      HeapRun base { heap := h', live := w.live.filter fun q => q.1 ≠ p }
  | write {w : HeapWorld} {p n i : Nat} {byte : Byte} : HeapRun base w → (p, n) ∈ w.live →
      p ≤ i → i < p + n →
      HeapRun base { w with heap := { w.heap with mem := update w.heap.mem i byte } }

def page (base i : Nat) : Nat := base + 4096 * i

/-- The pages hold the chunks `L`, and each pointer in use leads to a chunk of its own. -/
structure Good (base k : Nat) (L : Nat → List Chunk) (w : HeapWorld) : Prop where
  brk : w.heap.brk = page base k
  bound : ∀ i < k, page base i + 4096 ≤ 2 ^ 32
  head : w.heap.head = if k = 0 then 0 else base
  region : ∀ i < k, Region w.heap.mem (page base i) (L i)
  live : ∀ p n, (p, n) ∈ w.live → ∃ i < k, ∃ a c, Placed Chunk.size (page base i) (L i) a c ∧
    p = allocAddr a ∧ c.used = true ∧ n + sizeofChunk ≤ c.size
  nodup : (w.live.map Prod.fst).Nodup

variable {base k i n p : Nat} {L : Nat → List Chunk} {w : HeapWorld}

theorem Region.frame (hr : Region m off l) (hframe : ∀ i, off ≤ i → i < off + 4096 → m' i = m i) :
    Region m' off l where
  row := by
    refine hr.row.frame_outside (fun c hc => (hr.fits c hc).1) fun i hle hlt => ?_
    rw [hr.whole] at hlt
    exact hframe i hle hlt
  whole := hr.whole
  fits := hr.fits

theorem Good.replace {old new : List Chunk} {live : List (Nat × Nat)} (hg : Good base k L w)
    (hi : i < k) (hL : L i = l1 ++ (old ++ l2)) (hold : old ≠ []) (hnew : new ≠ [])
    (hrow : Row h'.mem (page base i + Tiling.span Chunk.size l1) new
      (first (page base i + Tiling.span Chunk.size l1 + Tiling.span Chunk.size old) l2 0))
    (hspan : Tiling.span Chunk.size new = Tiling.span Chunk.size old)
    (hfits : ∀ c ∈ new, sizeofChunk ≤ c.size ∧ c.size % 2 = 0)
    (hframe : ∀ j, j < page base i + Tiling.span Chunk.size l1 ∨
      page base i + Tiling.span Chunk.size l1 + Tiling.span Chunk.size old ≤ j → h'.mem j = w.heap.mem j)
    (hhead : h'.head = w.heap.head) (hbrk : h'.brk = w.heap.brk)
    (hlive : ∀ p n, (p, n) ∈ live →
      (∃ a c, Placed Chunk.size (page base i + Tiling.span Chunk.size l1) new a c ∧ p = allocAddr a ∧
        c.used = true ∧ n + sizeofChunk ≤ c.size) ∨
      (p, n) ∈ w.live ∧ ∀ a c, Placed Chunk.size (page base i + Tiling.span Chunk.size l1) old a c →
        c.used = true → p ≠ allocAddr a)
    (hnodup : (live.map Prod.fst).Nodup) :
    Good base k (update L i (l1 ++ (new ++ l2))) { heap := h', live } := by
  have hr := hg.region i hi
  rw [hL] at hr
  have hwhole := hr.whole
  rw [Tiling.span_append, Tiling.span_append] at hwhole
  refine ⟨hbrk.trans hg.brk, hg.bound, hhead.trans hg.head, ?_, ?_, hnodup⟩
  · intro j hj
    by_cases hji : j = i
    · subst hji
      rw [update_self]
      exact hr.replace hold hnew hrow hspan hfits hframe
    · rw [update_of_ne hji]
      refine (hg.region j hj).frame fun x hle hlt => hframe x ?_
      rw [page] at hle hlt ⊢
      omega
  · intro p n hmem
    rcases hlive p n hmem with ⟨a, c, hplaced, hp⟩ | ⟨hmem, hnot⟩
    · refine ⟨i, hi, a, c, ?_, hp⟩
      rw [update_self, placed_append, placed_append]
      exact Or.inr (Or.inl hplaced)
    · obtain ⟨j, hj, a, c, hplaced, hp, hused, hn⟩ := hg.live p n hmem
      refine ⟨j, hj, a, c, ?_, hp, hused, hn⟩
      by_cases hji : j = i
      · subst hji
        rw [update_self]
        rw [hL] at hplaced
        exact hplaced.replace (fun hin => hnot a c hin hused hp) hspan
      · rwa [update_of_ne hji]

theorem Good.le {a : Nat} (hg : Good base k L w) (hi : i < k)
    (hplaced : Placed Chunk.size (page base i) (L i) a c) :
    page base i ≤ a ∧ a + c.size ≤ page base i + 4096 ∧ sizeofChunk ≤ c.size := by
  have hle := hplaced.le
  rw [(hg.region i hi).whole] at hle
  exact ⟨hle.1, hle.2, ((hg.region i hi).fits c hplaced.mem).1⟩

theorem Good.unique {j a : Nat} {c' : Chunk} (hg : Good base k L w) (hi : i < k) (hj : j < k)
    (hplaced : Placed Chunk.size (page base i) (L i) a c)
    (hplaced' : Placed Chunk.size (page base j) (L j) a c') : i = j ∧ c = c' := by
  have hheader : sizeofChunk = 12 := rfl
  have hle := hg.le hi hplaced
  have hle' := hg.le hj hplaced'
  have hij : i = j := by
    rw [page] at hle hle'
    omega
  subst hij
  refine ⟨rfl, hplaced.unique (fun b hb => ?_) hplaced'⟩
  have hb' := ((hg.region i hi).fits b hb).1
  omega

theorem align2_need (hn : n ≤ 4084) : sizeofChunk ≤ align2 ((n + sizeofChunk) % 2 ^ 32) ∧
    n + sizeofChunk ≤ align2 ((n + sizeofChunk) % 2 ^ 32) ∧
    align2 ((n + sizeofChunk) % 2 ^ 32) ≤ 4096 ∧ align2 ((n + sizeofChunk) % 2 ^ 32) % 2 = 0 := by
  rw [align2, sizeofChunk]
  omega

theorem Good.alloc {a : Nat} (hg : Good base k L w) (hi : i < k)
    (hplaced : Placed Chunk.size (page base i) (L i) a c) (hfree : c.used = false) (hn : n ≤ 4084)
    (hneed : align2 ((n + sizeofChunk) % 2 ^ 32) ≤ c.size) :
    ∃ h' L', w.heap.allocChunk a (align2 ((n + sizeofChunk) % 2 ^ 32)) = .ok (allocAddr a, h') ∧
      Good base k L' { heap := h', live := (allocAddr a, n) :: w.live } := by
  obtain ⟨hneed1, hneed2, hneed3, hneed4⟩ := align2_need hn
  have hr := hg.region i hi
  have hbound := hg.bound i hi
  have hin := hplaced.le
  rw [hr.whole] at hin
  obtain ⟨l1, l2, hL, ha⟩ := hplaced.exists_append
  have hL' : L i = l1 ++ ([c] ++ l2) := hL
  have hrows := hr.row
  rw [hL', row_append, ← ha] at hrows
  have hheader : Header w.heap.mem a c (first (a + c.size) l2 0) := hrows.2.1
  obtain ⟨d, rest, h', halloc, hrow, hspan, hused, hd, hfits, hframe, hhead, hbrk⟩ :=
    allocChunk_header hheader hfree ⟨hneed1, hneed, hneed4⟩ (hr.fits c hplaced.mem).2 (by omega)
  have hone : Tiling.span Chunk.size [c] = c.size := Nat.add_zero _
  refine ⟨h', _, halloc, hg.replace hi hL' (List.cons_ne_nil c []) (List.cons_ne_nil d rest) ?_ ?_
    hfits ?_ hhead hbrk ?_ ?_⟩
  · rw [← ha, hone]
    exact hrow
  · rw [hone, hspan]
  · rw [← ha, hone]
    exact hframe
  · intro p m hmem
    rw [← ha]
    rcases List.mem_cons.1 hmem with heq | hmem
    · cases heq
      exact Or.inl ⟨a, d, Or.inl ⟨rfl, rfl⟩, rfl, hused, hneed2.trans hd⟩
    · refine Or.inr ⟨hmem, fun a' c' hin hused' => ?_⟩
      rcases hin with ⟨_, rfl⟩ | hin
      · rw [hfree] at hused'
        cases hused'
      · exact hin.elim
  · rw [List.map_cons, List.nodup_cons]
    refine ⟨fun hmem => ?_, hg.nodup⟩
    obtain ⟨⟨p, m⟩, hmem, hp⟩ := List.mem_map.1 hmem
    dsimp only at hp
    obtain ⟨j, hj, a', c', hplaced', hp', hused', _⟩ := hg.live p m hmem
    obtain rfl : a' = a := Nat.add_right_cancel (hp'.symm.trans hp)
    obtain ⟨_, rfl⟩ := hg.unique hi hj hplaced hplaced'
    rw [hfree] at hused'
    cases hused'

/-- The heap with one more page, which is a single free chunk. -/
def grown (h : UserHeap) : UserHeap :=
  { mem := chunkInit h.mem h.brk 0 4096
    head := if h.head = 0 then h.brk else h.head
    tail := h.brk
    brk := h.brk + 4096 }

section

variable (hg : Good base k L w)
include hg

theorem Good.grow (hbase : 0 < base) (hroom : w.heap.brk + 4096 ≤ 2 ^ 32) :
    Good base (k + 1) (update L k [{ size := 4096, used := false }])
      { w with heap := w.heap.grown } := by
  have hheader : sizeofChunk = 12 := rfl
  have hold : ∀ i < k, update L k [{ size := 4096, used := false }] i = L i :=
    fun i hi => update_of_ne (by omega) ..
  refine ⟨?_, ?_, ?_, ?_, ?_, hg.nodup⟩
  · dsimp only [grown]
    rw [hg.brk, page, page]
    omega
  · intro i hi
    rw [hg.brk] at hroom
    rw [page] at hroom ⊢
    omega
  · dsimp only [grown]
    rw [hg.head, hg.brk, if_neg (Nat.succ_ne_zero k)]
    by_cases hk : k = 0
    · rw [if_pos hk, if_pos rfl, hk, page, Nat.mul_zero, Nat.add_zero]
    · rw [if_neg hk, if_neg (by omega)]
  · intro i hi
    dsimp only [grown]
    rw [hg.brk]
    by_cases hik : i = k
    · subst hik
      rw [update_self]
      refine ⟨⟨header_chunkInit (by decide) (by decide), trivial⟩, rfl, ?_⟩
      intro c hc
      rw [List.mem_singleton.1 hc]
      decide
    · rw [hold i (by omega)]
      refine (hg.region i (by omega)).frame fun j _ hlt => chunkInit_frame (Or.inl ?_)
      rw [page] at hlt ⊢
      omega
  · intro p n hmem
    obtain ⟨i, hi, a, c, hplaced, hp⟩ := hg.live p n hmem
    exact ⟨i, by omega, a, c, by rwa [hold i hi], hp⟩

theorem Good.head_row (hk : k ≠ 0) :
    first base (L 0) 0 = w.heap.head ∧ (L 0).length < 2 ^ 32 := by
  have hr := hg.region 0 (Nat.pos_of_ne_zero hk)
  have hmul := mul_length_le_span fun c hc => (hr.fits c hc).1
  have hwhole := hr.whole
  rw [hr.whole, sizeofChunk] at hmul
  refine ⟨?_, by omega⟩
  rw [hg.head, if_neg hk, first, if_neg]
  intro hnil
  rw [hnil] at hwhole
  cases hwhole

theorem Good.malloc (hbase : 0 < base) (hn : n ≤ 4084)
    (hroom : w.heap.brk + 4096 ≤ 2 ^ 32) :
    ∃ p h' k' L', w.heap.malloc n = .ok (p, h') ∧
      Good base k' L' { heap := h', live := (p, n) :: w.live } ∧
      (base ≤ p ∧ p + n ≤ base + 4096 ∨ p = allocAddr w.heap.brk) := by
  obtain ⟨_, hmin, hneed, _⟩ := align2_need hn
  have hsearch : ∃ found,
      findChunk w.heap.mem (align2 ((n + sizeofChunk) % 2 ^ 32)) (2 ^ 32) w.heap.head = .ok found ∧
        ∀ a, found = some a → 0 < k ∧ ∃ c, Placed Chunk.size (page base 0) (L 0) a c ∧
          c.used = false ∧ align2 ((n + sizeofChunk) % 2 ^ 32) ≤ c.size := by
    by_cases hk : k = 0
    · rw [hg.head, if_pos hk]
      exact ⟨none, rfl, nofun⟩
    · obtain ⟨hfirst, hlength⟩ := hg.head_row hk
      rw [← hfirst]
      obtain ⟨found, hfind, hfound⟩ :=
        findChunk_row (hg.region 0 (Nat.pos_of_ne_zero hk)).row hbase hlength
      exact ⟨found, hfind, fun a ha => ⟨Nat.pos_of_ne_zero hk, hfound a ha⟩⟩
  obtain ⟨found, hfind, hfound⟩ := hsearch
  rw [UserHeap.malloc, hfind, ok_bind]
  cases found with
  | some a =>
    obtain ⟨hk, c, hplaced, hfree, hfit⟩ := hfound a rfl
    obtain ⟨h', L', halloc, hg'⟩ := hg.alloc hk hplaced hfree hn hfit
    have hle := hg.le hk hplaced
    refine ⟨_, h', k, L', halloc, hg', Or.inl ?_⟩
    rw [allocAddr]
    rw [page] at hle
    omega
  | none =>
    have hne : w.heap.brk ≠ 0 := by
      rw [hg.brk, page]
      omega
    have hgrow := hg.grow hbase hroom
    have hplaced : Placed Chunk.size (page base k)
        (update L k [{ size := 4096, used := false }] k) w.heap.brk
        { size := 4096, used := false } := by
      rw [update_self]
      exact Or.inl ⟨hg.brk, rfl⟩
    obtain ⟨h', L', halloc, hg'⟩ := hgrow.alloc (Nat.lt_succ_self k) hplaced rfl hn hneed
    dsimp only
    rw [sbrk, if_pos hroom, assertk_pos hne]
    exact ⟨_, h', k + 1, L', halloc, hg', Or.inr rfl⟩

theorem Good.free (hbase : 0 < base) (hlive : (p, n) ∈ w.live) :
    ∃ h' L', w.heap.free p = .ok h' ∧
      Good base k L' { heap := h', live := w.live.filter fun q => q.1 ≠ p } := by
  obtain ⟨i, hi, a, c, hplaced, rfl, hused, hn⟩ := hg.live p n hlive
  have hr := hg.region i hi
  have hbound := hg.bound i hi
  have hle := hg.le hi hplaced
  obtain ⟨l1, l2, hL, ha⟩ := hplaced.exists_append
  have hwhole := hr.whole
  rw [hL, Tiling.span_append, Tiling.span_cons] at hwhole
  have hrows := hr.row
  rw [hL, row_append, ← ha] at hrows
  have hfits : ∀ d ∈ c :: l2, sizeofChunk ≤ d.size ∧ d.size % 2 = 0 := by
    intro d hd
    refine hr.fits d ?_
    rw [hL]
    exact List.mem_append_right l1 hd
  obtain ⟨passed, rest, h', rfl, hpassed, hfree, hheader, hframe, hhead, hbrk⟩ :=
    free_row hrows.2.1 hrows.2.2 hused (fun d hd => (hfits d hd).1) (by omega)
      (by rw [page] at hle; omega)
  have hL' : L i = l1 ++ ((c :: passed) ++ rest) := hL
  have hspan : Tiling.span Chunk.size
      [{ size := c.size + Tiling.span Chunk.size passed, used := false : Chunk }] =
        Tiling.span Chunk.size (c :: passed) := Nat.add_zero _
  refine ⟨h', _, hfree, hg.replace hi hL' (List.cons_ne_nil c passed) (List.cons_ne_nil _ [])
    ⟨?_, trivial⟩ hspan ?_ ?_ hhead hbrk ?_ ?_⟩
  · rw [← ha, Tiling.span_cons, ← Nat.add_assoc]
    exact hheader
  · intro d hd
    rw [List.mem_singleton.1 hd]
    have hc := hfits c List.mem_cons_self
    have heven : 2 ∣ Tiling.span Chunk.size passed := Tiling.dvd_span fun d hd =>
      Nat.dvd_of_mod_eq_zero (hfits d (List.mem_cons_of_mem c (List.mem_append_left rest hd))).2
    dsimp only
    omega
  · rw [← ha, Tiling.span_cons]
    intro j hj
    exact hframe j (by omega)
  · intro q m hmem
    obtain ⟨hmem, hne⟩ := List.mem_filter.1 hmem
    refine Or.inr ⟨hmem, fun a' c' hin hused' => ?_⟩
    rw [← ha] at hin
    rcases hin with ⟨rfl, _⟩ | hin
    · exact of_decide_eq_true hne
    · rw [hpassed c' hin.mem] at hused'
      cases hused'
  · exact (List.filter_sublist.map Prod.fst).nodup hg.nodup

theorem Good.write {j : Nat} {byte : Byte} (hlive : (p, n) ∈ w.live)
    (hle : p ≤ j) (hlt : j < p + n) :
    Good base k L { w with heap := { w.heap with mem := update w.heap.mem j byte } } := by
  have hheader : sizeofChunk = 12 := rfl
  obtain ⟨i, hi, a, c, hplaced, rfl, hused, hn⟩ := hg.live p n hlive
  have hbounds := hg.le hi hplaced
  rw [allocAddr] at hle hlt
  refine ⟨hg.brk, hg.bound, hg.head, ?_, hg.live, hg.nodup⟩
  intro i' hi'
  have hr := hg.region i' hi'
  refine ⟨hr.row.frame fun a' c' hplaced' x hxle hxlt => update_of_ne ?_ .., hr.whole, hr.fits⟩
  -- The byte is in the memory behind one header, and lies apart from every other chunk.
  have hbounds' := hg.le hi' hplaced'
  by_cases hii : i' = i
  · subst hii
    by_cases haa : a' = a
    · omega
    · have happart := hplaced'.apart hplaced haa
      omega
  · rw [page] at hbounds hbounds'
    omega

end

theorem good_start (base : Nat) (mem : Area) :
    Good base 0 (fun _ => []) { heap := { mem, head := 0, tail := 0, brk := base }, live := [] } where
  brk := rfl
  bound := nofun
  head := rfl
  region := nofun
  live := nofun
  nodup := List.nodup_nil

theorem HeapRun.good (hbase : 0 < base) (hrun : HeapRun base w) : ∃ k L, Good base k L w := by
  induction hrun with
  | start => exact ⟨0, _, good_start base _⟩
  | malloc _ hn hroom hmalloc ih =>
    obtain ⟨k, L, hg⟩ := ih
    obtain ⟨p, h', k', L', hmalloc', hg', _⟩ := hg.malloc hbase hn hroom
    cases hmalloc'.symm.trans hmalloc
    exact ⟨k', L', hg'⟩
  | free _ hlive hfree ih =>
    obtain ⟨k, L, hg⟩ := ih
    obtain ⟨h', L', hfree', hg'⟩ := hg.free hbase hlive
    cases hfree'.symm.trans hfree
    exact ⟨k, L', hg'⟩
  | write _ hlive hle hlt ih =>
    obtain ⟨k, L, hg⟩ := ih
    exact ⟨k, L, hg.write hlive hle hlt⟩

theorem Good.apart {p' n' : Nat} (hg : Good base k L w) (hlive : (p, n) ∈ w.live)
    (hlive' : (p', n') ∈ w.live) (hne : p ≠ p') : p + n ≤ p' ∨ p' + n' ≤ p := by
  obtain ⟨i, hi, a, c, hplaced, rfl, _, hn⟩ := hg.live p n hlive
  obtain ⟨i', hi', a', c', hplaced', rfl, _, hn'⟩ := hg.live p' n' hlive'
  have hbounds := hg.le hi hplaced
  have hbounds' := hg.le hi' hplaced'
  rw [allocAddr, allocAddr] at hne ⊢
  by_cases hii : i = i'
  · subst hii
    have happart := hplaced.apart hplaced' (by omega)
    omega
  · rw [page] at hbounds hbounds'
    omega

/-- Along every run each page from `sbrk` is tiled by chunks, the calls return, and the memory in use
lies in these pages without an overlap. -/
theorem heapRun_tiled (hbase : 0 < base) (hrun : HeapRun base w) :
    (∃ k, w.heap.brk = page base k ∧ (∀ i < k, ∃ l, Region w.heap.mem (page base i) l) ∧
      ∀ p n, (p, n) ∈ w.live → ∃ i < k, page base i ≤ p ∧ p + n ≤ page base i + 4096) ∧
    w.live.Pairwise (fun q q' => q.1 + q.2 ≤ q'.1 ∨ q'.1 + q'.2 ≤ q.1) ∧
    (∀ n ≤ 4084, w.heap.brk + 4096 ≤ 2 ^ 32 → ∃ p h', w.heap.malloc n = .ok (p, h')) ∧
    ∀ p n, (p, n) ∈ w.live → ∃ h', w.heap.free p = .ok h' := by
  obtain ⟨k, L, hg⟩ := hrun.good hbase
  refine ⟨⟨k, hg.brk, fun i hi => ⟨L i, hg.region i hi⟩, ?_⟩, ?_, ?_, ?_⟩
  · intro p n hlive
    obtain ⟨i, hi, a, c, hplaced, rfl, _, hn⟩ := hg.live p n hlive
    have hbounds := hg.le hi hplaced
    refine ⟨i, hi, ?_, ?_⟩ <;> rw [allocAddr] <;> omega
  · have hdistinct : w.live.Pairwise fun q q' => q.1 ≠ q'.1 := List.pairwise_map.1 hg.nodup
    exact hdistinct.imp_of_mem fun hq hq' hne => hg.apart hq hq' hne
  · intro n hn hroom
    obtain ⟨p, h', _, _, hmalloc, _⟩ := hg.malloc hbase hn hroom
    exact ⟨p, h', hmalloc⟩
  · intro p n hlive
    obtain ⟨h', _, hfree, _⟩ := hg.free hbase hlive
    exact ⟨h', hfree⟩

def fresh : UserHeap := { mem := fun _ => 0, head := 0, tail := 0, brk := 4096 }

/-- A chunk of each of two pages is in use; the first one is given back and joined with the free rest of
its page. -/
theorem exists_joined : ∃ q h, HeapRun 4096 { heap := h, live := [(q, 200)] } ∧ h.brk = page 4096 2 ∧
    used h.mem 4096 = false ∧ size h.mem 4096 = 4096 := by
  obtain ⟨h, hrun⟩ := exists_ok (x := do
    let (p, h) ← fresh.malloc 4000
    assertk (h.brk + 4096 ≤ 2 ^ 32)
    let (q, h) ← h.malloc 200
    let h ← h.free p
    assertk (q ≠ p ∧ h.brk = page 4096 2 ∧ used h.mem 4096 = false ∧ size h.mem 4096 = 4096)
    Except.ok h) (by decide +kernel)
  simp only [bind_ok_iff, Prod.exists] at hrun
  obtain ⟨p, h1, hfirst, _, hroom, q, h2, hsecond, h3, hfree, _, hafter, _⟩ := hrun
  obtain ⟨hne, hjoined⟩ := of_assertk hafter
  have hrun1 : HeapRun 4096 { heap := h1, live := [(p, 4000)] } :=
    .malloc .start (by decide) (by decide) hfirst
  have hrun2 := hrun1.malloc (by decide) (of_assertk hroom) hsecond
  have hrun3 := hrun2.free (List.mem_cons_of_mem _ List.mem_cons_self) hfree
  exact ⟨q, h3, by simpa [hne] using hrun3, hjoined⟩

theorem heapRun_tiled_joined : ∃ q h l l' h', HeapRun 4096 { heap := h, live := [(q, 200)] } ∧
    h.brk = page 4096 2 ∧ size h.mem 4096 = 4096 ∧ Region h.mem (page 4096 0) l ∧
    Region h.mem (page 4096 1) l' ∧ h.free q = .ok h' := by
  obtain ⟨q, h, hrun, hbrk, _, hsize⟩ := exists_joined
  obtain ⟨⟨k, hk, hregions, _⟩, _, _, hfrees⟩ := heapRun_tiled (by decide) hrun
  obtain rfl : k = 2 := by
    have heq := hk.symm.trans hbrk
    rw [page, page] at heq
    omega
  obtain ⟨l, hl⟩ := hregions 0 (by decide)
  obtain ⟨l', hl'⟩ := hregions 1 (by decide)
  obtain ⟨h', hfree⟩ := hfrees q 200 List.mem_cons_self
  exact ⟨q, h, l, l', h', hrun, hbrk, hsize, hl, hl', hfree⟩

theorem freeSpace_row (sum : Nat) {fuel : Nat} (hrow : Row m off l 0) (hoff : 0 < off)
    (hsum : sum + Tiling.span Chunk.size l < 2 ^ 32) (hfuel : l.length < fuel) :
    freeSpace m fuel (first off l 0) sum = .ok (sum + Tiling.span Chunk.size l) := by
  induction fuel generalizing off l sum with
  | zero => exact absurd hfuel (Nat.not_lt_zero _)
  | succ fuel ih =>
    cases l with
    | nil => rfl
    | cons c l =>
      have hat : first off (c :: l) 0 = off := if_neg (List.cons_ne_nil c l)
      rw [Tiling.span_cons, ← Nat.add_assoc] at hsum ⊢
      rw [freeSpace, hat, if_neg (Nat.ne_of_gt hoff), next, hrow.1.next, size, hrow.1.size,
        Nat.mod_eq_of_lt (by omega)]
      exact ih _ hrow.2 (by omega) hsum (Nat.lt_of_succ_lt_succ hfuel)

/-- However many pages `sbrk` has given, only the chunks of the first one are ever met again: they are what
`free_space` counts, and a request that they cannot meet takes a new page. -/
theorem heapRun_freeSpace (hbase : 0 < base) (hrun : HeapRun base w) :
    (∃ k, w.heap.brk = page base k ∧
      freeSpace w.heap.mem (2 ^ 32) w.heap.head 0 = .ok (if k = 0 then 0 else 4096)) ∧
    ∀ n ≤ 4084, w.heap.brk + 4096 ≤ 2 ^ 32 → ∃ p h', w.heap.malloc n = .ok (p, h') ∧
      (base ≤ p ∧ p + n ≤ base + 4096 ∨ p = allocAddr w.heap.brk) := by
  obtain ⟨k, L, hg⟩ := hrun.good hbase
  refine ⟨⟨k, hg.brk, ?_⟩, fun n hn hroom => ?_⟩
  · by_cases hk : k = 0
    · rw [hg.head, if_pos hk, if_pos hk]
      rfl
    · obtain ⟨hfirst, hlength⟩ := hg.head_row hk
      have hr := hg.region 0 (Nat.pos_of_ne_zero hk)
      have hspace := freeSpace_row 0 hr.row hbase (by rw [hr.whole]; decide) hlength
      rw [← hfirst, if_neg hk]
      exact hspace.trans (by rw [hr.whole])
  · obtain ⟨p, h', _, _, hmalloc, _, hp⟩ := hg.malloc hbase hn hroom
    exact ⟨p, h', hmalloc, hp⟩

/-- Of two pages `free_space` counts one. -/
theorem heapRun_freeSpace_joined : ∃ q h p h', HeapRun 4096 { heap := h, live := [(q, 200)] } ∧
    h.brk = page 4096 2 ∧ freeSpace h.mem (2 ^ 32) h.head 0 = .ok 4096 ∧
    h.malloc 3000 = .ok (p, h') ∧ (4096 ≤ p ∧ p + 3000 ≤ 4096 + 4096 ∨ p = allocAddr h.brk) := by
  obtain ⟨q, h, hrun, hbrk, _⟩ := exists_joined
  obtain ⟨⟨k, hk, hspace⟩, hmalloc⟩ := heapRun_freeSpace (by decide) hrun
  have hne : k ≠ 0 := by
    rintro rfl
    exact absurd (hk.symm.trans hbrk) (by decide)
  obtain ⟨p, h', hok, hp⟩ := hmalloc 3000 (by decide) (by rw [hbrk]; decide)
  exact ⟨q, h, p, h', hrun, hbrk, hspace.trans (by rw [if_neg hne]), hok, hp⟩

end UserHeap

end QuarkOS
