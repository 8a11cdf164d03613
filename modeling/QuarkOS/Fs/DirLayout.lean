import QuarkOS.Fs.DirBytes

/-!
# Updates of a directory block in its bytes

`new_dir_entry`, `merge_dir_entry` and the loops around them write sizes and headers in place. `Row` says
which entries the bytes hold, and each function of `dir.c` on bytes does what its counterpart on entries
does. So the entries of a block that they tile go on to tile it, whatever is inserted and removed.
-/

namespace QuarkOS

open Bytes

namespace DirBytes

def put (blockSize : Nat) (a : Area) (off w v : Nat) : Except Fault Area :=
  if off + w ≤ blockSize then .ok (store a off w v) else .error .undefined

def putName (blockSize : Nat) (a : Area) (off : Nat) (name : Name) : Except Fault Area :=
  if off + name.length ≤ blockSize then .ok (copy a off name) else .error .undefined

section Updates

variable (blockSize : Nat) (a : Area)

/-- The end of `new_dir_entry`, which writes an entry of `need` bytes into the space at `new`. -/
def placeEntry (new need ino : Nat) (name : Name) (type : Nat) : Except Fault (Option Nat × Area) := do
  let size ← entrySize blockSize a new
  if need > size then .ok (none, a)
  else do
    let a ← put blockSize a new 4 ino
    let a ← put blockSize a (new + 6) 1 name.length
    let a ← put blockSize a (new + 7) 1 type
    let a ← putName blockSize a (new + sizeofExt2Dir) name
    let size ← entrySize blockSize a new
    let remain := (size + 2 ^ 32 - need) % 2 ^ 32
    if remain > align4 (sizeofExt2Dir + 1) then do
      let a ← put blockSize a (new + 4) 2 need
      let a ← put blockSize a (new + need) 4 0
      let a ← put blockSize a (new + need + 4) 2 remain
      .ok (some (new + need), a)
    else .ok (some new, a)

def newDirEntry (dir ino : Nat) (name : Name) (type : Nat) : Except Fault (Option Nat × Area) := do
  assertk (name.length < fileNameLen)
  let need := align4 (name.length + sizeofExt2Dir)
  let len ← nameLen blockSize a dir
  let dirLen := align4 (align4 (sizeofExt2Dir + len))
  let used ← inode blockSize a dir
  if used ≠ 0 then do
    let size ← entrySize blockSize a dir
    let rest := (size + 2 ^ 32 - dirLen) % 2 ^ 32
    if rest < need then .ok (none, a)
    else do
      let a ← put blockSize a (dir + dirLen + 4) 2 rest
      let a ← put blockSize a (dir + 4) 2 dirLen
      placeEntry blockSize a (dir + dirLen) need ino name type
  else placeEntry blockSize a dir need ino name type

/-- The loop of `create_dir_entry` over a block, and whether an entry accepted. -/
def createLoop (ino : Nat) (name : Name) (type stop : Nat) : Nat → Area → Nat → Except Fault (Bool × Area)
  | 0, _, _ => .error .spin
  | fuel + 1, a, dir =>
    if dir < stop then do
      let (new, a) ← newDirEntry blockSize a dir ino name type
      match new with
      | some new => do
        let a ← mergeDirEntry blockSize (blockSize + 1) a new
        .ok (true, a)
      | none => do
        let size ← entrySize blockSize a dir
        createLoop ino name type stop fuel a (dir + size)
    else .ok (false, a)

/-- Sizes other than zero lead to at most `blockSize` entries. -/
def createDirEntry (ino : Nat) (name : Name) (type : Nat) : Except Fault (Bool × Area) :=
  createLoop blockSize ino name type (dirEnd blockSize 0) (blockSize + 1) a 0

/-- What `remove_from_parent` does at the entry it found. -/
def removeEntry (dir : Nat) : Except Fault Area := do
  let a ← put blockSize a dir 4 0
  mergeDirEntry blockSize (blockSize + 1) a dir

/-- The entry that covers a new block, as `create_dir_entry` and `make_empty_dir` write it. -/
def newBlock : Except Fault Area := do
  let a ← put blockSize a 0 4 0
  put blockSize a 4 2 blockSize

end Updates

def entryAt (a : Area) (dir : Nat) : Ext2Dir where
  inode := load a dir 4
  entrySize := load a (dir + 4) 2
  type := load a (dir + 7) 1
  name := slice a (dir + sizeofExt2Dir) (load a (dir + 6) 1)

def entriesFrom (blockSize : Nat) (a : Area) : Nat → Nat → List Ext2Dir
  | 0, _ => []
  | fuel + 1, dir =>
    if dir < blockSize then
      entryAt a dir :: entriesFrom blockSize a fuel (dir + (entryAt a dir).entrySize)
    else []

/-- The entries of a block, in the order of `for_each_dir`. -/
def entries (blockSize : Nat) (a : Area) : List Ext2Dir := entriesFrom blockSize a blockSize 0

/-- The bytes at `off` say `d`; the name and type of an empty entry do not matter. -/
structure Entry (a : Area) (off : Nat) (d : Ext2Dir) : Prop where
  inode : load a off 4 = d.inode
  size : load a (off + 4) 2 = d.entrySize
  body : d.inode ≠ 0 → load a (off + 6) 1 = d.name.length ∧ load a (off + 7) 1 = d.type ∧
    slice a (off + sizeofExt2Dir) d.name.length = d.name

def Row (a : Area) : Nat → List Ext2Dir → Prop
  | _, [] => True
  | off, d :: rest => Entry a off d ∧ Row a (off + d.entrySize) rest

variable {blockSize size off dir ino type fuel n : Nat} {a a' : Area} {d : Ext2Dir} {name : Name}
  {block block' before rest : List Ext2Dir}

theorem entry_entryAt (a : Area) (dir : Nat) : Entry a dir (entryAt a dir) := by
  refine ⟨rfl, rfl, fun _ => ⟨(length_slice ..).symm, rfl, ?_⟩⟩
  change slice a _ (slice a _ _).length = slice a _ _
  rw [length_slice]

theorem row_entriesFrom (blockSize : Nat) (a : Area) (fuel dir : Nat) :
    Row a dir (entriesFrom blockSize a fuel dir) := by
  induction fuel generalizing dir with
  | zero => trivial
  | succ fuel ih =>
    rw [entriesFrom]
    split
    · exact ⟨entry_entryAt a dir, ih _⟩
    · trivial

theorem row_append : Row a off (block ++ rest) ↔ Row a off block ∧ Row a (off + span block) rest := by
  induction block generalizing off with
  | nil => exact ⟨fun h => ⟨trivial, h⟩, fun h => h.2⟩
  | cons d block ih =>
    rw [List.cons_append, Row, Row, ih, span_cons, Nat.add_assoc, and_assoc]

theorem Entry.frame (h : Entry a off d) (hfits : d.Fits)
    (hsame : ∀ i, off ≤ i → i < off + d.entrySize → a' i = a i) : Entry a' off d := by
  have hheader : 8 ≤ d.entrySize := hfits.header
  refine ⟨?_, ?_, fun hlive => ?_⟩
  · rw [← h.inode]
    exact load_congr fun i hle hlt => hsame i hle (by omega)
  · rw [← h.size]
    exact load_congr fun i hle hlt => hsame i (by omega) (by omega)
  · obtain ⟨hlen, htype, hname⟩ := h.body hlive
    have hfit : 8 + d.name.length ≤ d.entrySize := hfits.name hlive
    refine ⟨?_, ?_, ?_⟩
    · rw [← hlen]
      exact load_congr fun i hle hlt => hsame i (by omega) (by omega)
    · rw [← htype]
      exact load_congr fun i hle hlt => hsame i (by omega) (by omega)
    · refine Eq.trans (slice_congr fun i hle hlt => hsame i ?_ ?_) hname
      · omega
      · rw [sizeofExt2Dir] at hlt
        omega

theorem Row.frame (h : Row a off block) (hfits : ∀ d ∈ block, d.Fits)
    (hsame : ∀ i, off ≤ i → i < off + span block → a' i = a i) : Row a' off block := by
  induction block generalizing off with
  | nil => trivial
  | cons d rest ih =>
    rw [span_cons] at hsame
    refine ⟨h.1.frame (hfits d List.mem_cons_self) fun i hle hlt => hsame i hle (by omega), ?_⟩
    exact ih h.2 (fun d hd => hfits d (List.mem_cons_of_mem _ hd)) fun i hle hlt =>
      hsame i (by omega) (by omega)

theorem Entry.setSize (h : Entry a off d) (n : Nat) :
    Entry (store a (off + 4) 2 n) off { d with entrySize := n % 2 ^ 16 } := by
  refine ⟨?_, load_store, fun hlive => ?_⟩
  · rw [load_store_of_disjoint (by omega)]
    exact h.inode
  · obtain ⟨hlen, htype, hname⟩ := h.body hlive
    rw [load_store_of_disjoint (by omega), load_store_of_disjoint (by omega),
      slice_store_of_disjoint (by rw [sizeofExt2Dir]; omega)]
    exact ⟨hlen, htype, hname⟩

theorem Entry.clear (h : Entry a off d) : Entry (store a off 4 0) off { d with inode := 0 } := by
  refine ⟨load_store, ?_, fun hne => absurd rfl hne⟩
  rw [load_store_of_disjoint (by omega)]
  exact h.size

theorem entry_empty (a : Area) (off n : Nat) :
    Entry (store (store a off 4 0) (off + 4) 2 n) off (emptyEntry (n % 2 ^ 16)) := by
  refine ⟨?_, load_store, fun hne => absurd rfl hne⟩
  rw [load_store_of_disjoint (by omega), load_store]
  rfl

theorem entry_write (hino : ino < 2 ^ 32) (hname : name.length < 2 ^ 8) (htype : type < 2 ^ 8) :
    Entry (copy (store (store (store a off 4 ino) (off + 6) 1 name.length) (off + 7) 1 type)
      (off + sizeofExt2Dir) name) off ⟨ino, load a (off + 4) 2, type, name⟩ := by
  have hheader : sizeofExt2Dir = 8 := rfl
  refine ⟨?_, ?_, fun _ => ⟨?_, ?_, slice_copy ..⟩⟩
  · rw [load_copy_of_disjoint (by omega), load_store_of_disjoint (by omega),
      load_store_of_disjoint (by omega), load_store]
    exact Nat.mod_eq_of_lt hino
  · rw [load_copy_of_disjoint (by omega), load_store_of_disjoint (by omega),
      load_store_of_disjoint (by omega), load_store_of_disjoint (by omega)]
  · rw [load_copy_of_disjoint (by omega), load_store_of_disjoint (by omega), load_store]
    exact Nat.mod_eq_of_lt hname
  · rw [load_copy_of_disjoint (by omega), load_store]
    exact Nat.mod_eq_of_lt htype

theorem write_frame {i : Nat} (h : i < off ∨ off + sizeofExt2Dir + name.length ≤ i) :
    copy (store (store (store a off 4 ino) (off + 6) 1 name.length) (off + 7) 1 type)
      (off + sizeofExt2Dir) name i = a i := by
  have hheader : sizeofExt2Dir = 8 := rfl
  rw [copy_of_not_mem (by omega), store_of_not_mem (by omega), store_of_not_mem (by omega),
    store_of_not_mem (by omega)]

theorem put_ok {w v : Nat} (h : off + w ≤ blockSize) : put blockSize a off w v = .ok (store a off w v) :=
  if_pos h

theorem putName_ok (h : off + name.length ≤ blockSize) :
    putName blockSize a off name = .ok (copy a off name) :=
  if_pos h

theorem Entry.entrySize_ok (h : Entry a off d) (hin : off + 6 ≤ blockSize) :
    entrySize blockSize a off = .ok d.entrySize := by
  rw [entrySize, field_ok (by omega), h.size]

theorem Entry.inode_ok (h : Entry a off d) (hin : off + 4 ≤ blockSize) :
    DirBytes.inode blockSize a off = .ok d.inode := by
  rw [DirBytes.inode, field_ok hin, h.inode]

theorem length_le_of_tiles (h : Tiles size block) : 8 * block.length ≤ size := by
  induction block generalizing size with
  | nil => exact Nat.zero_le size
  | cons d rest ih =>
    obtain ⟨hfits, hle, hrest⟩ := Tiles.cons_iff.1 h
    have hheader : 8 ≤ d.entrySize := hfits.header
    have := ih hrest
    rw [List.length_cons]
    omega

theorem mergeLoop_row (h : Row a off block) (htiles : Tiles size block) (hend : off + size = blockSize)
    (hfuel : block.length < fuel) : mergeLoop blockSize a blockSize fuel off n =
      .ok (n + span (block.takeWhile fun hdr => hdr.inode = 0)) := by
  induction block generalizing off size fuel n with
  | nil =>
    obtain ⟨fuel, rfl⟩ := Nat.exists_eq_add_of_lt hfuel
    have hsize : 0 = size := htiles.span
    rw [mergeLoop, if_neg (by omega)]
    rfl
  | cons d rest ih =>
    obtain ⟨fuel, rfl⟩ := Nat.exists_eq_add_of_lt hfuel
    obtain ⟨hfits, hle, hrest⟩ := Tiles.cons_iff.1 htiles
    have hheader : 8 ≤ d.entrySize := hfits.header
    rw [List.length_cons] at *
    rw [mergeLoop, if_pos (by omega), h.1.inode_ok (by omega), ok_bind, List.takeWhile_cons]
    by_cases hzero : d.inode = 0
    · rw [if_neg (not_not.2 hzero), if_pos (decide_eq_true hzero), h.1.entrySize_ok (by omega), ok_bind,
        ih h.2 hrest (by omega) (by omega), span_cons, Nat.add_assoc]
    · rw [if_pos hzero, if_neg (by simpa using hzero), span_nil, Nat.add_zero]

theorem mergeDirEntry_row (h : Row a off (d :: rest)) (htiles : Tiles size (d :: rest))
    (hend : off + size = blockSize) (hsize : blockSize < 2 ^ 16) :
    ∃ a', mergeDirEntry blockSize (blockSize + 1) a off = .ok a' ∧
      Row a' off (QuarkOS.mergeDirEntry (d :: rest)) ∧ ∀ i < off, a' i = a i := by
  have hlen := length_le_of_tiles htiles
  obtain ⟨hfits, hle, hrest⟩ := Tiles.cons_iff.1 htiles
  have hheader : 8 ≤ d.entrySize := hfits.header
  rw [mergeDirEntry, h.1.inode_ok (by omega), ok_bind, QuarkOS.mergeDirEntry]
  by_cases hlive : d.inode ≠ 0
  · rw [if_pos hlive, if_pos hlive]
    exact ⟨a, rfl, h, fun _ _ => rfl⟩
  · rw [if_neg hlive, if_neg hlive, dirEnd_of_lt (by omega),
      mergeLoop_row h htiles hend (by omega), ok_bind, Nat.zero_add]
    refine ⟨_, rfl, ⟨h.1.setSize _, ?_⟩, fun i hi => store_of_not_mem (by omega)⟩
    have hzero : d.inode = 0 := Classical.not_not.1 hlive
    have hsplit := span_takeWhile_dropWhile (fun hdr => hdr.inode = 0) rest
    have htake : span ((d :: rest).takeWhile fun hdr => hdr.inode = 0) =
        d.entrySize + span (rest.takeWhile fun hdr => hdr.inode = 0) := by
      rw [List.takeWhile_cons, if_pos (decide_eq_true hzero), span_cons]
    have hspan := hrest.span
    change Row _ (off + span ((d :: rest).takeWhile fun hdr => hdr.inode = 0) % 2 ^ 16) _
    rw [htake, Nat.mod_eq_of_lt (by omega), ← Nat.add_assoc]
    have hrow := h.2
    rw [← List.takeWhile_append_dropWhile (p := fun hdr => decide (hdr.inode = 0)) (l := rest),
      row_append] at hrow
    refine hrow.2.frame (fun d hd => hrest.fits d ((List.dropWhile_sublist _).subset hd)) fun i hi _ => ?_
    exact store_of_not_mem (by omega)

theorem placeEntry_before (before : List Ext2Dir) (size ino : Nat) (name : Name) (type : Nat) :
    QuarkOS.placeEntry before size ino name type =
      (QuarkOS.placeEntry [] size ino name type).map fun p => (before ++ p.1, p.2) := by
  rw [QuarkOS.placeEntry, QuarkOS.placeEntry]
  split
  · rfl
  · dsimp only
    split
    · rfl
    · rw [Option.map_some, List.append_nil]

theorem placeEntry_row (hsize : load a (off + 4) 2 = size) (hin : off + size ≤ blockSize)
    (hheader : 8 ≤ size) (hino : ino < 2 ^ 32) (hname : name.length < fileNameLen) (htype : type < 2 ^ 8) :
    (QuarkOS.placeEntry [] size ino name type = none →
      placeEntry blockSize a off (align4 (name.length + sizeofExt2Dir)) ino name type = .ok (none, a)) ∧
    ∀ rest new, QuarkOS.placeEntry [] size ino name type = some (rest, new) → ∃ a',
      placeEntry blockSize a off (align4 (name.length + sizeofExt2Dir)) ino name type =
        .ok (some (off + span rest), a') ∧ Row a' off (rest ++ [new]) ∧
      ∀ i, i < off ∨ off + size ≤ i → a' i = a i := by
  have hlt : size < 2 ^ 16 := hsize ▸ load_lt a (off + 4) 2
  have hmin : align4 (sizeofExt2Dir + 1) = 12 := rfl
  have hread : entrySize blockSize a off = .ok size := by
    rw [entrySize, field_ok (by omega), hsize]
  have hneed : name.length + 8 ≤ align4 (name.length + sizeofExt2Dir) := le_align4 _
  have hdvd := dvd_align4 (name.length + sizeofExt2Dir)
  rw [placeEntry, QuarkOS.placeEntry, hread, ok_bind]
  dsimp only
  rw [hmin]
  generalize align4 (name.length + sizeofExt2Dir) = need at *
  split
  · exact ⟨fun _ => rfl, fun _ _ h => by cases h⟩
  · rename_i hfits
    have hwrite : Entry _ off ⟨ino, load a (off + 4) 2, type, name⟩ :=
      @entry_write off ino type a name hino (Nat.lt_trans hname (by decide)) htype
    have hframe := fun i => @write_frame off ino type a name i
    rw [hsize] at hwrite
    rw [put_ok (by omega), ok_bind, put_ok (by omega), ok_bind, put_ok (by omega), ok_bind,
      putName_ok (by rw [sizeofExt2Dir]; omega), ok_bind]
    generalize copy _ _ _ = a1 at *
    have hremain : (size + 2 ^ 32 - need) % 2 ^ 32 = size - need := by omega
    rw [hwrite.entrySize_ok (by omega), ok_bind, hremain]
    refine ⟨fun h => ?_, fun rest new h => ?_⟩
    · split at h <;> cases h
    · split at h
      · rename_i hsplit
        cases h
        rw [if_pos hsplit, put_ok (by omega), ok_bind, put_ok (by omega), ok_bind, put_ok (by omega),
          ok_bind]
        have hspan : span ([] ++ [⟨ino, need, type, name⟩]) = need := rfl
        refine ⟨_, by rw [hspan], ?_, fun i hi => ?_⟩
        · refine ⟨?_, ?_, trivial⟩
          · have hset := hwrite.setSize need
            rw [Nat.mod_eq_of_lt (by omega)] at hset
            have hfit : 8 + name.length ≤ need := by omega
            refine hset.frame ⟨hdvd, Nat.le_trans (Nat.le_add_right 8 _) hfit, fun _ => hfit⟩ ?_
            intro i hle hi
            change i < off + need at hi
            rw [store_of_not_mem (by omega), store_of_not_mem (by omega)]
          · have hempty := entry_empty (store a1 (off + 4) 2 need) (off + need) (size - need)
            rwa [Nat.mod_eq_of_lt (by omega)] at hempty
        · rw [store_of_not_mem (by omega), store_of_not_mem (by omega), store_of_not_mem (by omega)]
          exact hframe i (by rw [sizeofExt2Dir]; omega)
      · rename_i hsplit
        cases h
        rw [if_neg hsplit]
        exact ⟨a1, rfl, ⟨hwrite, trivial⟩, fun i hi => hframe i (by rw [sizeofExt2Dir]; omega)⟩

theorem newDirEntry_row (h : Entry a off d) (hfits : d.Fits) (hin : off + d.entrySize ≤ blockSize)
    (hino : ino < 2 ^ 32) (hname : name.length < fileNameLen) (htype : type < 2 ^ 8) :
    (QuarkOS.newDirEntry d ino name type = .ok none →
      newDirEntry blockSize a off ino name type = .ok (none, a)) ∧
    ∀ before new, QuarkOS.newDirEntry d ino name type = .ok (some (before, new)) → ∃ a',
      newDirEntry blockSize a off ino name type = .ok (some (off + span before), a') ∧
      Row a' off (before ++ [new]) ∧ ∀ i, i < off ∨ off + d.entrySize ≤ i → a' i = a i := by
  have hheader : 8 ≤ d.entrySize := hfits.header
  have hlt : d.entrySize < 2 ^ 16 := h.size ▸ load_lt a (off + 4) 2
  rw [QuarkOS.newDirEntry, newDirEntry, assertk_pos hname, assertk_pos hname, nameLen,
    field_ok (by omega), ok_bind, h.inode_ok (by omega), ok_bind]
  dsimp only
  by_cases hlive : d.inode ≠ 0
  · obtain ⟨hle, hcut⟩ := hfits.cut hlive
    have hlen : align4 (align4 (sizeofExt2Dir + load a (off + 6) 1)) = align4 d.dirLen := by
      rw [(h.body hlive).1, Ext2Dir.dirLen]
    have hcutHeader : 8 ≤ align4 d.dirLen := hcut.header
    rw [if_pos hlive, if_pos hlive, if_neg (Nat.not_lt.2 hle), hlen, h.entrySize_ok (by omega), ok_bind]
    generalize align4 d.dirLen = dirLen at *
    have hrest : (d.entrySize + 2 ^ 32 - dirLen) % 2 ^ 32 = d.entrySize - dirLen := by omega
    rw [hrest]
    split
    · exact ⟨fun _ => rfl, fun _ _ h => by cases h⟩
    · rename_i hroom
      have hneed : name.length + 8 ≤ align4 (name.length + sizeofExt2Dir) := le_align4 _
      rw [put_ok (by omega), ok_bind, put_ok (by omega), ok_bind, placeEntry_before]
      -- The entry is cut, and the space behind it has its size.
      generalize ha1 : store (store a (off + dirLen + 4) 2 (d.entrySize - dirLen)) (off + 4) 2 dirLen = a1
      have hspace : load a1 (off + dirLen + 4) 2 = d.entrySize - dirLen := by
        rw [← ha1, load_store_of_disjoint (by omega), load_store, Nat.mod_eq_of_lt (by omega)]
      have hframe : ∀ i, i < off ∨ off + d.entrySize ≤ i → a1 i = a i := by
        intro i hi
        rw [← ha1, store_of_not_mem (by omega), store_of_not_mem (by omega)]
      have hdir : Entry a1 off { d with entrySize := dirLen } := by
        have hset := h.setSize dirLen
        rw [Nat.mod_eq_of_lt (by omega)] at hset
        refine hset.frame hcut fun i _ hi => ?_
        change i < off + dirLen at hi
        rw [← ha1]
        by_cases hmem : off + 4 ≤ i ∧ i < off + 4 + 2
        · rw [store_of_mem hmem.1 hmem.2, store_of_mem hmem.1 hmem.2]
        · rw [store_of_not_mem (by omega), store_of_not_mem (by omega), store_of_not_mem (by omega)]
      obtain ⟨hnone, hsome⟩ := placeEntry_row hspace
        (show off + dirLen + (d.entrySize - dirLen) ≤ blockSize by omega) (by omega) hino hname htype
      refine ⟨fun hret => ?_, fun before new hret => ?_⟩
      · have hnone' := Option.map_eq_none_iff.1 (Except.ok.inj hret)
        rw [QuarkOS.placeEntry, if_neg hroom] at hnone'
        dsimp only at hnone'
        split at hnone' <;> cases hnone'
      · obtain ⟨⟨rest, last⟩, hplaced, heq⟩ := Option.map_eq_some_iff.1 (Except.ok.inj hret)
        cases heq
        obtain ⟨a', ha', hrow, hframe'⟩ := hsome rest last hplaced
        refine ⟨a', ?_, ⟨hdir.frame hcut fun i _ hi => hframe' i (.inl hi), hrow⟩, fun i hi => ?_⟩
        · rw [ha', List.cons_append, List.nil_append, span_cons, Nat.add_assoc]
        · rw [hframe' i (by omega), hframe i hi]
  · rw [if_neg hlive, if_neg hlive]
    obtain ⟨hnone, hsome⟩ := placeEntry_row h.size hin hheader hino hname htype
    refine ⟨fun hret => hnone (Except.ok.inj hret), fun before new hret => ?_⟩
    exact hsome before new (Except.ok.inj hret)

theorem createLoop_row (h : Row a off block) (htiles : Tiles size block) (hend : off + size = blockSize)
    (hsize : blockSize < 2 ^ 16) (hfuel : block.length < fuel) (hino : ino < 2 ^ 32)
    (hname : name.length < fileNameLen) (htype : type < 2 ^ 8) :
    (createInBlock ino name type block = .ok none →
      createLoop blockSize ino name type blockSize fuel a off = .ok (false, a)) ∧
    ∀ block', createInBlock ino name type block = .ok (some block') → ∃ a',
      createLoop blockSize ino name type blockSize fuel a off = .ok (true, a') ∧ Row a' off block' ∧
      ∀ i < off, a' i = a i := by
  induction block generalizing off size fuel with
  | nil =>
    obtain ⟨fuel, rfl⟩ := Nat.exists_eq_add_of_lt hfuel
    have hzero : 0 = size := htiles.span
    refine ⟨fun _ => ?_, fun _ h => by cases h⟩
    rw [createLoop, if_neg (by omega)]
  | cons d rest ih =>
    obtain ⟨fuel, rfl⟩ := Nat.exists_eq_add_of_lt hfuel
    rw [List.length_cons] at *
    obtain ⟨hfits, hle, hrest⟩ := Tiles.cons_iff.1 htiles
    have hheader : 8 ≤ d.entrySize := hfits.header
    obtain ⟨hnone, hsome⟩ := newDirEntry_row h.1 hfits (show off + d.entrySize ≤ blockSize by omega)
      hino hname htype
    obtain ⟨placed, hplaced⟩ := newDirEntry_ok ino type hfits hname
    rw [createInBlock, hplaced, ok_bind, createLoop, if_pos (by omega)]
    cases placed with
    | none =>
      have hfuel' : rest.length < rest.length + 1 + fuel := by omega
      obtain ⟨hnone', hsome'⟩ := ih h.2 hrest (by omega) hfuel'
      rw [hnone hplaced, ok_bind]
      dsimp only
      rw [h.1.entrySize_ok (by omega), ok_bind]
      refine ⟨fun hret => ?_, fun block' hret => ?_⟩
      · obtain ⟨r, hr, hret⟩ := bind_eq_ok hret
        cases r with
        | none => exact hnone' hr
        | some rest' => cases hret
      · obtain ⟨r, hr, hret⟩ := bind_eq_ok hret
        cases r with
        | none => cases hret
        | some rest' =>
          cases hret
          obtain ⟨a', ha', hrow, hframe⟩ := hsome' rest' hr
          refine ⟨a', ha', ⟨h.1.frame hfits fun i _ hi => hframe i hi, hrow⟩, fun i hi => hframe i ?_⟩
          omega
    | some p =>
      obtain ⟨before, new⟩ := p
      obtain ⟨a1, ha1, hrow, hframe⟩ := hsome before new hplaced
      obtain ⟨hfits', hspan⟩ := newDirEntry_fits hplaced hfits
      rw [span_append, span_cons, span_nil] at hspan
      rw [row_append] at hrow
      refine ⟨fun h => (by cases h), fun block' hret => ?_⟩
      cases hret
      have hrest' : Row a1 (off + d.entrySize) rest :=
        h.2.frame hrest.fits fun i hi _ => hframe i (.inr hi)
      have htail : Row a1 (off + span before) (new :: rest) := by
        refine ⟨hrow.2.1, ?_⟩
        have hoff : off + span before + new.entrySize = off + d.entrySize := by omega
        rwa [hoff]
      have htiles' : Tiles (size - span before) (new :: rest) := by
        have hnew := hfits' new (List.mem_append_right _ (List.mem_singleton_self new))
        refine Tiles.cons_iff.2 ⟨hnew, by omega, ?_⟩
        have hsub : size - span before - new.entrySize = size - d.entrySize := by omega
        rwa [hsub]
      obtain ⟨a2, ha2, hrow2, hframe2⟩ := mergeDirEntry_row htail htiles' (by omega) hsize
      rw [ha1, ok_bind]
      dsimp only
      rw [ha2, ok_bind]
      refine ⟨a2, rfl, row_append.2 ⟨?_, hrow2⟩, fun i hi => ?_⟩
      · exact hrow.1.frame (fun d hd => hfits' d (List.mem_append_left _ hd)) fun i _ hi => hframe2 i hi
      · rw [hframe2 i (by omega), hframe i (.inl hi)]

theorem exists_of_visits {stops : Nat → Prop} (h : Row a off block) (htiles : Tiles size block)
    (hend : off + size = blockSize) (hdir : Visits blockSize a stops off dir) :
    ∃ before d rest, block = before ++ d :: rest ∧ dir = off + span before := by
  induction block generalizing off size with
  | nil =>
    have hzero : 0 = size := htiles.span
    exact absurd hdir.start_lt (by omega)
  | cons d rest ih =>
    obtain ⟨hfits, hle, hrest⟩ := Tiles.cons_iff.1 htiles
    rcases hdir.cases_start with rfl | ⟨_, hdir⟩
    · exact ⟨[], d, rest, rfl, rfl⟩
    · rw [h.1.size] at hdir
      obtain ⟨before, e, rest', rfl, rfl⟩ := ih h.2 hrest (by omega) hdir
      refine ⟨d :: before, e, rest', rfl, ?_⟩
      rw [span_cons, Nat.add_assoc]

/-- The entries from the place of a removed one on. -/
theorem clear_row (h : Row a 0 (before ++ d :: rest)) (htiles : Tiles blockSize (before ++ d :: rest)) :
    Row (store a (span before) 4 0) (span before) ({ d with inode := 0 } :: rest) ∧
      span before + 8 ≤ blockSize ∧ Tiles (blockSize - span before) ({ d with inode := 0 } :: rest) := by
  obtain ⟨_, hle, htail⟩ := Tiles.append_iff.1 htiles
  obtain ⟨hfits, hle', hrest⟩ := Tiles.cons_iff.1 htail
  have hheader : 8 ≤ d.entrySize := hfits.header
  rw [row_append, Nat.zero_add] at h
  refine ⟨⟨h.2.1.clear, h.2.2.frame hrest.fits fun i hi _ => store_of_not_mem (by omega)⟩, by omega, ?_⟩
  exact Tiles.cons_iff.2 ⟨⟨hfits.dvd, hfits.header, fun hne => absurd rfl hne⟩, hle', hrest⟩

theorem removeEntry_row (h : Row a 0 (before ++ d :: rest)) (htiles : Tiles blockSize (before ++ d :: rest))
    (hsize : blockSize < 2 ^ 16) : ∃ a', removeEntry blockSize a (span before) = .ok a' ∧
      Row a' 0 (before ++ QuarkOS.mergeDirEntry ({ d with inode := 0 } :: rest)) := by
  obtain ⟨hclear, hin, htiles'⟩ := clear_row h htiles
  obtain ⟨hbefore, _, _⟩ := Tiles.append_iff.1 htiles
  rw [row_append, Nat.zero_add] at h
  obtain ⟨a', ha', hrow, hframe⟩ := mergeDirEntry_row hclear htiles' (by omega) hsize
  rw [removeEntry, put_ok (by omega), ok_bind, ha']
  refine ⟨a', rfl, row_append.2 ⟨h.1.frame hbefore fun i _ hi => ?_, by rwa [Nat.zero_add]⟩⟩
  rw [hframe i (by omega), store_of_not_mem (by omega)]

def Tiled (blockSize : Nat) (a : Area) : Prop := Tiles blockSize (entries blockSize a)

theorem Entry.entryAt_fits (h : Entry a off d) (hfits : d.Fits) : (entryAt a off).Fits := by
  have hino : (entryAt a off).inode = d.inode := h.inode
  have hsize : (entryAt a off).entrySize = d.entrySize := h.size
  refine ⟨hsize ▸ hfits.dvd, hsize ▸ hfits.header, fun hlive => ?_⟩
  rw [hino] at hlive
  rw [hsize]
  change sizeofExt2Dir + (slice a _ (load a (off + 6) 1)).length ≤ _
  rw [length_slice, (h.body hlive).1]
  exact hfits.name hlive

theorem tiles_entriesFrom (h : Row a off block) (htiles : Tiles size block) (hend : off + size = blockSize)
    (hfuel : block.length ≤ fuel) : Tiles size (entriesFrom blockSize a fuel off) := by
  induction block generalizing off size fuel with
  | nil =>
    have hzero : 0 = size := htiles.span
    cases fuel with
    | zero => exact htiles
    | succ fuel =>
      rw [entriesFrom, if_neg (by omega)]
      exact htiles
  | cons d rest ih =>
    rw [List.length_cons] at hfuel
    obtain ⟨fuel, rfl⟩ := Nat.exists_eq_add_of_le' (Nat.le_trans (Nat.le_add_left 1 _) hfuel)
    obtain ⟨hfits, hle, hrest⟩ := Tiles.cons_iff.1 htiles
    have hheader : 8 ≤ d.entrySize := hfits.header
    have hstep : (entryAt a off).entrySize = d.entrySize := h.1.size
    rw [entriesFrom, if_pos (by omega), Tiles.cons_iff, hstep]
    exact ⟨h.1.entryAt_fits hfits, hle, ih h.2 hrest (by omega) (by omega)⟩

theorem triples_eq_of_row (h : Row a off block) (h' : Row a off block') (htiles : Tiles size block)
    (htiles' : Tiles size block') : triples block = triples block' := by
  induction block generalizing off size block' with
  | nil =>
    have hzero : 0 = size := htiles.span
    cases block' with
    | nil => rfl
    | cons d' rest' =>
      obtain ⟨hfits, hle, _⟩ := Tiles.cons_iff.1 htiles'
      have hheader : 8 ≤ d'.entrySize := hfits.header
      omega
  | cons d rest ih =>
    obtain ⟨hfits, hle, hrest⟩ := Tiles.cons_iff.1 htiles
    have hheader : 8 ≤ d.entrySize := hfits.header
    cases block' with
    | nil =>
      have hzero : 0 = size := htiles'.span
      omega
    | cons d' rest' =>
      obtain ⟨_, _, hrest'⟩ := Tiles.cons_iff.1 htiles'
      have hsize : d'.entrySize = d.entrySize := h'.1.size.symm.trans h.1.size
      have hino : d'.inode = d.inode := h'.1.inode.symm.trans h.1.inode
      have htail := h'.2
      rw [hsize] at hrest' htail
      have heq := ih h.2 htail hrest hrest'
      by_cases hzero : d.inode = 0
      · rw [triples_cons_of_eq hzero, triples_cons_of_eq (hino.trans hzero), heq]
      · have hlive' : d'.inode ≠ 0 := hino ▸ hzero
        obtain ⟨hlen, htype, hname⟩ := h.1.body hzero
        obtain ⟨hlen', htype', hname'⟩ := h'.1.body hlive'
        rw [hlen.symm.trans hlen'] at hname
        rw [triples_cons_of_ne hzero, triples_cons_of_ne hlive', heq, hino, htype.symm.trans htype',
          hname.symm.trans hname']

theorem row_entries (blockSize : Nat) (a : Area) : Row a 0 (entries blockSize a) :=
  row_entriesFrom ..

theorem tiled_of_row (h : Row a 0 block) (htiles : Tiles blockSize block) :
    Tiled blockSize a ∧ triples (entries blockSize a) = triples block := by
  have hlen := length_le_of_tiles htiles
  have htiled : Tiled blockSize a := tiles_entriesFrom h htiles (Nat.zero_add _) (by omega)
  exact ⟨htiled, triples_eq_of_row (row_entries blockSize a) h htiled htiles⟩

theorem newBlock_tiled (hdvd : 4 ∣ blockSize) (hheader : 8 ≤ blockSize) (hsize : blockSize < 2 ^ 16) :
    ∃ a', newBlock blockSize a = .ok a' ∧ Tiled blockSize a' ∧ triples (entries blockSize a') = [] := by
  have hempty := entry_empty a 0 blockSize
  rw [Nat.mod_eq_of_lt hsize] at hempty
  have htiles : Tiles blockSize [emptyEntry blockSize] := by
    refine Tiles.cons_iff.2 ⟨⟨hdvd, hheader, fun hne => absurd rfl hne⟩, Nat.le_refl _, nofun, ?_⟩
    exact (Nat.sub_self blockSize).symm
  have hrow : Row _ 0 [emptyEntry blockSize] := ⟨hempty, trivial⟩
  obtain ⟨htiled, htriples⟩ := tiled_of_row hrow htiles
  rw [newBlock, put_ok (by omega), ok_bind, put_ok (by omega)]
  exact ⟨_, rfl, htiled, htriples⟩

/-- The entry at a place that a scan of a tiled block comes to. -/
theorem entry_of_visits {stops : Nat → Prop} (h : Row a off block) (htiles : Tiles size block)
    (hend : off + size = blockSize) (hdir : Visits blockSize a stops off dir) :
    ∃ d ∈ block, Entry a dir d ∧ d.Fits ∧ dir + d.entrySize ≤ blockSize := by
  obtain ⟨before, d, rest, rfl, rfl⟩ := exists_of_visits h htiles hend hdir
  obtain ⟨_, hle, htail⟩ := Tiles.append_iff.1 htiles
  obtain ⟨hfits, hle', _⟩ := Tiles.cons_iff.1 htail
  exact ⟨d, List.mem_append_right before List.mem_cons_self, (row_append.1 h).2.1, hfits, by omega⟩

theorem Entry.goesOn (h : Entry a dir d) (hfits : d.Fits) (hin : dir + d.entrySize ≤ blockSize) :
    GoesOn blockSize a dir := by
  have hheader : 8 ≤ d.entrySize := hfits.header
  rw [GoesOn, h.size]
  omega

theorem cmpInside_of_le (h : off + name.length ≤ blockSize) : CmpInside blockSize a name off := by
  induction name generalizing off with
  | nil => trivial
  | cons c name ih =>
    rw [List.length_cons] at h
    exact ⟨by omega, fun _ => ih (by omega)⟩

theorem Entry.live_iff (h : Entry a dir d) : Live a dir ↔ d.inode ≠ 0 := by
  rw [Live, h.inode]

/-- The scans of a tiled block stay inside it, if no name is empty. -/
theorem Tiled.scanFits (htiled : Tiled blockSize a)
    (hnames : ∀ d ∈ entries blockSize a, d.inode ≠ 0 → d.name ≠ []) : ScanFits blockSize a name := by
  have hentry := fun stops dir hdir =>
    @entry_of_visits _ _ _ dir _ _ stops (row_entries blockSize a) htiled (Nat.zero_add _) hdir
  refine ⟨fun dir hdir => ?_, fun dir hdir => ?_, fun dir hdir _ => ?_⟩
  · obtain ⟨d, _, hd, hfits, hin⟩ := hentry _ dir hdir
    have hheader : 8 ≤ d.entrySize := hfits.header
    refine ⟨⟨by omega, fun hlive => ⟨by omega, fun hlen => cmpInside_of_le ?_⟩⟩, fun _ => hd.goesOn hfits hin⟩
    have hname := hfits.name (hd.live_iff.1 hlive)
    rw [← (hd.body (hd.live_iff.1 hlive)).1, hlen] at hname
    omega
  · obtain ⟨d, hmem, hd, hfits, hin⟩ := hentry _ dir hdir
    have hheader : 8 ≤ d.entrySize := hfits.header
    refine ⟨⟨by omega, fun hlive => ?_⟩, fun _ => hd.goesOn hfits hin⟩
    have hne := hd.live_iff.1 hlive
    have hname : 8 + d.name.length ≤ d.entrySize := hfits.name hne
    have hpos := List.length_pos_iff.2 (hnames d hmem hne)
    refine ⟨by omega, fun _ htwo => ?_⟩
    rw [(hd.body hne).1] at htwo
    omega
  · obtain ⟨before, d, rest, hblock, hoff⟩ :=
      exists_of_visits (row_entries blockSize a) htiled (Nat.zero_add _) hdir
    rw [Nat.zero_add] at hoff
    subst hoff
    have hrow := row_entries blockSize a
    rw [Tiled, hblock] at htiled
    rw [hblock] at hrow
    obtain ⟨hclear, hspan, htiles⟩ := clear_row hrow htiled
    intro hdr hhdr
    obtain ⟨e, _, he, hfits, hin⟩ := entry_of_visits hclear htiles (by omega) hhdr
    have hheader : 8 ≤ e.entrySize := hfits.header
    exact ⟨by omega, fun _ => he.goesOn hfits hin⟩

inductive DirOp
  | insert (ino : Nat) (name : Name) (type : Nat)
  /-- The entry at this offset. -/
  | remove (dir : Nat)

namespace DirOp

/-- The arguments of an insertion have their types, and a live entry is removed. -/
def Valid (blockSize : Nat) (a : Area) : DirOp → Prop
  | insert ino name type => ino ≠ 0 ∧ ino < 2 ^ 32 ∧ name.length < fileNameLen ∧ type < 2 ^ 8
  | remove dir => Visits blockSize a (fun _ => False) 0 dir ∧ Live a dir

/-- The block after an operation, and whether an entry accepted it. -/
def exec (blockSize : Nat) (a : Area) : DirOp → Except Fault (Bool × Area)
  | insert ino name type => createDirEntry blockSize a ino name type
  | remove dir => do
    let a ← removeEntry blockSize a dir
    .ok (true, a)

/-- One live entry more or less. An insertion is accepted just when an entry has room, and its entry is
placed behind the first such one; otherwise the bytes stay. -/
def Effect (blockSize : Nat) (a : Area) (accepted : Bool) (a' : Area) : DirOp → Prop
  | insert ino name type =>
    (accepted = true ↔ ∃ d ∈ entries blockSize a, d.HasRoom name) ∧
      (accepted = true → PlacedFirst name ino type (entries blockSize a) (entries blockSize a') ∧
        (triples (entries blockSize a')).Perm ((name, ino, type) :: triples (entries blockSize a))) ∧
      (accepted = false → a' = a)
  | remove dir =>
    let gone := entryAt a dir
    (triples (entries blockSize a)).Perm
      ((gone.name, gone.inode, gone.type) :: triples (entries blockSize a'))

end DirOp

/-- The blocks that valid operations lead to. -/
inductive DirRun (blockSize : Nat) (a : Area) : Area → Prop
  | refl : DirRun blockSize a a
  | step {b c : Area} {op : DirOp} {accepted : Bool} (hrun : DirRun blockSize a b)
      (hvalid : op.Valid blockSize b) (hexec : op.exec blockSize b = .ok (accepted, c)) :
      DirRun blockSize a c

variable {op : DirOp} {accepted : Bool}

section

variable (hsize : blockSize < 2 ^ 16) (htiled : Tiled blockSize a)
include hsize htiled

theorem DirOp.exec_insert (hvalid : (DirOp.insert ino name type).Valid blockSize a) : ∃ accepted a',
      (DirOp.insert ino name type).exec blockSize a = .ok (accepted, a') ∧ Tiled blockSize a' ∧
      (DirOp.insert ino name type).Effect blockSize a accepted a' := by
  obtain ⟨hne, hino, hname, htype⟩ := hvalid
  have hlen := length_le_of_tiles htiled
  obtain ⟨hnone, hsome⟩ := createLoop_row (row_entries blockSize a) htiled (Nat.zero_add _) hsize
    (show _ < blockSize + 1 by omega) hino hname htype
  obtain ⟨r, hr, hfull, hplaced⟩ := Tiles.createInBlock ino type htiled hsize hname
  rw [exec, createDirEntry, dirEnd_zero]
  cases r with
  | none =>
    refine ⟨false, a, hnone hr, htiled, iff_of_false Bool.false_ne_true ?_,
      fun h => absurd h Bool.false_ne_true, fun _ => rfl⟩
    rintro ⟨d, hd, hroom⟩
    exact hfull rfl d hd hroom
  | some block' =>
    obtain ⟨a', ha', hrow, _⟩ := hsome block' hr
    obtain ⟨htiles, hfirst⟩ := hplaced block' rfl
    obtain ⟨htiled', htriples⟩ := tiled_of_row hrow htiles
    have hfirst' : PlacedFirst name ino type (entries blockSize a) (entries blockSize a') := by
      rwa [PlacedFirst, htriples]
    have hperm := hfirst'.perm
    rw [added, if_neg hne] at hperm
    exact ⟨true, a', ha', htiled', iff_of_true rfl hfirst'.exists_hasRoom, fun _ => ⟨hfirst', hperm⟩,
      fun h => absurd h.symm Bool.false_ne_true⟩

theorem DirOp.exec_remove (hvalid : (DirOp.remove dir).Valid blockSize a) : ∃ accepted a',
      (DirOp.remove dir).exec blockSize a = .ok (accepted, a') ∧ Tiled blockSize a' ∧
      (DirOp.remove dir).Effect blockSize a accepted a' := by
  obtain ⟨hdir, hlive⟩ := hvalid
  have hrow := row_entries blockSize a
  obtain ⟨before, d, rest, hblock, hoff⟩ := exists_of_visits hrow htiled (Nat.zero_add _) hdir
  rw [Nat.zero_add] at hoff
  subst hoff
  have htiles : Tiles blockSize (before ++ d :: rest) := hblock ▸ htiled
  rw [hblock] at hrow
  obtain ⟨a', ha', hrow'⟩ := removeEntry_row hrow htiles hsize
  obtain ⟨htiled', htriples⟩ := tiled_of_row hrow' (htiles.remove hsize)
  refine ⟨true, a', by rw [exec, ha', ok_bind], htiled', ?_⟩
  have hentry := (row_append.1 hrow).2.1
  rw [Nat.zero_add] at hentry
  have hlive' : d.inode ≠ 0 := hentry.inode ▸ hlive
  obtain ⟨hlen, htype, hname⟩ := hentry.body hlive'
  have hino : (entryAt a (span before)).inode = d.inode := hentry.inode
  have htype' : (entryAt a (span before)).type = d.type := htype
  have hname' : (entryAt a (span before)).name = d.name := by
    rw [← hname, ← hlen]
    rfl
  rw [Effect, htriples, hblock, hino, htype', hname']
  exact triples_remove hlive'

theorem DirOp.exec_effect (hvalid : op.Valid blockSize a) :
    ∃ accepted a', op.exec blockSize a = .ok (accepted, a') ∧ Tiled blockSize a' ∧
      op.Effect blockSize a accepted a' := by
  cases op with
  | insert ino name type => exact exec_insert hsize htiled hvalid
  | remove dir => exact exec_remove hsize htiled hvalid

theorem DirRun.tiled (hrun : DirRun blockSize a a') : Tiled blockSize a' := by
  induction hrun with
  | refl => exact htiled
  | step _ hvalid hexec ih =>
    obtain ⟨accepted, a', ha', htiled', _⟩ := DirOp.exec_effect hsize ih hvalid
    cases hexec.symm.trans ha'
    exact htiled'

end

/-- Whatever was inserted and removed, the entries tile the block, and the next insertion or removal
changes what is live by its entry, or is refused and changes nothing. -/
theorem dirRun_keeps_tiling (hsize : blockSize ≤ 4096) (htiled : Tiled blockSize a)
    (hrun : DirRun blockSize a a') : Tiled blockSize a' ∧ ∀ op : DirOp, op.Valid blockSize a' →
      ∃ accepted a'', op.exec blockSize a' = .ok (accepted, a'') ∧ Tiled blockSize a'' ∧
        op.Effect blockSize a' accepted a'' := by
  have hsize' : blockSize < 2 ^ 16 := by omega
  have htiled' := hrun.tiled hsize' htiled
  exact ⟨htiled', fun op hvalid => DirOp.exec_effect hsize' htiled' hvalid⟩

def smallBlock : Except Fault (Area × Area × Area × Area × Area) := do
  let a0 ← newBlock 32 (fun _ => 0)
  let (first, a1) ← (DirOp.insert 2 [0x61] 1).exec 32 a0
  let (second, a2) ← (DirOp.insert 3 [0x62] 1).exec 32 a1
  let (third, a3) ← (DirOp.insert 4 [0x63] 1).exec 32 a2
  let (gone, a4) ← (DirOp.remove 0).exec 32 a3
  assertk (first ∧ second ∧ ¬ third ∧ gone ∧ load a3 0 4 ≠ 0)
  .ok (a0, a1, a2, a3, a4)

/-- A block of 32 bytes takes two short names and refuses the third; then the first one is removed. -/
theorem dirRun_keeps_tiling_small : ∃ a0 a1 a2 a3, newBlock 32 (fun _ => 0) = .ok a0 ∧
    (DirOp.insert 2 [0x61] 1).exec 32 a0 = .ok (true, a1) ∧
    (DirOp.insert 3 [0x62] 1).exec 32 a1 = .ok (true, a2) ∧
    (DirOp.insert 3 [0x62] 1).Effect 32 a1 true a2 ∧
    (DirOp.insert 4 [0x63] 1).exec 32 a2 = .ok (false, a2) ∧
    (DirOp.remove 0).exec 32 a2 = .ok (true, a3) ∧ (DirOp.remove 0).Effect 32 a2 true a3 ∧ Tiled 32 a3 := by
  obtain ⟨⟨a0, a1, a2, a3, a4⟩, hok⟩ := exists_ok (x := smallBlock) (by decide +kernel)
  obtain ⟨_, ha0, hok⟩ := bind_eq_ok hok
  simp only [bind_ok_iff, Prod.exists] at hok
  obtain ⟨first, _, hfirst, second, _, hsecond, third, _, hthird, gone, _, hgone, _, hassert, hok⟩ := hok
  cases hok
  obtain ⟨rfl, rfl, hfull, rfl, hlive⟩ := of_assertk hassert
  rw [Bool.not_eq_true] at hfull
  subst hfull
  obtain ⟨_, ha0', htiled, _⟩ :=
    newBlock_tiled (a := fun _ => 0) (show 4 ∣ 32 by decide) (by decide) (by decide)
  cases ha0.symm.trans ha0'
  have heffect : ∀ {b c} {op : DirOp} {accepted}, DirRun 32 a0 b → op.Valid 32 b →
      op.exec 32 b = .ok (accepted, c) → Tiled 32 c ∧ op.Effect 32 b accepted c := by
    intro b c op accepted hrun hvalid hexec
    obtain ⟨_, _, hexec', htiled', heffect⟩ := (dirRun_keeps_tiling (by decide) htiled hrun).2 op hvalid
    cases hexec.symm.trans hexec'
    exact ⟨htiled', heffect⟩
  have hvalid : ∀ b ino c, ino ≠ 0 → ino < 2 ^ 32 → (DirOp.insert ino [c] 1).Valid 32 b :=
    fun _ _ _ hne hlt => ⟨hne, hlt, (by decide : 1 < fileNameLen), by decide⟩
  have hrun1 := DirRun.refl.step (hvalid _ 2 _ (by decide) (by decide)) hfirst
  have hrun2 := hrun1.step (hvalid _ 3 _ (by decide) (by decide)) hsecond
  have hadded := (heffect hrun1 (hvalid _ 3 _ (by decide) (by decide)) hsecond).2
  obtain ⟨_, hrefused⟩ := heffect hrun2 (hvalid _ 4 _ (by decide) (by decide)) hthird
  obtain rfl : a3 = a2 := hrefused.2.2 rfl
  have hgone' : (DirOp.remove 0).Valid 32 a3 := ⟨.start (by decide), hlive⟩
  obtain ⟨htiled4, hremoved⟩ := heffect hrun2 hgone' hgone
  exact ⟨a0, a1, a3, a4, ha0, hfirst, hsecond, hadded, hthird, hgone, hremoved, htiled4⟩

end DirBytes

end QuarkOS
