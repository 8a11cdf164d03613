import Mathlib.Data.List.Perm.Basic
import QuarkOS.Base.Prelude
import QuarkOS.Lib.Bytes

/-!
# Directory blocks

A block of a directory is a row of entries, each with the space up to the next one. `dir.c` puts an entry
into the space behind another one or into an empty one, and gives the space of a removed entry to the
empty ones after it. What a block says is the names, numbers and types in its `triples`; creating and
removing change these by one entry. The entries go on to tile the block.
-/

namespace QuarkOS

open Bytes

abbrev Name := List Byte

/-- An entry with its name; an entry of number 0 is empty, and its name is not read. -/
structure Ext2Dir where
  inode : Nat
  entrySize : Nat
  type : Nat
  name : Name
deriving DecidableEq, Repr

def fileNameLen : Nat := 128

def align4 (size : Nat) : Nat := (size + 3) / 4 * 4

def sizeofExt2Dir : Nat := 8

def Ext2Dir.dirLen (dir : Ext2Dir) : Nat := align4 (sizeofExt2Dir + dir.name.length)

def emptyEntry (size : Nat) : Ext2Dir := { inode := 0, entrySize := size, type := 0, name := [] }

/-- The end of `new_dir_entry`: an entry is written into `size` bytes, and what is left becomes an empty
one if it can hold a name. The second component is the entry that the source returns. -/
def placeEntry (before : List Ext2Dir) (size ino : Nat) (name : Name) (type : Nat) :
    Option (List Ext2Dir × Ext2Dir) :=
  let entrySize := align4 (name.length + sizeofExt2Dir)
  if entrySize > size then none
  else
    let remain := size - entrySize
    if remain > align4 (sizeofExt2Dir + 1) then
      some (before ++ [⟨ino, entrySize, type, name⟩], emptyEntry remain)
    else some (before, ⟨ino, size, type, name⟩)

/-- What takes the place of `dir`; `none` when it has no space. An entry that is shorter than its name
overlaps the next one. -/
def newDirEntry (dir : Ext2Dir) (ino : Nat) (name : Name) (type : Nat) :
    Except Fault (Option (List Ext2Dir × Ext2Dir)) := do
  assertk (name.length < fileNameLen)
  let entrySize := align4 (name.length + sizeofExt2Dir)
  let dirLen := align4 dir.dirLen
  if dir.inode ≠ 0 then
    if dir.entrySize < dirLen then .error .undefined
    else if dir.entrySize - dirLen < entrySize then .ok none
    else .ok (placeEntry [{ dir with entrySize := dirLen }] (dir.entrySize - dirLen) ino name type)
  else .ok (placeEntry [] dir.entrySize ino name type)

/-- The entries from `dir` on, after the empty ones behind an empty `dir` were added to it. -/
def mergeDirEntry : List Ext2Dir → List Ext2Dir
  | [] => []
  | dir :: rest =>
    if dir.inode ≠ 0 then dir :: rest
    else
      let size := ((dir :: rest).takeWhile fun hdr => hdr.inode = 0).map Ext2Dir.entrySize
      { dir with entrySize := size.sum % 2 ^ 16 } :: rest.dropWhile fun hdr => hdr.inode = 0

/-- The loop of `create_dir_entry` over a block; `none` when no entry has space. -/
def createInBlock (ino : Nat) (name : Name) (type : Nat) :
    List Ext2Dir → Except Fault (Option (List Ext2Dir))
  | [] => .ok none
  | dir :: rest => do
    match ← newDirEntry dir ino name type with
    | some (before, new) => .ok (some (before ++ mergeDirEntry (new :: rest)))
    | none => do
      match ← createInBlock ino name type rest with
      | some rest => .ok (some (dir :: rest))
      | none => .ok none

/-- Behind what the entry takes itself there is space for another one. -/
def Ext2Dir.HasRoom (dir : Ext2Dir) (name : Name) : Prop :=
  (if dir.inode ≠ 0 then dir.dirLen else 0) + align4 (sizeofExt2Dir + name.length) ≤ dir.entrySize

/-- The entry that `find_entry_disk` and `remove_from_parent` stop at. -/
def Ext2Dir.Matches (name : Name) (dir : Ext2Dir) : Prop := dir.inode ≠ 0 ∧ dir.name = name

instance (name : Name) (dir : Ext2Dir) : Decidable (dir.Matches name) :=
  inferInstanceAs (Decidable (_ ∧ _))

/-- The loop of `remove_from_parent` over a block. -/
def removeInBlock (name : Name) : List Ext2Dir → Option (List Ext2Dir)
  | [] => none
  | dir :: rest =>
    if dir.Matches name then some (mergeDirEntry ({ dir with inode := 0 } :: rest))
    else (removeInBlock name rest).map (dir :: ·)

/-- The names of a block with the numbers they stand for and their types. -/
def triples (block : List Ext2Dir) : List (Name × Nat × Nat) :=
  (block.filter fun dir => dir.inode ≠ 0).map fun dir => (dir.name, dir.inode, dir.type)

variable {dir new : Ext2Dir} {block block' rest before : List Ext2Dir} {ino size type : Nat}
  {name : Name}

@[simp] theorem triples_nil : triples [] = [] := rfl

theorem triples_append : triples (block ++ rest) = triples block ++ triples rest := by
  rw [triples, List.filter_append, List.map_append]
  rfl

theorem triples_cons (dir : Ext2Dir) (rest : List Ext2Dir) :
    triples (dir :: rest) = triples [dir] ++ triples rest := by
  rw [← triples_append]
  rfl

theorem triples_cons_of_ne {d : Ext2Dir} (h : d.inode ≠ 0) :
    triples (d :: rest) = (d.name, d.inode, d.type) :: triples rest := by
  rw [triples, List.filter_cons, if_pos (decide_eq_true h)]
  rfl

theorem triples_cons_of_eq (h : dir.inode = 0) : triples (dir :: rest) = triples rest := by
  rw [triples, List.filter_cons, if_neg fun hdec => absurd h (of_decide_eq_true hdec)]
  rfl

theorem triples_dropWhile (rest : List Ext2Dir) :
    triples (rest.dropWhile fun hdr => hdr.inode = 0) = triples rest := by
  induction rest with
  | nil => rfl
  | cons hdr rest ih =>
    rw [List.dropWhile_cons]
    split
    · rename_i hhdr
      rw [triples_cons_of_eq (of_decide_eq_true hhdr), ih]
    · rfl

theorem triples_mergeDirEntry : triples (mergeDirEntry block) = triples block := by
  cases block with
  | nil => rfl
  | cons dir rest =>
    rw [mergeDirEntry]
    split
    · rfl
    · rename_i hzero
      have hzero' : dir.inode = 0 := Classical.not_not.1 hzero
      rw [triples_cons_of_eq hzero', ← triples_dropWhile rest]
      exact triples_cons_of_eq hzero'

/-- What a new entry adds; one of the number 0 is not live. -/
def added (name : Name) (ino type : Nat) : List (Name × Nat × Nat) :=
  if ino = 0 then [] else [(name, ino, type)]

theorem triples_singleton (dir : Ext2Dir) : triples [dir] = added dir.name dir.inode dir.type := by
  rw [added]
  split
  · rename_i hzero
    exact triples_cons_of_eq hzero
  · rename_i hne
    exact triples_cons_of_ne hne

theorem triples_placeEntry (h : placeEntry before size ino name type = some (rest, new)) :
    triples (rest ++ [new]) = triples before ++ added name ino type := by
  rw [placeEntry] at h
  split at h
  · cases h
  · dsimp only at h
    split at h
    · cases h
      rw [triples_append, triples_append, triples_singleton, triples_cons_of_eq rfl, triples_nil,
        List.append_nil]
    · cases h
      rw [triples_append, triples_singleton]

theorem triples_newDirEntry (h : newDirEntry dir ino name type = .ok (some (before, new))) :
    triples (before ++ [new]) = triples [dir] ++ added name ino type := by
  obtain ⟨_, _, h⟩ := bind_eq_ok h
  dsimp only at h
  split at h
  · rename_i hne
    split at h
    · cases h
    · split at h
      · cases h
      · rw [triples_placeEntry (Except.ok.inj h)]
        rw [triples_cons_of_ne (d := { dir with entrySize := align4 dir.dirLen }) hne,
          triples_cons_of_ne hne]
  · rename_i hzero
    rw [triples_placeEntry (Except.ok.inj h), triples_cons_of_eq (Classical.not_not.1 hzero)]

theorem triples_remove (hlive : dir.inode ≠ 0) : (triples (before ++ dir :: rest)).Perm
    ((dir.name, dir.inode, dir.type) ::
      triples (before ++ mergeDirEntry ({ dir with inode := 0 } :: rest))) := by
  rw [triples_append, triples_cons_of_ne hlive, triples_append, triples_mergeDirEntry,
    triples_cons_of_eq rfl]
  exact List.perm_middle

/-- The size of an entry has room for its header and, if it is live, for its name. -/
structure Ext2Dir.Fits (dir : Ext2Dir) : Prop where
  dvd : 4 ∣ dir.entrySize
  header : sizeofExt2Dir ≤ dir.entrySize
  name : dir.inode ≠ 0 → sizeofExt2Dir + dir.name.length ≤ dir.entrySize

def span (block : List Ext2Dir) : Nat := (block.map Ext2Dir.entrySize).sum

@[simp] theorem span_nil : span [] = 0 := rfl

@[simp] theorem span_cons (dir : Ext2Dir) (rest : List Ext2Dir) :
    span (dir :: rest) = dir.entrySize + span rest := by
  rw [span, List.map_cons, List.sum_cons]
  rfl

@[simp] theorem span_append (block rest : List Ext2Dir) :
    span (block ++ rest) = span block + span rest := by
  rw [span, List.map_append, List.sum_append]
  rfl

theorem dvd_align4 (size : Nat) : 4 ∣ align4 size := Nat.dvd_mul_left ..

theorem le_align4 (size : Nat) : size ≤ align4 size := by
  unfold align4
  omega

theorem align4_le {size n : Nat} (hdvd : 4 ∣ n) (hle : size ≤ n) : align4 size ≤ n := by
  unfold align4
  omega

theorem align4_align4 (size : Nat) : align4 (align4 size) = align4 size := by
  unfold align4
  omega

theorem placeEntry_fits (h : placeEntry before size ino name type = some (rest, new)) (hdvd : 4 ∣ size)
    (hbefore : ∀ d ∈ before, d.Fits) :
    (∀ d ∈ rest ++ [new], d.Fits) ∧ span (rest ++ [new]) = span before + size := by
  have hneed := le_align4 (name.length + sizeofExt2Dir)
  have hneed' := dvd_align4 (name.length + sizeofExt2Dir)
  have hmin : align4 (sizeofExt2Dir + 1) = 12 := rfl
  rw [placeEntry] at h
  split at h
  · cases h
  · rename_i hle
    dsimp only at h
    rw [hmin] at h
    generalize align4 (name.length + sizeofExt2Dir) = need at *
    split at h
    · rename_i hremain
      cases h
      refine ⟨fun d hd => ?_, ?_⟩
      · rcases List.mem_append.1 hd with hd | hd
        · rcases List.mem_append.1 hd with hd | hd
          · exact hbefore d hd
          · obtain rfl := List.mem_singleton.1 hd
            exact ⟨hneed', by dsimp only; omega, fun _ => by dsimp only; omega⟩
        · obtain rfl := List.mem_singleton.1 hd
          refine ⟨Nat.dvd_sub hdvd hneed', ?_, fun hne => absurd rfl hne⟩
          change 8 ≤ size - need
          omega
      · rw [span_append, span_append, span_cons, span_cons, span_nil]
        change span before + need + (size - need) = _
        omega
    · cases h
      refine ⟨fun d hd => ?_, by rw [span_append, span_cons, span_nil]; rfl⟩
      rcases List.mem_append.1 hd with hd | hd
      · exact hbefore d hd
      · obtain rfl := List.mem_singleton.1 hd
        exact ⟨hdvd, by dsimp only; omega, fun _ => by dsimp only; omega⟩

theorem Ext2Dir.Fits.cut (h : dir.Fits) (hlive : dir.inode ≠ 0) :
    align4 dir.dirLen ≤ dir.entrySize ∧ Ext2Dir.Fits { dir with entrySize := align4 dir.dirLen } := by
  have hname := h.name hlive
  rw [dirLen, align4_align4]
  refine ⟨align4_le h.dvd hname, dvd_align4 _, ?_, fun _ => le_align4 _⟩
  exact (Nat.le_add_right _ _).trans (le_align4 _)

theorem newDirEntry_fits (h : newDirEntry dir ino name type = .ok (some (before, new))) (hdir : dir.Fits) :
    (∀ d ∈ before ++ [new], d.Fits) ∧ span (before ++ [new]) = dir.entrySize := by
  obtain ⟨_, _, h⟩ := bind_eq_ok h
  dsimp only at h
  split at h
  · rename_i hlive
    obtain ⟨hle, hcut⟩ := hdir.cut hlive
    rw [if_neg (Nat.not_lt.2 hle)] at h
    split at h
    · cases h
    · obtain ⟨hfits, hspan⟩ := placeEntry_fits (Except.ok.inj h) (Nat.dvd_sub hdir.dvd hcut.dvd)
        fun d hd => List.mem_singleton.1 hd ▸ hcut
      refine ⟨hfits, hspan.trans ?_⟩
      rw [span_cons, span_nil]
      change align4 dir.dirLen + 0 + (dir.entrySize - align4 dir.dirLen) = _
      omega
  · obtain ⟨hfits, hspan⟩ := placeEntry_fits (Except.ok.inj h) hdir.dvd nofun
    exact ⟨hfits, hspan.trans (Nat.zero_add _)⟩

theorem span_takeWhile_dropWhile (p : Ext2Dir → Bool) (block : List Ext2Dir) :
    span (block.takeWhile p) + span (block.dropWhile p) = span block := by
  rw [← span_append, List.takeWhile_append_dropWhile]

theorem dvd_span (hfits : ∀ d ∈ block, d.Fits) : 4 ∣ span block := by
  induction block with
  | nil => exact Nat.dvd_zero 4
  | cons dir rest ih =>
    rw [span_cons]
    refine Nat.dvd_add (hfits dir List.mem_cons_self).dvd (ih fun d hd => ?_)
    exact hfits d (List.mem_cons_of_mem dir hd)

theorem mergeDirEntry_fits (hfits : ∀ d ∈ block, d.Fits) (hspan : span block < 2 ^ 16) :
    (∀ d ∈ mergeDirEntry block, d.Fits) ∧ span (mergeDirEntry block) = span block := by
  cases block with
  | nil => exact ⟨hfits, rfl⟩
  | cons dir rest =>
    rw [mergeDirEntry]
    split
    · exact ⟨hfits, rfl⟩
    · rename_i hzero
      have hzero' : dir.inode = 0 := Classical.not_not.1 hzero
      have hsplit := span_takeWhile_dropWhile (fun hdr => hdr.inode = 0) rest
      have htake : (dir :: rest).takeWhile (fun hdr => decide (hdr.inode = 0)) =
          dir :: rest.takeWhile fun hdr => hdr.inode = 0 := by
        rw [List.takeWhile_cons, if_pos (decide_eq_true hzero')]
      have hsum :
          (((dir :: rest).takeWhile fun hdr => decide (hdr.inode = 0)).map Ext2Dir.entrySize).sum =
            dir.entrySize + span (rest.takeWhile fun hdr => hdr.inode = 0) := by
        rw [htake]
        exact span_cons dir _
      rw [span_cons] at hspan
      dsimp only
      rw [hsum, Nat.mod_eq_of_lt (by omega)]
      refine ⟨fun d hd => ?_, ?_⟩
      · rcases List.mem_cons.1 hd with rfl | hd
        · refine ⟨?_, ?_, fun hne => absurd hzero' hne⟩
          · refine Nat.dvd_add (hfits dir List.mem_cons_self).dvd (dvd_span fun d hd => hfits d ?_)
            exact List.mem_cons_of_mem dir ((List.takeWhile_sublist _).subset hd)
          · have := (hfits dir List.mem_cons_self).header
            dsimp only
            omega
        · exact hfits d (List.mem_cons_of_mem dir ((List.dropWhile_sublist _).subset hd))
      · rw [span_cons, span_cons]
        dsimp only
        omega

structure Tiles (size : Nat) (block : List Ext2Dir) : Prop where
  fits : ∀ d ∈ block, d.Fits
  span : span block = size

theorem Tiles.cons_iff : Tiles size (dir :: rest) ↔
    dir.Fits ∧ dir.entrySize ≤ size ∧ Tiles (size - dir.entrySize) rest := by
  constructor
  · rintro ⟨hfits, hspan⟩
    rw [span_cons] at hspan
    exact ⟨hfits dir List.mem_cons_self, by omega,
      fun d hd => hfits d (List.mem_cons_of_mem dir hd), by omega⟩
  · rintro ⟨hdir, hle, hfits, hspan⟩
    refine ⟨fun d hd => ?_, by rw [span_cons]; omega⟩
    rcases List.mem_cons.1 hd with rfl | hd
    · exact hdir
    · exact hfits d hd

theorem Tiles.append_iff : Tiles size (before ++ rest) ↔
    (∀ d ∈ before, d.Fits) ∧ QuarkOS.span before ≤ size ∧ Tiles (size - QuarkOS.span before) rest := by
  constructor
  · rintro ⟨hfits, hspan⟩
    rw [span_append] at hspan
    exact ⟨fun d hd => hfits d (List.mem_append_left rest hd), by omega,
      fun d hd => hfits d (List.mem_append_right before hd), by omega⟩
  · rintro ⟨hbefore, hle, hfits, hspan⟩
    refine ⟨fun d hd => ?_, by rw [span_append]; omega⟩
    rcases List.mem_append.1 hd with hd | hd
    · exact hbefore d hd
    · exact hfits d hd

theorem Tiles.mergeDirEntry (h : Tiles size block) (hsize : size < 2 ^ 16) :
    Tiles size (mergeDirEntry block) := by
  obtain ⟨hfits, hspan⟩ := mergeDirEntry_fits h.fits (by rw [h.span]; exact hsize)
  exact ⟨hfits, hspan.trans h.span⟩

theorem newDirEntry_ok (ino type : Nat) (hdir : dir.Fits) (hname : name.length < fileNameLen) :
    ∃ r, newDirEntry dir ino name type = .ok r := by
  rw [newDirEntry, assertk_pos hname]
  dsimp only
  split
  · rename_i hlive
    rw [if_neg (Nat.not_lt.2 (hdir.cut hlive).1)]
    split
    · exact ⟨_, rfl⟩
    · exact ⟨_, rfl⟩
  · exact ⟨_, rfl⟩

theorem placeEntry_eq_none : placeEntry before size ino name type = none ↔
    size < align4 (sizeofExt2Dir + name.length) := by
  rw [placeEntry, Nat.add_comm name.length]
  dsimp only
  split
  · rename_i hlt
    exact iff_of_true rfl hlt
  · rename_i hge
    refine iff_of_false ?_ hge
    split <;> exact Option.some_ne_none _

theorem newDirEntry_eq_none (hdir : dir.Fits) (hname : name.length < fileNameLen) :
    newDirEntry dir ino name type = .ok none ↔ ¬ dir.HasRoom name := by
  have hlen : align4 dir.dirLen = dir.dirLen := align4_align4 _
  rw [newDirEntry, assertk_pos hname, Ext2Dir.HasRoom]
  dsimp only
  split
  · rename_i hlive
    obtain ⟨hle, _⟩ := hdir.cut hlive
    rw [if_neg (Nat.not_lt.2 hle), Nat.add_comm name.length]
    rw [hlen] at hle ⊢
    split
    · exact iff_of_true rfl (by omega)
    · rw [Except.ok.injEq, placeEntry_eq_none]
      omega
  · rw [Except.ok.injEq, placeEntry_eq_none, Nat.zero_add, Nat.not_le]

/-- The new entry stands behind the first one that has room for it. -/
def PlacedFirst (name : Name) (ino type : Nat) (block block' : List Ext2Dir) : Prop :=
  ∃ before dir rest, block = before ++ dir :: rest ∧ (∀ d ∈ before, ¬ d.HasRoom name) ∧ dir.HasRoom name ∧
    triples block' = triples (before ++ [dir]) ++ (added name ino type ++ triples rest)

section

variable (h : PlacedFirst name ino type block block')
include h

theorem PlacedFirst.perm :
    (triples block').Perm (added name ino type ++ triples block) := by
  obtain ⟨before, dir, rest, rfl, _, _, heq⟩ := h
  have hblock : triples (before ++ dir :: rest) = triples (before ++ [dir]) ++ triples rest := by
    rw [← triples_append, List.append_assoc, List.singleton_append]
  rw [heq, hblock, ← List.append_assoc, ← List.append_assoc]
  exact List.perm_append_comm.append_right _

theorem PlacedFirst.exists_hasRoom :
    ∃ d ∈ block, d.HasRoom name := by
  obtain ⟨before, dir, rest, rfl, _, hroom, _⟩ := h
  exact ⟨dir, List.mem_append_right before List.mem_cons_self, hroom⟩

theorem PlacedFirst.cons (hdir : ¬ dir.HasRoom name) :
    PlacedFirst name ino type (dir :: block) (dir :: block') := by
  obtain ⟨before, d, rest, rfl, hbefore, hroom, heq⟩ := h
  refine ⟨dir :: before, d, rest, rfl, List.forall_mem_cons.2 ⟨hdir, hbefore⟩, hroom, ?_⟩
  rw [triples_cons dir block', heq, List.cons_append, triples_cons dir (before ++ [d]), List.append_assoc]

end

theorem Tiles.createInBlock (ino type : Nat) (h : Tiles size block) (hsize : size < 2 ^ 16)
    (hname : name.length < fileNameLen) : ∃ r, createInBlock ino name type block = .ok r ∧
      (r = none → ∀ d ∈ block, ¬ d.HasRoom name) ∧
      ∀ block', r = some block' → Tiles size block' ∧ PlacedFirst name ino type block block' := by
  induction block generalizing size with
  | nil => exact ⟨none, rfl, fun _ _ hd => absurd hd List.not_mem_nil, nofun⟩
  | cons dir rest ih =>
    obtain ⟨hdir, hle, hrest⟩ := Tiles.cons_iff.1 h
    obtain ⟨placed, hplaced⟩ := newDirEntry_ok ino type hdir hname
    have hroom : placed = none ↔ ¬ dir.HasRoom name := by
      rw [← newDirEntry_eq_none hdir hname, hplaced, Except.ok.injEq]
    rw [QuarkOS.createInBlock, hplaced, ok_bind]
    cases placed with
    | some p =>
      obtain ⟨before, new⟩ := p
      refine ⟨_, rfl, nofun, fun block' hblock => ?_⟩
      cases hblock
      constructor
      · obtain ⟨hfits, hspan⟩ := newDirEntry_fits hplaced hdir
        rw [span_append, span_cons, span_nil] at hspan
        refine Tiles.append_iff.2 ⟨fun d hd => hfits d (List.mem_append_left _ hd), by omega, ?_⟩
        have hnew := hfits new (List.mem_append_right _ (List.mem_singleton_self new))
        refine (Tiles.cons_iff.2 ⟨hnew, by omega, ?_⟩).mergeDirEntry (by omega)
        have hsub : size - QuarkOS.span before - new.entrySize = size - dir.entrySize := by omega
        rwa [hsub]
      · have hnew := triples_newDirEntry hplaced
        rw [triples_append] at hnew
        have hroom' : dir.HasRoom name := Classical.not_not.1 (mt hroom.2 (Option.some_ne_none _))
        refine ⟨[], dir, rest, rfl, nofun, hroom', ?_⟩
        rw [triples_append, triples_mergeDirEntry, triples_cons new rest, ← List.append_assoc, hnew,
          List.append_assoc]
        rfl
    | none =>
      have hfull := hroom.1 rfl
      obtain ⟨r, hr, hnone, hsome⟩ := ih hrest (by omega)
      dsimp only
      rw [hr, ok_bind]
      cases r with
      | none => exact ⟨none, rfl, fun _ => List.forall_mem_cons.2 ⟨hfull, hnone rfl⟩, nofun⟩
      | some rest' =>
        refine ⟨_, rfl, nofun, fun block' hblock => ?_⟩
        cases hblock
        obtain ⟨htiles, hfirst⟩ := hsome rest' rfl
        exact ⟨Tiles.cons_iff.2 ⟨hdir, hle, htiles⟩, hfirst.cons hfull⟩

theorem Tiles.remove (h : Tiles size (before ++ dir :: rest)) (hsize : size < 2 ^ 16) :
    Tiles size (before ++ QuarkOS.mergeDirEntry ({ dir with inode := 0 } :: rest)) := by
  obtain ⟨hbefore, hle, htail⟩ := Tiles.append_iff.1 h
  obtain ⟨hdir, hle', hrest⟩ := Tiles.cons_iff.1 htail
  refine Tiles.append_iff.2 ⟨hbefore, hle, Tiles.mergeDirEntry ?_ (by omega)⟩
  exact Tiles.cons_iff.2 ⟨⟨hdir.dvd, hdir.header, fun hne => absurd rfl hne⟩, hle', hrest⟩

end QuarkOS
