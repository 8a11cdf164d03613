import QuarkOS.Fs.Mount

/-!
# The name of a directory entry in memory

`dir_name_set`, `dir_name_dump` and `dir_name_cmp` of `vfs.c`. A `directory_t` has room for 40 bytes of
its name, and what is longer goes to memory of its own. The three functions split a name alike, but the
last two test for the second part after they have cut the length to 40: they never look at it.

`Mount.lean` has the name of an entry as a list of bytes; `Holds` says what the two parts have to do with
it.
-/

namespace QuarkOS

open Bytes Function

/-- The fields `l_name`, `h_name` and `nameLen` of `directory_t`. -/
structure DirName where
  lName : Area
  hName : Option Area
  nameLen : Nat

namespace DirName

/-- `dir_name_set`; `heap` is what the memory for the second part holds when it is allocated. -/
def dirNameSet (dir : DirName) (heap : Area) (name : Name) : Except Fault DirName := do
  let len := name.length
  assertk (len ≤ fileNameLen)
  let cpy := min len fileDnameLen
  .ok
    { lName := copy dir.lName 0 (name.take cpy)
      hName := if len > fileDnameLen then some (copy heap 0 (name.drop cpy)) else none
      nameLen := len % 2 ^ 8 }

/-- `dir_name_dump`: the `nameLen + 1` bytes of the string it returns. -/
def dirNameDump (dir : DirName) (heap : Area) : Except Fault (List Byte) := do
  let cpy := min dir.nameLen fileDnameLen
  let name := copy heap 0 (slice dir.lName 0 cpy)
  let name ←
    if cpy > fileDnameLen then
      match dir.hName with
      | none => .error .undefined
      | some hName => .ok (copy name (dir.nameLen - cpy) (slice hName 0 (dir.nameLen - cpy)))
    else .ok name
  .ok (slice (update name dir.nameLen 0) 0 (dir.nameLen + 1))

/-- `dir_name_cmp` with a name that is not shorter than the one of the entry. -/
def dirNameCmp (dir : DirName) (name : Name) : Except Fault Bool := do
  let len := min fileDnameLen dir.nameLen
  if slice dir.lName 0 len ≠ name.take len then .ok false
  else if len > fileDnameLen then
    match dir.hName with
    | none => .error .assertk
    | some hName => .ok (slice hName 0 (dir.nameLen - len) = (name.drop len).take (dir.nameLen - len))
  else .ok true

/-- The two parts are those of a name. -/
structure Holds (dir : DirName) (name : Name) : Prop where
  nameLen : dir.nameLen = name.length
  lName : slice dir.lName 0 (min name.length fileDnameLen) = name.take fileDnameLen

variable {dir : DirName} {heap : Area} {name s : Name}

theorem length_take_min (name : Name) (n : Nat) :
    (name.take (min name.length n)).length = min name.length n := by
  rw [List.length_take]
  omega

theorem take_min_length (name : Name) (n : Nat) : name.take (min name.length n) = name.take n := by
  rw [← List.take_take]
  exact List.take_of_length_le (List.length_take_le' n name)

theorem dirNameSet_holds (hlen : name.length ≤ fileNameLen) :
    ∃ dir', dir.dirNameSet heap name = .ok dir' ∧ dir'.Holds name := by
  rw [dirNameSet, decide_eq_true hlen]
  refine ⟨_, rfl, ?_, ?_⟩
  · have hbound : name.length ≤ 128 := hlen
    exact Nat.mod_eq_of_lt (by omega)
  · have hslice := slice_copy dir.lName 0 (name.take (min name.length fileDnameLen))
    rw [length_take_min] at hslice
    exact hslice.trans (take_min_length name fileDnameLen)

theorem Holds.dirNameCmp_eq (h : dir.Holds name) (hlen : s.length = name.length) :
    dir.dirNameCmp s = .ok (name.take fileDnameLen = s.take fileDnameLen : Bool) := by
  have htake : s.take (min fileDnameLen name.length) = s.take fileDnameLen := by
    rw [Nat.min_comm, ← hlen, take_min_length]
  have hmin : ¬ min fileDnameLen name.length > fileDnameLen := by omega
  rw [dirNameCmp, h.nameLen, htake, Nat.min_comm, h.lName]
  split
  · rename_i hne
    rw [decide_eq_false hne]
  · rename_i heq
    rw [Nat.min_comm, if_neg hmin, decide_eq_true (Classical.not_not.1 heq)]

theorem slice_name (heap : Area) (name : Name) :
    slice (copy heap 0 (name.take fileDnameLen)) 0 name.length =
      name.take fileDnameLen ++ slice heap fileDnameLen (name.length - fileDnameLen) := by
  have hcopy := slice_copy heap 0 (name.take fileDnameLen)
  rcases Nat.le_total name.length fileDnameLen with hshort | hlong
  · rw [List.take_of_length_le hshort] at hcopy ⊢
    rw [hcopy, Nat.sub_eq_zero_of_le hshort]
    exact (List.append_nil name).symm
  · rw [List.length_take_of_le hlong] at hcopy
    have hsum : name.length = fileDnameLen + (name.length - fileDnameLen) := by omega
    rw [hsum, slice_add, hcopy, Nat.zero_add, slice_copy_of_disjoint, Nat.add_sub_cancel_left]
    exact .inr (by rw [List.length_take_of_le hlong]; omega)

/-- Of a name of more than 40 bytes, the rest of the returned string is what the memory held before. -/
theorem Holds.dirNameDump_eq (h : dir.Holds name) : dir.dirNameDump heap =
    .ok (name.take fileDnameLen ++ slice heap fileDnameLen (name.length - fileDnameLen) ++ [0]) := by
  have hmin : ¬ min name.length fileDnameLen > fileDnameLen := by omega
  have hnul : slice (update (copy heap 0 (name.take fileDnameLen)) name.length 0) name.length 1 =
      [0] := by
    simp only [slice, List.range_one, List.map_singleton, Nat.add_zero, update_self]
  rw [dirNameDump, h.nameLen, h.lName, if_neg hmin, ok_bind]
  dsimp only
  rw [slice_add, Nat.zero_add, hnul, ← slice_name heap name]
  congr 2
  exact slice_congr fun i _ hi => update_of_ne (by omega) ..

theorem Holds.dirNameDump_short (h : dir.Holds name) (hshort : name.length ≤ fileDnameLen) :
    dir.dirNameDump heap = .ok (name ++ [0]) := by
  rw [h.dirNameDump_eq, Nat.sub_eq_zero_of_le hshort, List.take_of_length_le hshort]
  exact congrArg (fun l => Except.ok (l ++ [0])) (List.append_nil name)

/-- What the three functions are for. -/
structure RoundTrips (dir : DirName) (heap heap' : Area) (name : Name) : Prop where
  stored : ∃ dir', dir.dirNameSet heap name = .ok dir' ∧ dir'.dirNameDump heap' = .ok (name ++ [0]) ∧
    ∀ s : Name, s.length = name.length → 0 ∉ s → (dir'.dirNameCmp s = .ok true ↔ s = name)

theorem exists_sibling (hne : name ≠ []) (hnul : 0 ∉ name) :
    ∃ s : Name, s.length = name.length ∧ 0 ∉ s ∧ s ≠ name ∧ s.dropLast = name.dropLast := by
  have hlast := List.dropLast_append_getLast hne
  have hother : ∃ c : Byte, c ≠ 0 ∧ c ≠ name.getLast hne := by
    by_cases hone : name.getLast hne = 1
    · exact ⟨2, by decide, by rw [hone]; decide⟩
    · exact ⟨1, by decide, fun h => hone h.symm⟩
  obtain ⟨c, hc, hcne⟩ := hother
  refine ⟨name.dropLast ++ [c], ?_, ?_, ?_, List.dropLast_concat⟩
  · rw [List.length_append, List.length_dropLast, List.length_singleton]
    have := List.length_pos_of_ne_nil hne
    omega
  · intro hmem
    rcases List.mem_append.1 hmem with hmem | hmem
    · exact hnul (List.mem_of_mem_dropLast hmem)
    · exact hc (List.mem_singleton.1 hmem).symm
  · intro heq
    exact hcne (List.singleton_inj.1 (List.append_cancel_left (heq.trans hlast.symm)))

theorem take_eq_of_dropLast_eq {n : Nat} (hlen : s.length = name.length) (hlong : n < name.length)
    (h : s.dropLast = name.dropLast) : name.take n = s.take n := by
  have htake : ∀ l : Name, n < l.length → l.take n = l.dropLast.take n := by
    intro l hl
    rw [List.dropLast_eq_take, List.take_take, Nat.min_eq_left (by omega)]
  rw [htake name hlong, htake s (by omega), h]

theorem roundTrips_iff {heap' : Area} (hpos : 1 ≤ name.length) (hlen : name.length ≤ fileNameLen)
    (hnul : 0 ∉ name) : dir.RoundTrips heap heap' name ↔ name.length ≤ fileDnameLen := by
  have hdir : ∃ dir', dir.dirNameSet heap name = .ok dir' ∧ dir'.Holds name := dirNameSet_holds hlen
  obtain ⟨dir', hset, hholds⟩ := hdir
  constructor
  · rintro ⟨dir1, hset1, _, hcmp⟩
    cases hset.symm.trans hset1
    by_contra hlong
    obtain ⟨s, hs, hsnul, hsne, hsame⟩ := exists_sibling (List.ne_nil_of_length_pos hpos) hnul
    have htake := take_eq_of_dropLast_eq hs (Nat.not_le.1 hlong) hsame
    refine hsne ((hcmp s hs hsnul).1 ?_)
    rw [hholds.dirNameCmp_eq hs, decide_eq_true htake]
  · intro hshort
    refine ⟨dir', hset, hholds.dirNameDump_short hshort, fun s hs _ => ?_⟩
    rw [hholds.dirNameCmp_eq hs, List.take_of_length_le hshort, List.take_of_length_le (hs.trans_le hshort)]
    constructor
    · exact fun h => (of_decide_eq_true (Except.ok.inj h)).symm
    · exact fun h => congrArg Except.ok (decide_eq_true h.symm)

def freshName : DirName := { lName := fun _ => 0, hName := none, nameLen := 0 }

theorem roundTrips_iff_short : freshName.RoundTrips (fun _ => 0) (fun _ => 7) [0x61, 0x62] :=
  (roundTrips_iff (by decide) (by decide) (by decide)).2 (by decide)

def longName : Name := List.replicate 41 0x61

/-- The string `s` differs from the name in the last byte, and is taken for it. -/
theorem longName_not_roundTrips : ¬ freshName.RoundTrips (fun _ => 0) (fun _ => 7) longName := by
  rintro ⟨dir', hset, _, hcmp⟩
  have hother : (freshName.dirNameSet (fun _ => 0) longName >>= fun dir =>
      dir.dirNameCmp (List.replicate 40 0x61 ++ [0x62])) = .ok true := by decide
  rw [hset, ok_bind] at hother
  exact absurd ((hcmp _ (by decide) (by decide)).1 hother) (by decide)

end DirName

end QuarkOS
