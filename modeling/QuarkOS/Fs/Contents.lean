import QuarkOS.Fs.Write

/-!
# A file as an array of bytes

`byteOf` is the byte that a file has at an offset. `vfs_read` returns these bytes, and `vfs_write` changes
the ones that it writes. It sets the size to the end of the write, so the array of bytes is what one
expects only when the write ends at or past the end of the file and does not start in a hole.
-/

namespace QuarkOS

open Bytes PageCache Function

variable {sb : Ext2SbInfo} {R : Set Nat} {files : Nat → Option Inode} {s s' : PageCache}
  {inode inode' node node' : Inode} {fd n p : Nat} {buf : List Byte} {v : Nat → Area}

/-- The byte of a file at an offset; a hole has none. -/
def byteOf (v : Nat → Area) (inode : Inode) (p : Nat) : Option Byte :=
  if bidOf v inode (p / blockSize) = 0 then none
  else some (v (ext2Block2Lba (bidOf v inode (p / blockSize))) (p % blockSize))

theorem div_blockSize_lt {p : Nat} (h : p < 2 ^ 32) : p / blockSize < maxBno := by
  unfold blockSize maxBno
  omega

theorem divCeil_eq {x : Nat} (h : x < 2 ^ 32) : divCeil x blockSize = (x + 4095) / 4096 := by
  unfold divCeil blockSize
  rw [Nat.mod_eq_of_lt (by omega)]
  rfl

theorem nextFreeBno_eq (h : inode.size < 2 ^ 32) : nextFreeBno inode = divCeil inode.size blockSize := by
  have := divCeil_eq h
  exact Nat.mod_eq_of_lt (by omega)

theorem ext2Read_ok {offset : Nat} (hoffset : offset < 2 ^ 32) (inode : Inode) (s : PageCache) :
    ∃ s', ext2Read inode offset n s = .ok (
      if offset / blockSize < divCeil inode.size blockSize ∧
          bidOf s.view inode (offset / blockSize) ≠ 0 then
        slice (s.view (ext2Block2Lba (bidOf s.view inode (offset / blockSize)))) (offset % blockSize)
          (min (blockSize - offset % blockSize) n)
      else [], s') ∧ s'.view = s.view := by
  rw [ext2Read]
  dsimp only
  by_cases hlt : offset / blockSize < divCeil inode.size blockSize
  · rw [if_neg (Nat.not_le.2 hlt)]
    obtain ⟨s1, hbid, hs1⟩ := getBid_ok (div_blockSize_lt hoffset) inode s
    rw [hbid, ok_bind]
    dsimp only
    by_cases hzero : bidOf s.view inode (offset / blockSize) = 0
    · rw [if_pos hzero, if_neg fun h => h.2 hzero]
      exact ⟨s1, rfl, hs1.view⟩
    · obtain ⟨s2, hread, hs2, hvalid⟩ :=
        ext2BlockRead_ok s1 (bidOf s.view inode (offset / blockSize))
      rw [if_neg hzero, hread, ok_bind, if_pos ⟨hlt, hzero⟩]
      dsimp only
      rw [hvalid.data_eq, hs2.view, hs1.view]
      exact ⟨s2, rfl, hs2.view.trans hs1.view⟩
  · rw [if_pos (Nat.not_lt.1 hlt), if_neg fun h => hlt h.1]
    exact ⟨s, rfl, rfl⟩

/-- The bytes of a file within one block. -/
theorem byteOf_add {offset i : Nat} (hn : n ≤ blockSize - offset % blockSize) (hi : i < n) :
    byteOf v inode (offset + i) = if bidOf v inode (offset / blockSize) = 0 then none
      else some (v (ext2Block2Lba (bidOf v inode (offset / blockSize))) (offset % blockSize + i)) := by
  have hdiv : (offset + i) / blockSize = offset / blockSize := by
    unfold blockSize at hn ⊢
    omega
  have hmod : (offset + i) % blockSize = offset % blockSize + i := by
    unfold blockSize at hn ⊢
    omega
  rw [byteOf, hdiv, hmod]

theorem getElem?_slice_block {offset i : Nat} (hne : bidOf v inode (offset / blockSize) ≠ 0)
    (hn : n ≤ blockSize - offset % blockSize) :
    (slice (v (ext2Block2Lba (bidOf v inode (offset / blockSize)))) (offset % blockSize) n)[i]? =
      if i < n then byteOf v inode (offset + i) else none := by
  split
  · rename_i hi
    rw [byteOf_add hn hi, if_neg hne, slice, List.getElem?_map, List.getElem?_range hi]
    rfl
  · rename_i hi
    rw [List.getElem?_eq_none]
    rw [length_slice]
    exact Nat.not_lt.1 hi

/-- `ext2_read` returns the byte: its block is one of those that the size stands for and not a hole. -/
def Readable (v : Nat → Area) (node : Inode) (p : Nat) : Prop :=
  p / blockSize < divCeil node.size blockSize ∧ bidOf v node (p / blockSize) ≠ 0

theorem Readable.lt (h : Readable v node p) (hsize : node.size < 2 ^ 32) : p < 2 ^ 32 := by
  have := h.1
  rw [divCeil_eq hsize] at this
  unfold blockSize at this
  omega

/-- What the loop of `vfs_read` returns where the first `m` bytes can be read. -/
structure LoopRead (s : PageCache) (node : Inode) (n m : Nat) (bytes : List Byte) (node' : Inode)
    (s' : PageCache) : Prop where
  view : s'.view = s.view
  seek : ∃ o < 2 ^ 32, node' = { node with offset := o }
  le : m ≤ bytes.length
  stop : m = n ∨ node.offset + m < 2 ^ 32 ∧ ¬ Readable s.view node (node.offset + m) → bytes.length = m
  byte : ∀ i < m, bytes[i]? = byteOf s.view node (node.offset + i)

theorem LoopRead.nil (hoffset : node.offset < 2 ^ 32) : LoopRead s node n 0 [] node s where
  view := rfl
  seek := ⟨node.offset, hoffset, rfl⟩
  le := Nat.zero_le _
  stop := fun _ => rfl
  byte := fun i hi => absurd hi (Nat.not_lt_zero i)

variable {fuel k cnt : Nat}

theorem vfsReadLoop_readable {m : Nat} (hfuel : n ≤ fuel) (hm : m ≤ n) (hsize : node.size < 2 ^ 32)
    (hoffset : node.offset < 2 ^ 32) (hread : ∀ i < m, Readable s.view node (node.offset + i)) :
    ∃ bytes node' s', Fs.vfsReadLoop fuel n node s = .ok (bytes, node', s') ∧
      LoopRead s node n m bytes node' s' := by
  induction fuel generalizing n m node s with
  | zero =>
    obtain rfl : n = 0 := Nat.le_zero.1 hfuel
    obtain rfl : m = 0 := Nat.le_zero.1 hm
    exact ⟨[], node, s, rfl, .nil hoffset⟩
  | succ fuel ih =>
    cases n with
    | zero =>
      obtain rfl : m = 0 := Nat.le_zero.1 hm
      exact ⟨[], node, s, rfl, .nil hoffset⟩
    | succ n =>
      obtain ⟨s1, hround, hs1⟩ := ext2Read_ok (n := n + 1) hoffset node s
      by_cases hfirst : Readable s.view node node.offset
      · rw [if_pos ⟨hfirst.1, hfirst.2⟩] at hround
        -- The first round reads `k` bytes.
        obtain ⟨k, hk⟩ : ∃ k, k = min (blockSize - node.offset % blockSize) (n + 1) := ⟨_, rfl⟩
        have hpos : 0 < k := by
          unfold blockSize at hk
          omega
        have hget := fun i => getElem?_slice_block (n := k) (i := i) hfirst.2 (by omega)
        have hlen := length_slice (s.view (ext2Block2Lba (bidOf s.view node
          (node.offset / blockSize)))) (node.offset % blockSize) k
        rw [← hk] at hround
        generalize slice (s.view (ext2Block2Lba (bidOf s.view node (node.offset / blockSize))))
          (node.offset % blockSize) k = bytes at hround hget hlen
        have hnil : bytes ≠ [] := List.length_pos_iff.1 (hlen ▸ hpos)
        have hblock : ∀ i < k, Readable s.view node (node.offset + i) := by
          intro i hi
          have hdiv : (node.offset + i) / blockSize = node.offset / blockSize := by
            unfold blockSize at hk ⊢
            omega
          rw [Readable, hdiv]
          exact hfirst
        -- The position wraps around only behind the last byte that can be read.
        have hwrap : ∀ i < m - k, (node.offset + k) % 2 ^ 32 + i = node.offset + (k + i) := by
          intro i hi
          have := (hread (k + i) (by omega)).lt hsize
          rw [Nat.mod_eq_of_lt (by omega), Nat.add_assoc]
        obtain ⟨rest, node2, s2, hloop, hrest⟩ := ih (n := n + 1 - k) (m := m - k) (s := s1)
          (by omega) (by omega)
          (show ({ node with offset := (node.offset + k) % 2 ^ 32 } : Inode).size < 2 ^ 32 from hsize)
          (Nat.mod_lt _ (by decide)) (by
            intro i hi
            rw [hs1]
            dsimp only
            rw [hwrap i hi]
            exact hread (k + i) (by omega))
        refine ⟨bytes ++ rest, node2, s2, ?_, hrest.view.trans hs1, hrest.seek, ?_, ?_, ?_⟩
        · rw [Fs.vfsReadLoop, hround, ok_bind]
          dsimp only
          rw [if_neg hnil, hlen, hloop]
          rfl
        · have := hrest.le
          rw [List.length_append, hlen]
          omega
        · intro hstop
          have hkm : k ≤ m := by
            by_contra hlt
            rcases hstop with heq | ⟨_, hnot⟩
            · omega
            · exact hnot (hblock m (by omega))
          rw [List.length_append, hlen, hrest.stop]
          · omega
          · rcases hstop with heq | ⟨hlt, hnot⟩
            · exact Or.inl (by omega)
            · right
              dsimp only
              rw [hs1, Nat.mod_eq_of_lt (by omega),
                show node.offset + k + (m - k) = node.offset + m by omega]
              exact ⟨hlt, hnot⟩
        · intro i hi
          rw [List.getElem?_append, hlen]
          split
          · rename_i hik
            rw [hget, if_pos hik]
          · rename_i hik
            rw [hrest.byte (i - k) (by omega), hs1]
            dsimp only
            rw [hwrap (i - k) (by omega), show k + (i - k) = i by omega]
            rfl
      · obtain rfl : m = 0 := by
          by_contra hne
          exact hfirst (hread 0 (Nat.pos_of_ne_zero hne))
        unfold Readable at hfirst
        rw [if_neg hfirst] at hround
        refine ⟨[], node, s1, ?_, hs1, ⟨_, hoffset, rfl⟩, Nat.le_refl 0, fun _ => rfl, nofun⟩
        rw [Fs.vfsReadLoop, hround]
        rfl

theorem vfsReadLoop_present (hfuel : n ≤ fuel) (hsize : node.size < 2 ^ 32)
    (hoffset : node.offset < 2 ^ 32) (hend : node.offset + n ≤ node.size)
    (hbytes : ∀ i < n, byteOf s.view node (node.offset + i) ≠ none) :
    ∃ bytes node' s', Fs.vfsReadLoop fuel n node s = .ok (bytes, node', s') ∧
      ∀ i, bytes[i]? = if i < n then byteOf s.view node (node.offset + i) else none := by
  obtain ⟨bytes, node', s', hloop, hread⟩ := vfsReadLoop_readable hfuel Nat.le.refl hsize hoffset (by
    intro i hi
    refine ⟨?_, fun hzero => hbytes i hi (if_pos hzero)⟩
    rw [divCeil_eq hsize]
    unfold blockSize
    omega)
  refine ⟨bytes, node', s', hloop, fun i => ?_⟩
  split
  · rename_i hi
    exact hread.byte i hi
  · rename_i hi
    rw [List.getElem?_eq_none]
    rw [hread.stop (Or.inl rfl)]
    exact Nat.not_lt.1 hi

theorem vfsReadLoop_absent (hfuel : 0 < fuel) (hoffset : node.offset < 2 ^ 32)
    (habsent : ¬ (node.offset / blockSize < divCeil node.size blockSize ∧
      bidOf s.view node (node.offset / blockSize) ≠ 0)) :
    ∃ node' s', Fs.vfsReadLoop fuel n node s = .ok ([], node', s') := by
  cases n with
  | zero => exact ⟨node, s, Fs.vfsReadLoop.eq_1 ..⟩
  | succ n =>
    obtain ⟨fuel, rfl⟩ := Nat.exists_eq_succ_of_ne_zero hfuel.ne'
    obtain ⟨s1, hread, _⟩ := ext2Read_ok (n := n + 1) hoffset node s
    rw [if_neg habsent] at hread
    refine ⟨node, s1, ?_⟩
    rw [Fs.vfsReadLoop, hread]
    rfl

theorem vfsReadLoop_one (hoffset : node.offset < 2 ^ 32) : ∃ node' s', Fs.vfsReadLoop 1 1 node s = .ok (
      if node.offset / blockSize < divCeil node.size blockSize then
        (byteOf s.view node node.offset).toList
      else [], node', s') := by
  by_cases hpresent : node.offset / blockSize < divCeil node.size blockSize ∧
      bidOf s.view node (node.offset / blockSize) ≠ 0
  · obtain ⟨s1, hread, hs1⟩ := ext2Read_ok (n := 1) hoffset node s
    have hone : min (blockSize - node.offset % blockSize) 1 = 1 := by
      unfold blockSize
      omega
    rw [if_pos hpresent, hone] at hread
    rw [Fs.vfsReadLoop, hread, ok_bind, if_pos hpresent.1, byteOf, if_neg hpresent.2]
    exact ⟨_, _, rfl⟩
  · obtain ⟨node', s', hloop⟩ := vfsReadLoop_absent (n := 1) Nat.one_pos hoffset hpresent
    refine ⟨node', s', hloop.trans ?_⟩
    split
    · rename_i hlt
      have hzero : bidOf s.view node (node.offset / blockSize) = 0 := by
        by_contra hne
        exact hpresent ⟨hlt, hne⟩
      rw [byteOf, if_pos hzero]
      rfl
    · rfl

/-- What a write of `buf` at the position of the file does to its bytes. The bytes before the position
are those of the blocks that the size stands for. -/
structure Wrote (sb : Ext2SbInfo) (R : Set Nat) (fd : Nat) (files : Nat → Option Inode) (node : Inode)
    (s : PageCache) (buf : List Byte) (node' : Inode) (s' : PageCache) : Prop where
  wf : FsWf sb R (update files fd (some node')) s'.view
  offset : node'.offset = node.offset + buf.length
  size : node'.size = if buf = [] then node.size else node.offset + buf.length
  bytes : ∀ i < buf.length, byteOf s'.view node' (node.offset + i) = buf[i]?
  keep : ∀ p < node.offset, p / blockSize < nextFreeBno node →
    byteOf s'.view node' p = byteOf s.view node p

theorem chunk_pos {o : Nat} (hbuf : buf ≠ []) : 0 < chunk o buf := by
  have := List.length_pos_iff.2 hbuf
  unfold chunk blockSize
  omega

theorem chunk_le (offset : Nat) (buf : List Byte) : chunk offset buf ≤ buf.length :=
  Nat.min_le_right _ _

theorem Fits.of_ok {r : Nat × Inode × PageCache} (hpresent : node.offset / blockSize < nextFreeBno node →
      bidOf s.view node (node.offset / blockSize) ≠ 0)
    (h : Fs.writeRound sb node buf s = .ok r) : Fits s.view node (node.offset / blockSize) := by
  refine ⟨hpresent, fun _ hle => ?_⟩
  obtain ⟨_, h, _⟩ := bind_eq_ok h
  unfold ext2Write at h
  split at h
  · cases h
  · obtain ⟨_, h, _⟩ := bind_eq_ok h
    rw [writePage, if_neg (Nat.not_lt.2 hle)] at h
    obtain ⟨_, h, _⟩ := bind_eq_ok h
    exact (allocBlock_ok_empty h).2

section Stored

variable {offset page : Nat} {inode1 : Inode} {s1 : PageCache}

section

variable (h : Stored sb R fd offset buf files inode s inode' s' page inode1 s1)
include h

theorem Stored.bytes {i : Nat} (hi : i < chunk offset buf) : byteOf s'.view inode' (offset + i) = buf[i]? := by
  have hleaf := h.leaf
  have hle := chunk_le offset buf
  rw [treeNode_leafPlace (update_self ..) h.aimed.lt_maxBno] at hleaf
  have hlt : chunk offset buf ≤ blockSize - offset % blockSize := Nat.min_le_left _ _
  rw [byteOf_add hlt hi, if_neg hleaf.1, ← hleaf.2, h.becomes.view, update_self,
    copy_of_mem (by rw [List.length_take]; omega), List.getElem_take,
    List.getElem?_eq_getElem (by omega)]

theorem Stored.byteOf_eq {f : Nat} {file file' : Inode} (hfile : files f = some file)
    (hfile' : update files fd (some inode') f = some file') (hlt : p / blockSize < maxBno)
    (hne : leafPlace f (p / blockSize) ≠ leafPlace fd (offset / blockSize)) :
    byteOf s'.view file' p = byteOf s.view file p := by
  have hleaf := leafPlace_place (f := f) hlt
  have hold := treeNode_leafPlace (v := s.view) hfile hlt
  have hnew := treeNode_leafPlace (v := s'.view) hfile' hlt
  have hnode := h.node hleaf
  rw [byteOf, byteOf, ← hold, ← hnew]
  by_cases hzero : treeNode files s.view (leafPlace f (p / blockSize)) = 0
  · -- No block comes to hang at another leaf.
    rw [if_pos hzero, if_pos]
    by_contra hhung
    rw [hnode] at hhung
    obtain ⟨hroot, hpre⟩ := h.aimed.grown.new _ hleaf hzero hhung
    have hlen := leafPlace_length (f := f) hlt
    rw [hroot, ← leafPlace_length h.aimed.lt_maxBno] at hlen
    exact hne (Prod.ext hroot (hpre.eq_of_length hlen))
  · have hkeep := h.aimed.grown.keep _ hleaf hzero
    have hdata := h.confined.data _ hleaf (leafPlace_length hlt) hne hzero
    unfold Fs.nodeAt Fs.block at hdata
    dsimp only at hdata
    rw [hnode, hkeep, if_neg hzero, if_neg hzero, hdata]

theorem Stored.byteOf_outside
    (hblock : p / blockSize = offset / blockSize) (hout : p < offset ∨ offset + chunk offset buf ≤ p) :
    byteOf s'.view inode' p = some (s1.data page (p % blockSize)) := by
  have hleaf := h.leaf
  rw [treeNode_leafPlace (update_self ..) h.aimed.lt_maxBno] at hleaf
  have hmod : p % blockSize < offset % blockSize ∨
      offset % blockSize + (buf.take (chunk offset buf)).length ≤ p % blockSize := by
    rw [List.length_take]
    have hle := chunk_le offset buf
    unfold blockSize at hblock ⊢
    omega
  rw [byteOf, hblock, if_neg hleaf.1, ← hleaf.2, h.becomes.view, update_self, copy_of_not_mem hmod]

theorem Stored.byteOf_present
    (hfile : files fd = some inode) (hne : bidOf s.view inode (offset / blockSize) ≠ 0)
    (hblock : p / blockSize = offset / blockSize) (hout : p < offset ∨ offset + chunk offset buf ≤ p) :
    byteOf s'.view inode' p = byteOf s.view inode p := by
  have hlt := h.aimed.lt_maxBno
  obtain hzero | ⟨hvalid, hview⟩ := h.aimed.old
  · exact absurd hzero hne
  · have hpage : page = ext2Block2Lba (bidOf s.view inode (p / blockSize)) := by
      rw [← treeNode_leafPlace hfile hlt] at hne
      have hkeep := h.aimed.grown.keep _ (leafPlace_place hlt) hne
      rw [treeNode_leafPlace (update_self ..) hlt, treeNode_leafPlace hfile hlt] at hkeep
      rw [h.aimed.page_eq, hkeep, hblock]
    rw [h.byteOf_outside hblock hout, hvalid.data_eq, hview, byteOf, hblock, if_neg hne, hpage, hblock]

theorem Stored.keep (hfile : files fd = some inode)
    (hpresent : offset / blockSize < nextFreeBno inode → bidOf s.view inode (offset / blockSize) ≠ 0)
    (hp : p < offset) (hnext : p / blockSize < nextFreeBno inode) :
    byteOf s'.view inode' p = byteOf s.view inode p := by
  have hle : p / blockSize ≤ offset / blockSize := Nat.div_le_div_right hp.le
  rcases Nat.eq_or_lt_of_le hle with heq | hblock
  · exact h.byteOf_present hfile (hpresent (heq ▸ hnext)) heq (Or.inl hp)
  · refine h.byteOf_eq hfile (update_self ..) (hle.trans_lt h.aimed.lt_maxBno) fun heq => ?_
    have hpath := blockPath_inj (Prod.ext (Prod.mk.inj (Prod.mk.inj heq).1).2 (Prod.mk.inj heq).2)
    omega

end

end Stored

/-- After a round that has not written everything the position is the size, at the start of a block. -/
theorem not_lt_nextFreeBno (hmore : chunk n buf < buf.length)
    (hoffset : node.offset = (n + chunk n buf) % 2 ^ 32)
    (hsize : node.size = (n + chunk n buf) % 2 ^ 32) :
    ¬ node.offset / blockSize < nextFreeBno node := by
  have hchunk : chunk n buf = blockSize - n % blockSize := by
    unfold chunk at hmore ⊢
    omega
  have hlt : node.size < 2 ^ 32 := hsize ▸ Nat.mod_lt _ (by decide)
  rw [nextFreeBno_eq hlt, divCeil_eq hlt]
  unfold blockSize at hchunk ⊢
  omega

theorem Wrote.nil (hwf : FsWf sb R files s.view) (hfile : files fd = some node) :
    Wrote sb R fd files node s [] node s where
  wf := by
    rw [update_eq_self_iff.2 hfile.symm]
    exact hwf
  offset := rfl
  size := rfl
  bytes := fun i hi => absurd hi (Nat.not_lt_zero i)
  keep := fun _ _ _ => rfl

theorem Wrote.append {node1 : Inode} {s1 : PageCache} {a b : List Byte} (ha : a ≠ [])
    (hend : node.offset + a.length < 2 ^ 32) (h : Wrote sb R fd files node s a node1 s1)
    (h' : Wrote sb R fd (update files fd (some node1)) node1 s1 b node' s') :
    Wrote sb R fd files node s (a ++ b) node' s' := by
  have hsize : node1.size = node.offset + a.length := h.size.trans (if_neg ha)
  have hkeep : ∀ p < node1.offset, byteOf s'.view node' p = byteOf s1.view node1 p := by
    intro p hp
    apply h'.keep p hp
    rw [h.offset] at hp
    rw [nextFreeBno_eq (by omega), divCeil_eq (by omega), hsize]
    unfold blockSize
    omega
  constructor
  · have hwf := h'.wf
    rw [update_idem] at hwf
    exact hwf
  · rw [h'.offset, h.offset, List.length_append, Nat.add_assoc]
  · rw [h'.size, if_neg (List.append_ne_nil_of_left_ne_nil ha b), List.length_append]
    split
    · rename_i hb
      rw [hsize, hb]
      rfl
    · rw [h.offset, Nat.add_assoc]
  · intro i hi
    rw [List.length_append] at hi
    by_cases hfirst : i < a.length
    · rw [hkeep _ (by rw [h.offset]; omega), h.bytes i hfirst, List.getElem?_append_left hfirst]
    · have hbytes := h'.bytes (i - a.length) (by omega)
      rw [h.offset, show node.offset + a.length + (i - a.length) = node.offset + i by omega] at hbytes
      rw [hbytes, List.getElem?_append_right (by omega)]
  · intro p hp hnext
    rw [hkeep p (by rw [h.offset]; omega), h.keep p hp hnext]

section

variable (hwf : FsWf sb R files s.view) (hfile : files fd = some node)
include hwf hfile

theorem writeRound_wrote (hpresent : node.offset / blockSize < nextFreeBno node →
      bidOf s.view node (node.offset / blockSize) ≠ 0)
    (hbuf : buf ≠ []) (hend : node.offset + buf.length < 2 ^ 32)
    (h : Fs.writeRound sb node buf s = .ok (k, node', s')) :
    k = chunk node.offset buf ∧ Wrote sb R fd files node s (buf.take k) node' s' := by
  obtain ⟨rfl, hoffset, page, inode1, s1, _, hstored⟩ :=
    (writeRound_defined hwf hfile (Fits.of_ok hpresent h)).2 _ h
  dsimp only at hoffset hstored ⊢
  have hpos := chunk_pos (o := node.offset) hbuf
  have hle := chunk_le node.offset buf
  have hmod : (node.offset + chunk node.offset buf) % 2 ^ 32 =
      node.offset + chunk node.offset buf := Nat.mod_eq_of_lt (by omega)
  have hlen : (buf.take (chunk node.offset buf)).length = chunk node.offset buf := by
    rw [List.length_take]
    omega
  refine ⟨rfl, hstored.wf, ?_, ?_, ?_, ?_⟩
  · rw [hoffset, hmod, hlen]
  · rw [hstored.size, hmod, hlen, if_neg]
    exact List.length_pos_iff.1 (hpos.trans_eq hlen.symm)
  · intro i hi
    rw [hlen] at hi
    rw [hstored.bytes hi, List.getElem?_take_of_lt hi]
  · exact fun p hp hnext => hstored.keep hfile hpresent hp hnext

theorem vfsWriteLoop_wrote (hpresent : buf ≠ [] → node.offset / blockSize < nextFreeBno node →
      bidOf s.view node (node.offset / blockSize) ≠ 0)
    (hend : node.offset + buf.length < 2 ^ 32)
    (h : Fs.vfsWriteLoop sb fuel buf node s = .ok (cnt, node', s')) :
    Wrote sb R fd files node s buf node' s' := by
  induction fuel generalizing files buf node s cnt with
  | zero =>
    cases buf with
    | nil =>
      cases h
      exact .nil hwf hfile
    | cons b buf => cases h
  | succ fuel ih =>
    cases hbuf : buf with
    | nil =>
      rw [hbuf] at h
      cases h
      exact .nil hwf hfile
    | cons b bs =>
      rw [hbuf, Fs.vfsWriteLoop, ← hbuf] at h
      rw [← hbuf]
      have hne : buf ≠ [] := hbuf ▸ List.cons_ne_nil b bs
      obtain ⟨⟨k, node1, s1⟩, hround, h⟩ := bind_eq_ok h
      obtain ⟨hk, hwrote⟩ := writeRound_wrote hwf hfile (hpresent hne) hne hend hround
      have hpos : 0 < k := hk ▸ chunk_pos hne
      have hle : k ≤ buf.length := hk ▸ chunk_le node.offset buf
      have hlen : (buf.take k).length = k := by
        rw [List.length_take]
        omega
      have htake : buf.take k ≠ [] := List.length_pos_iff.1 (hpos.trans_eq hlen.symm)
      dsimp only at h
      rw [if_neg hpos.ne'] at h
      obtain ⟨⟨cnt', node2, s2⟩, hrest, h⟩ := bind_eq_ok h
      cases h
      have hoffset := hwrote.offset
      have hsize := hwrote.size
      rw [hlen] at hoffset
      rw [if_neg htake, hlen] at hsize
      have hmod : (node.offset + k) % 2 ^ 32 = node.offset + k := Nat.mod_eq_of_lt (by omega)
      have hwrote2 := ih hwrote.wf (update_self ..) (by
        intro hdrop hlt
        have hmore : chunk node.offset buf < buf.length :=
          hk ▸ Nat.lt_of_not_le fun hle => hdrop (List.drop_eq_nil_of_le hle)
        rw [hk] at hoffset hsize hmod
        exact absurd hlt (not_lt_nextFreeBno hmore (hoffset.trans hmod.symm)
          (hsize.trans hmod.symm))) (by rw [hoffset, List.length_drop]; omega) hrest
      have hall := hwrote.append htake (by omega) hwrote2
      rw [List.take_append_drop] at hall
      exact hall

/-- A round that starts in a hole below the size writes to block 0 and leaves the hole. -/
theorem writeRound_hole (hoffset : node.offset < 2 ^ 32) (hbelow : node.offset / blockSize < nextFreeBno node)
    (hhole : bidOf s.view node (node.offset / blockSize) = 0)
    (h : Fs.writeRound sb node buf s = .ok (k, node', s')) :
    k = chunk node.offset buf ∧ node'.offset = (node.offset + k) % 2 ^ 32 ∧
      node'.size = (node.offset + k) % 2 ^ 32 ∧
      FsWf sb R (update files fd (some node')) s'.view ∧
      bidOf s'.view node' (node.offset / blockSize) = 0 := by
  have hlt := div_blockSize_lt hoffset
  obtain ⟨⟨k', node1, s1⟩, hwrite, hround⟩ := bind_eq_ok h
  cases hround
  unfold ext2Write at hwrite
  split at hwrite
  · cases hwrite
  · obtain ⟨t1, hbid, ht1⟩ := getBid_ok hlt node s
    obtain ⟨t2, hread, ht2, buf', hbuf', hself⟩ := ext2BlockRead_ok t1 0
    obtain ⟨t3, hdirty, ht3⟩ := setData_markPageDirty_ok hbuf'
      (copy (t2.data (ext2Block2Lba 0)) (node.offset % blockSize)
        (buf.take (min (blockSize - node.offset % blockSize) buf.length)))
    obtain ⟨⟨page, file, t⟩, hpage, hwrite⟩ := bind_eq_ok hwrite
    rw [writePage, if_pos hbelow, hbid, ok_bind] at hpage
    dsimp only at hpage
    rw [hhole, hread, ok_bind] at hpage
    cases hpage
    dsimp only at hwrite
    rw [hdirty, ok_bind] at hwrite
    obtain ⟨state', hmark⟩ := markInodeDirty_eq { node with
      size := (node.offset + min (blockSize - node.offset % blockSize) buf.length) % 2 ^ 32 } .data
    rw [hmark] at hwrite
    cases hwrite
    rw [ht2.view, ht1.view] at ht3
    obtain ⟨hwf', hnode⟩ := hwf.setPage (by decide) (hwf.reserved_metaPage 0 hwf.zero_mem)
      (fun _ _ _ hne => hne)
      (copy (t2.data (ext2Block2Lba 0)) (node.offset % blockSize)
        (buf.take (min (blockSize - node.offset % blockSize) buf.length)))
    rw [← ht3.view] at hwf' hnode
    refine ⟨rfl, rfl, rfl, hwf'.congr_files (fileRoot_update hfile rfl), ?_⟩
    have hleaf := hnode _ (leafPlace_place (f := fd) hlt)
    rw [treeNode_leafPlace hfile hlt, treeNode_leafPlace hfile hlt, hhole] at hleaf
    exact hleaf

end

theorem writeRound_lt (h : Fs.writeRound sb node buf s = .ok (k, node', s')) :
    node'.size < 2 ^ 32 ∧ node'.offset < 2 ^ 32 := by
  obtain ⟨⟨k', node1, s1⟩, hwrite, h⟩ := bind_eq_ok h
  cases h
  refine ⟨?_, Nat.mod_lt _ (by decide)⟩
  unfold ext2Write at hwrite
  split at hwrite
  · cases hwrite
  · obtain ⟨⟨page, file, s2⟩, _, hwrite⟩ := bind_eq_ok hwrite
    obtain ⟨s3, _, hwrite⟩ := bind_eq_ok hwrite
    obtain ⟨state', hmark⟩ := markInodeDirty_eq { file with
      size := (node.offset + min (blockSize - node.offset % blockSize) buf.length) % 2 ^ 32 } .data
    rw [hmark] at hwrite
    cases hwrite
    exact Nat.mod_lt _ (by decide)

theorem vfsWriteLoop_lt (hlt : node.size < 2 ^ 32 ∧ node.offset < 2 ^ 32)
    (h : Fs.vfsWriteLoop sb fuel buf node s = .ok (cnt, node', s')) :
    node'.size < 2 ^ 32 ∧ node'.offset < 2 ^ 32 := by
  induction fuel generalizing buf node s cnt with
  | zero =>
    cases buf with
    | nil =>
      cases h
      exact hlt
    | cons b buf => cases h
  | succ fuel ih =>
    cases buf with
    | nil =>
      cases h
      exact hlt
    | cons b buf =>
      obtain ⟨⟨k, node1, s1⟩, hround, h⟩ := bind_eq_ok h
      have hlt1 := writeRound_lt hround
      dsimp only at h
      split at h
      · cases h
        exact hlt1
      · obtain ⟨⟨cnt', node2, s2⟩, hrest, h⟩ := bind_eq_ok h
        cases h
        exact ih hlt1 hrest

/-- `fs'` is `fs` after a call of `vfs_lseek` that puts the position of the file to `p`. -/
def Fs.SeekedTo (fs : Fs) (fd p : Nat) (fs' : Fs) : Prop :=
  (∃ (offset r : Int) (whence : Fs.SeekWhence), -2 ^ 31 ≤ offset ∧ offset < 2 ^ 31 ∧
    fs.vfsLseek fd offset whence = .ok (r, fs')) ∧
  ∃ node, fs'.files fd = some node ∧ node.offset = p

/-- A seek to `p` and a read of `n` bytes return `bytes`. -/
def Fs.ReadsAt (fs : Fs) (fd p n : Nat) (bytes : List Byte) : Prop :=
  (∃ fs', fs.SeekedTo fd p fs') ∧
    ∀ fs', fs.SeekedTo fd p fs' → ∃ fs'', fs'.vfsRead fd n = .ok (bytes, fs'')

/-- What a write of `buf` at the position of the file has to do to the array of its bytes. -/
structure WriteRefines (fs : Fs) (fd : Nat) (node : Inode) (buf : List Byte) (fs' : Fs) : Prop where
  read_back : fs'.ReadsAt fd node.offset buf.length buf
  outside : ∀ p < node.size, p < node.offset ∨ node.offset + buf.length ≤ p → ∀ bytes,
    fs.ReadsAt fd p 1 bytes → fs'.ReadsAt fd p 1 bytes
  size : ∃ node', fs'.files fd = some node' ∧ node'.size = max node.size (node.offset + buf.length)

/-- The write ends at or past the end of the file, below 4 GiB, and does not start in a hole. -/
def AppendsTo (fs : Fs) (node : Inode) (buf : List Byte) : Prop :=
  if buf = [] then node.offset ≤ node.size
  else node.size ≤ node.offset + buf.length ∧ node.offset + buf.length < 2 ^ 32 ∧
    (node.offset / blockSize < nextFreeBno node →
      bidOf fs.cache.view node (node.offset / blockSize) ≠ 0)

variable {fs fs' : Fs}

theorem seekTo_lt {offset : Int} {whence : Fs.SeekWhence}
    (h : Fs.seekTo node offset whence = some p) : p < 2 ^ 32 := by
  cases whence with
  | set =>
    rw [Fs.seekTo] at h
    split at h
    · cases h
    · cases h
      exact Nat.mod_lt _ (by decide)
  | «end» =>
    rw [Fs.seekTo] at h
    split at h
    · cases h
    · cases h
      exact Nat.mod_lt _ (by decide)
  | cur =>
    have hp : ((node.offset + offset) % 2 ^ 32).toNat = p := Option.some.inj h
    omega

theorem seekedTo_iff (hnode : fs.getInode fd = .ok (some node)) (hoffset : node.offset < 2 ^ 32) :
    fs.SeekedTo fd p fs' ↔ p < 2 ^ 32 ∧ fs' = fs.setFile fd { node with offset := p } := by
  have hfile := (getInode_ok hnode).2
  constructor
  · rintro ⟨⟨offset, r, whence, _, _, hseek⟩, node', hfile', rfl⟩
    rw [Fs.vfsLseek, hnode, ok_bind] at hseek
    dsimp only at hseek
    split at hseek
    · -- The call returns -1, and the position was `p` before.
      cases hseek
      obtain rfl : node = node' := Option.some.inj (hfile.symm.trans hfile')
      exact ⟨hoffset, (fs_eq_setFile hfile).symm⟩
    · rename_i pos hpos
      obtain rfl := (Prod.mk.inj (Except.ok.inj hseek)).2
      rw [Fs.setFile] at hfile'
      dsimp only at hfile'
      rw [update_self] at hfile'
      obtain rfl := Option.some.inj hfile'
      exact ⟨seekTo_lt hpos, rfl⟩
  · rintro ⟨hp, rfl⟩
    refine ⟨?_, _, update_self .., rfl⟩
    -- `SEEK_CUR` wraps around, so it reaches every position.
    obtain ⟨d, hlow, hhigh, hd⟩ : ∃ d : Int, -2 ^ 31 ≤ d ∧ d < 2 ^ 31 ∧
        ((node.offset + d) % 2 ^ 32).toNat = p := by
      by_cases hbig : (2 ^ 31 : Int) ≤ p - node.offset
      · exact ⟨p - node.offset - 2 ^ 32, by omega, by omega, by omega⟩
      · by_cases hsmall : (p - node.offset : Int) < -2 ^ 31
        · exact ⟨p - node.offset + 2 ^ 32, by omega, by omega, by omega⟩
        · exact ⟨p - node.offset, by omega, by omega, by omega⟩
    refine ⟨d, Int.bmod p (2 ^ 32), .cur, hlow, hhigh, ?_⟩
    rw [Fs.vfsLseek, hnode, ok_bind]
    dsimp only
    rw [Fs.seekTo, hd]

theorem getInode_setFile (fs : Fs) (node : Inode) (hfd : fd < Fs.fileTableSize) :
    (fs.setFile fd node).getInode fd = .ok (some node) := by
  rw [Fs.getInode, if_pos hfd, Fs.setFile]
  dsimp only
  rw [update_self]

theorem readsAt_iff {bytes : List Byte} (hnode : fs.getInode fd = .ok (some node))
    (hoffset : node.offset < 2 ^ 32) : fs.ReadsAt fd p n bytes ↔ p < 2 ^ 32 ∧ ∃ node' s',
      Fs.vfsReadLoop n n { node with offset := p } fs.cache = .ok (bytes, node', s') := by
  have hget := fun node' => getInode_setFile fs node' (getInode_ok hnode).1
  unfold Fs.ReadsAt
  simp only [seekedTo_iff hnode hoffset]
  constructor
  · rintro ⟨⟨_, hp, _⟩, hall⟩
    obtain ⟨fs'', hread⟩ := hall _ ⟨hp, rfl⟩
    rw [Fs.vfsRead, hget, ok_bind] at hread
    obtain ⟨⟨bytes', node', s'⟩, hloop, hret⟩ := bind_eq_ok hread
    cases hret
    exact ⟨hp, node', s', hloop⟩
  · rintro ⟨hp, node', s', hloop⟩
    refine ⟨⟨_, hp, rfl⟩, ?_⟩
    rintro fs' ⟨_, rfl⟩
    rw [Fs.vfsRead, hget, ok_bind]
    dsimp only
    rw [show (fs.setFile fd { node with offset := p }).cache = fs.cache from rfl, hloop, ok_bind]
    exact ⟨_, rfl⟩

theorem vfsWriteLoop_hole (hwf : FsWf sb R files s.view)
    (hfile : files fd = some node) (hbelow : node.offset / blockSize < nextFreeBno node)
    (hhole : bidOf s.view node (node.offset / blockSize) = 0) (hbuf : buf ≠ [])
    (hend : node.offset + buf.length < 2 ^ 32)
    (h : Fs.vfsWriteLoop sb fuel buf node s = .ok (cnt, node', s')) :
    bidOf s'.view node' (node.offset / blockSize) = 0 := by
  obtain ⟨b, bs, rfl⟩ := List.exists_cons_of_ne_nil hbuf
  cases fuel with
  | zero => cases h
  | succ fuel =>
    rw [Fs.vfsWriteLoop] at h
    generalize b :: bs = buf at hbuf hend h
    obtain ⟨⟨k, node1, s1⟩, hround, h⟩ := bind_eq_ok h
    obtain ⟨hk, hoffset, hsize, hwf1, hhole1⟩ :=
      writeRound_hole hwf hfile (by omega) hbelow hhole hround
    have hpos : 0 < k := hk ▸ chunk_pos hbuf
    have hle : k ≤ buf.length := hk ▸ chunk_le node.offset buf
    dsimp only at h
    rw [if_neg hpos.ne'] at h
    obtain ⟨⟨cnt', node2, s2⟩, hrest, h⟩ := bind_eq_ok h
    cases h
    have hwrote := vfsWriteLoop_wrote hwf1 (update_self ..) (by
      intro hdrop hlt
      have hmore : chunk node.offset buf < buf.length :=
          hk ▸ Nat.lt_of_not_le fun hle => hdrop (List.drop_eq_nil_of_le hle)
      rw [hk] at hoffset hsize
      exact absurd hlt (not_lt_nextFreeBno hmore hoffset hsize))
      (by rw [hoffset, Nat.mod_eq_of_lt (by omega), List.length_drop]; omega) hrest
    rw [Nat.mod_eq_of_lt (by omega)] at hoffset hsize
    have hkeep := hwrote.keep node.offset (by omega) (by
      rw [nextFreeBno_eq (by omega), divCeil_eq (by omega), hsize]
      unfold blockSize
      omega)
    rw [byteOf, byteOf, if_pos hhole1] at hkeep
    by_contra hne
    rw [if_neg hne] at hkeep
    cases hkeep

/-- A write does to the array of bytes what it should exactly when it ends at or past the end of the file
and does not start in a hole: `ext2_write` sets the size to the end of what it has written. -/
theorem vfsWrite_refines_iff (hwf : fs.Wf R) (hnode : fs.getInode fd = .ok (some node))
    (hsize : node.size < 2 ^ 32) (hoffset : node.offset < 2 ^ 32)
    (hwrite : fs.vfsWrite fd buf = .ok (buf.length, fs')) :
    WriteRefines fs fd node buf fs' ↔ AppendsTo fs node buf := by
  obtain ⟨hfd, hfile⟩ := getInode_ok hnode
  rw [Fs.vfsWrite, hnode, ok_bind] at hwrite
  obtain ⟨⟨cnt, node', s'⟩, hloop, hret⟩ := bind_eq_ok hwrite
  obtain rfl := (Prod.mk.inj (Except.ok.inj hret)).2
  have hlt := vfsWriteLoop_lt ⟨hsize, hoffset⟩ hloop
  have hnode' := getInode_setFile { fs with cache := s' } node' hfd
  have hfile' := (getInode_ok hnode').2
  unfold AppendsTo
  split
  · rename_i hbuf
    subst hbuf
    rw [List.length_nil, Fs.vfsWriteLoop] at hloop
    cases hloop
    rw [fs_eq_setFile hfile] at hnode' hfile' ⊢
    constructor
    · rintro ⟨_, _, found, hfound, hmax⟩
      obtain rfl := Option.some.inj (hfile.symm.trans hfound)
      rw [hmax]
      exact Nat.le_max_right _ _
    · intro hle
      refine ⟨?_, fun _ _ _ _ h => h, node, hfile, (Nat.max_eq_left hle).symm⟩
      exact (readsAt_iff hnode hoffset).2 ⟨hoffset, _, _, rfl⟩
  · rename_i hbuf
    constructor
    · rintro ⟨hback, _, found, hfound, hmax⟩
      obtain rfl := Option.some.inj (hfile'.symm.trans hfound)
      have hend : node.offset + buf.length < 2 ^ 32 := by
        have := Nat.le_max_right node.size (node.offset + buf.length)
        omega
      have hpresent : node.offset / blockSize < nextFreeBno node →
          bidOf fs.cache.view node (node.offset / blockSize) ≠ 0 := by
        intro hbelow hhole
        have hzero := vfsWriteLoop_hole hwf hfile hbelow hhole hbuf hend hloop
        obtain ⟨_, node1, s1, hread⟩ := (readsAt_iff hnode' hlt.2).1 hback
        obtain ⟨node2, s2, hnil⟩ := vfsReadLoop_absent (n := buf.length) (s := s')
          (List.length_pos_iff.2 hbuf)
          (show ({ node' with offset := node.offset } : Inode).offset < 2 ^ 32 from hoffset)
          fun h => h.2 hzero
        exact hbuf (Prod.mk.inj (Except.ok.inj (hread.symm.trans hnil))).1
      have hwrote := vfsWriteLoop_wrote hwf hfile (fun _ => hpresent) hend hloop
      have hnew := hwrote.size
      rw [if_neg hbuf] at hnew
      refine ⟨?_, hend, hpresent⟩
      rw [← hnew, hmax]
      exact Nat.le_max_left _ _
    · rintro ⟨hle, hend, hpresent⟩
      have hwrote := vfsWriteLoop_wrote hwf hfile (fun _ => hpresent) hend hloop
      have hnew := hwrote.size
      rw [if_neg hbuf] at hnew
      refine ⟨(readsAt_iff hnode' hlt.2).2 ⟨hoffset, ?_⟩, ?_, node', hfile', ?_⟩
      · obtain ⟨bytes, node1, s1, hread, hbytes⟩ := vfsReadLoop_present (n := buf.length) (s := s')
          Nat.le.refl (show ({ node' with offset := node.offset } : Inode).size < 2 ^ 32 from hlt.1)
          hoffset hnew.ge (by
            intro i hi
            have := hwrote.bytes i hi
            rw [List.getElem?_eq_getElem hi] at this
            exact fun hnone => absurd (this.symm.trans hnone) nofun)
        have heq : bytes = buf := by
          apply List.ext_getElem?
          intro i
          rw [hbytes]
          split
          · rename_i hi
            exact hwrote.bytes i hi
          · rename_i hi
            rw [List.getElem?_eq_none (Nat.not_lt.1 hi)]
        exact ⟨node1, s1, heq ▸ hread⟩
      · intro p hp hor bytes hold
        have hbefore : p < node.offset := by omega
        obtain ⟨hlt32, node1, s1, hread⟩ := (readsAt_iff hnode hoffset).1 hold
        have hblock : p / blockSize < divCeil node.size blockSize := by
          rw [divCeil_eq hsize]
          unfold blockSize
          omega
        have hblock' : p / blockSize < divCeil node'.size blockSize := by
          rw [divCeil_eq hlt.1]
          unfold blockSize
          omega
        obtain ⟨node2, s2, hone⟩ := vfsReadLoop_one (s := fs.cache)
          (show ({ node with offset := p } : Inode).offset < 2 ^ 32 from hlt32)
        obtain ⟨node3, s3, hone'⟩ := vfsReadLoop_one (s := s')
          (show ({ node' with offset := p } : Inode).offset < 2 ^ 32 from hlt32)
        dsimp only at hone hone'
        rw [if_pos hblock] at hone
        rw [if_pos hblock'] at hone'
        have hkeep := hwrote.keep p hbefore (by rw [nextFreeBno_eq hsize]; exact hblock)
        have hbytes := (Prod.mk.inj (Except.ok.inj (hread.symm.trans hone))).1
        refine (readsAt_iff hnode' hlt.2).2 ⟨hlt32, node3, s3, ?_⟩
        rw [hbytes]
        refine hone'.trans ?_
        rw [show byteOf s'.view { node' with offset := p } p = byteOf s'.view node' p from rfl, hkeep]
        rfl
      · rw [hnew]
        exact (Nat.max_eq_right hle).symm

/-- Two bytes from the last byte of a full block on. -/
theorem vfsWrite_refines_iff_fullBlock : ∃ fs node fs', FileRun FitsNext tinyFs fs ∧
    fs.getInode 0 = .ok (some node) ∧ node.size = 4096 ∧ node.offset = 4095 ∧
    fs.vfsWrite 0 [1, 2] = .ok (2, fs') ∧ WriteRefines fs 0 node [1, 2] fs' := by
  obtain ⟨fs, node, hrun, hnode, ⟨hsize, hoffset, hne⟩, _, fs', hwrite⟩ := exists_fullBlock
  refine ⟨fs, node, fs', hrun, hnode, hsize, hoffset, hwrite, ?_⟩
  refine (vfsWrite_refines_iff (hrun.wf tinyFs_wf) hnode (by omega) (by omega) hwrite).2 ?_
  unfold AppendsTo
  rw [if_neg (List.cons_ne_nil _ _), hsize, hoffset]
  exact ⟨by decide, by decide, fun _ => hne⟩

/-- Two bytes at 0, then one byte at 0: the file is cut to one byte. -/
theorem overwrite_not_refines : ∃ fs node fs', FileRun (fun _ _ => True) tinyFs fs ∧
    fs.getInode 0 = .ok (some node) ∧ fs.vfsWrite 0 [3] = .ok (1, fs') ∧
      ¬ WriteRefines fs 0 node [3] fs' := by
  obtain ⟨_, hok⟩ := exists_ok (x := do
      let a ← tinyFs.vfsWrite 0 [1, 2]
      let b ← a.2.vfsLseek 0 0 .set
      let c ← b.2.vfsWrite 0 [3]
      let node ← b.2.getInode 0
      let node' ← c.2.getInode 0
      assertk (decide (c.1 = 1) && match node, node' with
        | some node, some node' => decide (node'.size ≠ max node.size (node.offset + 1))
        | _, _ => false))
    (by decide +kernel)
  obtain ⟨a, ha, hok⟩ := bind_eq_ok hok
  obtain ⟨b, hb, hok⟩ := bind_eq_ok hok
  obtain ⟨⟨cnt, fs'⟩, hc, hok⟩ := bind_eq_ok hok
  obtain ⟨found, hfound, hok⟩ := bind_eq_ok hok
  obtain ⟨found', hfound', hok⟩ := bind_eq_ok hok
  obtain ⟨hcnt, hsize⟩ := Bool.and_eq_true_iff.1 (assertk_eq_ok hok)
  obtain rfl : cnt = 1 := of_decide_eq_true hcnt
  have hreached : FileRun (fun _ _ => True) tinyFs b.2 :=
    (FileRun.start.vfsWrite (fun _ => trivial) ha).lseek hb
  cases found with
  | none => cases hsize
  | some node =>
    cases found' with
    | none => cases hsize
    | some node' =>
      refine ⟨b.2, node, fs', hreached, hfound, hc, ?_⟩
      rintro ⟨_, _, node2, hfile, heq⟩
      obtain rfl := Option.some.inj ((getInode_ok hfound').2.symm.trans hfile)
      exact of_decide_eq_true hsize heq

end QuarkOS
