import QuarkOS.Fs.Alias

/-!
# The inode table

Where `get_raw_inode` finds the slot of an inode number: the group of the number names a table, the place
in the group a block of it and an offset in that block. The offset is counted from the start of the table
and not from the start of the block, so it is inside the block only for the numbers of the first one.
-/

namespace QuarkOS

namespace Mount

variable (s : Mount)

/-- The block that `get_raw_inode` reads and the offset that it adds to the block's buffer. -/
def inodeSlot (ino : Nat) : Except Fault (Nat × Nat) := do
  let blkNo ← s.inodeBlock ino
  .ok (blkNo, s.inodeOffset ino)

/-- The inode numbers of the groups that have a descriptor. -/
def InodeExists (ino : Nat) : Prop :=
  1 ≤ ino ∧ ino < 2 ^ 32 ∧ (s.inodePlace ino).1 < s.geometry.inodeTableAddr.length

def SlotsApart (a b : Nat × Nat) : Prop :=
  a.1 ≠ b.1 ∨ a.2 + s.geometry.inodeSize ≤ b.2 ∨ b.2 + s.geometry.inodeSize ≤ a.2

/-- Every number has a slot inside the buffer of its block, and different numbers have slots apart. -/
structure InodeSlots : Prop where
  inside : ∀ ino, s.InodeExists ino →
    ∃ blkNo off, s.inodeSlot ino = .ok (blkNo, off) ∧ off + s.geometry.inodeSize ≤ blockSize
  apart : ∀ ino ino' a b, s.InodeExists ino → s.InodeExists ino' → ino ≠ ino' →
    s.inodeSlot ino = .ok a → s.inodeSlot ino' = .ok b → s.SlotsApart a b

/-- The groups with an inode number have their tables at different addresses. -/
def OwnTables : Prop :=
  ∀ g g', g < g' → g' < s.geometry.inodeTableAddr.length → g' * s.geometry.inodePerGroup + 1 < 2 ^ 32 →
    s.geometry.inodeTableAddr[g]? ≠ s.geometry.inodeTableAddr[g']?

end Mount

namespace Mount

variable {s s' : Mount} {ino : Nat}

theorem inodePlace_of_pos (h1 : 1 ≤ ino) (h2 : ino < 2 ^ 32) : s.inodePlace ino =
      ((ino - 1) / s.geometry.inodePerGroup, (ino - 1) % s.geometry.inodePerGroup) := by
  have hn : (ino + 2 ^ 32 - 1) % 2 ^ 32 = ino - 1 := by omega
  rw [inodePlace, hn]

theorem inodeSlot_eq (hper : 0 < s.geometry.inodePerGroup) (hsize : s.geometry.inodeSize ∣ blockSize)
    {base : Nat} (hbase : s.geometry.inodeTableAddr[(s.inodePlace ino).1]? = some base) :
    s.inodeSlot ino =
      .ok ((base + (s.inodePlace ino).2 / s.inodePerBlock) % 2 ^ 32, s.inodeOffset ino) := by
  have hblk : 0 < s.inodePerBlock :=
    Nat.div_pos (Nat.le_of_dvd (by decide) hsize) (Nat.pos_of_dvd_of_pos hsize (by decide))
  rw [inodeSlot, inodeBlock, if_neg (by omega), hbase]
  rfl

theorem inodeSlot_first (hper : 0 < s.geometry.inodePerGroup) (hsize : s.geometry.inodeSize ∣ blockSize)
    (haddr : ∀ a ∈ s.geometry.inodeTableAddr, a < 2 ^ 32)
    (hone : s.geometry.inodePerGroup * s.geometry.inodeSize ≤ blockSize) {base : Nat}
    (hbase : s.geometry.inodeTableAddr[(s.inodePlace ino).1]? = some base) :
    s.inodeSlot ino = .ok (base, (s.inodePlace ino).2 * s.geometry.inodeSize) ∧
      ((s.inodePlace ino).2 + 1) * s.geometry.inodeSize ≤ blockSize := by
  have hplace : (s.inodePlace ino).2 + 1 ≤ s.geometry.inodePerGroup := Nat.mod_lt _ hper
  have hend : ((s.inodePlace ino).2 + 1) * s.geometry.inodeSize ≤ blockSize :=
    (Nat.mul_le_mul_right _ hplace).trans hone
  have hpos : 0 < s.geometry.inodeSize := Nat.pos_of_dvd_of_pos hsize (by decide)
  have hfirst : (s.inodePlace ino).2 / s.inodePerBlock = 0 := by
    apply Nat.div_eq_of_lt
    exact (Nat.le_div_iff_mul_le hpos).2 hend
  have hlt : base < 2 ^ 32 := haddr base (List.mem_of_getElem? hbase)
  have hoff : s.inodeOffset ino = (s.inodePlace ino).2 * s.geometry.inodeSize := by
    rw [Nat.add_mul] at hend
    apply Nat.mod_eq_of_lt
    have hblk : blockSize = 4096 := rfl
    omega
  refine ⟨?_, hend⟩
  rw [inodeSlot_eq hper hsize hbase, hfirst, hoff, Nat.add_zero, Nat.mod_eq_of_lt hlt]

theorem inodePlace_inj {ino' : Nat} (hex : s.InodeExists ino) (hex' : s.InodeExists ino')
    (h : s.inodePlace ino = s.inodePlace ino') : ino = ino' := by
  rw [inodePlace_of_pos hex.1 hex.2.1, inodePlace_of_pos hex'.1 hex'.2.1, Prod.mk.injEq] at h
  have hsub : ino - 1 = ino' - 1 := by
    rw [← Nat.div_add_mod (ino - 1) s.geometry.inodePerGroup, h.1, h.2, Nat.div_add_mod]
  have h1 := hex.1
  have h1' := hex'.1
  omega

theorem OwnTables.group_eq {ino' : Nat} (hown : s.OwnTables) (hex : s.InodeExists ino)
    (hex' : s.InodeExists ino')
    (h : s.geometry.inodeTableAddr[(s.inodePlace ino).1]? =
      s.geometry.inodeTableAddr[(s.inodePlace ino').1]?) :
    (s.inodePlace ino).1 = (s.inodePlace ino').1 := by
  have hfirst : ∀ n, s.InodeExists n →
      (s.inodePlace n).1 * s.geometry.inodePerGroup + 1 < 2 ^ 32 := by
    intro n hn
    have hmul := Nat.div_mul_le_self (n - 1) s.geometry.inodePerGroup
    have h1 := hn.1
    have h2 := hn.2.1
    rw [inodePlace_of_pos h1 h2]
    exact (Nat.succ_le_succ hmul).trans_lt (by omega)
  obtain hlt | heq | hgt := Nat.lt_trichotomy (s.inodePlace ino).1 (s.inodePlace ino').1
  · exact absurd h (hown _ _ hlt hex'.2.2 (hfirst ino' hex'))
  · exact heq
  · exact absurd h.symm (hown _ _ hgt hex.2.2 (hfirst ino hex))

theorem InodeSlots.of_oneBlock (hper : 0 < s.geometry.inodePerGroup)
    (hsize : s.geometry.inodeSize ∣ blockSize) (haddr : ∀ a ∈ s.geometry.inodeTableAddr, a < 2 ^ 32)
    (hone : s.geometry.inodePerGroup * s.geometry.inodeSize ≤ blockSize) (hown : s.OwnTables) :
    s.InodeSlots where
  inside := by
    intro ino hex
    obtain ⟨hslot, hend⟩ := inodeSlot_first hper hsize haddr hone (List.getElem?_eq_getElem hex.2.2)
    rw [Nat.add_mul, Nat.one_mul] at hend
    exact ⟨_, _, hslot, hend⟩
  apart := by
    intro ino ino' a b hex hex' hne ha hb
    have hbase := List.getElem?_eq_getElem hex.2.2
    have hbase' := List.getElem?_eq_getElem hex'.2.2
    obtain ⟨hslot, _⟩ := inodeSlot_first hper hsize haddr hone hbase
    obtain ⟨hslot', _⟩ := inodeSlot_first hper hsize haddr hone hbase'
    obtain rfl := Except.ok.inj (hslot.symm.trans ha)
    obtain rfl := Except.ok.inj (hslot'.symm.trans hb)
    by_cases hblk : s.geometry.inodeTableAddr[(s.inodePlace ino).1]? =
        s.geometry.inodeTableAddr[(s.inodePlace ino').1]?
    · -- in one group the places differ, and the slots of different places follow one another
      have hgroup := hown.group_eq hex hex' hblk
      have hplace : (s.inodePlace ino).2 ≠ (s.inodePlace ino').2 := fun h =>
        hne (inodePlace_inj hex hex' (Prod.ext hgroup h))
      right
      obtain hlt | hgt := Nat.lt_or_gt_of_ne hplace
      · left
        exact (Nat.succ_mul _ _).symm.trans_le (Nat.mul_le_mul_right _ hlt)
      · right
        exact (Nat.succ_mul _ _).symm.trans_le (Nat.mul_le_mul_right _ hgt)
    · left
      intro h
      exact hblk (by rw [hbase, hbase']; exact congrArg some h)

/-- The first slot after the block of the table is one that `get_raw_inode` takes to be in the block
after it, and at the end of that. -/
theorem InodeSlots.oneBlock (h : s.InodeSlots) (hper : 0 < s.geometry.inodePerGroup)
    (hsize : s.geometry.inodeSize ∣ blockSize) (hgroups : s.geometry.inodeTableAddr ≠ []) :
    s.geometry.inodePerGroup * s.geometry.inodeSize ≤ blockSize := by
  by_contra hmore
  obtain ⟨n, hn⟩ := hsize
  have hpos : 0 < s.geometry.inodeSize := Nat.pos_of_dvd_of_pos ⟨n, hn⟩ (by decide)
  have hlt : n < s.geometry.inodePerGroup := by
    rw [hn, Nat.mul_comm, Nat.not_le] at hmore
    exact Nat.lt_of_mul_lt_mul_left hmore
  have hle : n ≤ blockSize := hn ▸ Nat.le_mul_of_pos_left n hpos
  have hblk : blockSize = 4096 := rfl
  have hplace : s.inodePlace (n + 1) = (0, n) := by
    rw [inodePlace_of_pos (by omega) (by omega), Nat.add_sub_cancel, Nat.div_eq_of_lt hlt,
      Nat.mod_eq_of_lt hlt]
  have hex : s.InodeExists (n + 1) :=
    ⟨by omega, by omega, by rw [hplace]; exact List.length_pos_of_ne_nil hgroups⟩
  obtain ⟨blkNo, off, hslot, hin⟩ := h.inside (n + 1) hex
  rw [inodeSlot_eq hper ⟨n, hn⟩ (List.getElem?_eq_getElem hex.2.2)] at hslot
  cases hslot
  have hoff : s.inodeOffset (n + 1) = blockSize := by
    rw [inodeOffset, hplace, Nat.mul_comm, ← hn]
    rfl
  omega

theorem InodeSlots.ownTables (h : s.InodeSlots) (hper : 0 < s.geometry.inodePerGroup)
    (hsize : s.geometry.inodeSize ∣ blockSize) : s.OwnTables := by
  intro g g' hlt hlen hnum heq
  have hplace : ∀ k, k ≤ g' →
      s.inodePlace (k * s.geometry.inodePerGroup + 1) = (k, 0) := by
    intro k hk
    have hle := Nat.mul_le_mul_right s.geometry.inodePerGroup hk
    rw [inodePlace_of_pos (by omega) (by omega), Nat.add_sub_cancel, Nat.mul_div_cancel _ hper,
      Nat.mul_mod_left]
  have hex : ∀ k, k ≤ g' → s.InodeExists (k * s.geometry.inodePerGroup + 1) := by
    intro k hk
    have hle := Nat.mul_le_mul_right s.geometry.inodePerGroup hk
    exact ⟨by omega, by omega, by rw [hplace k hk]; exact hk.trans_lt hlen⟩
  have hslot : ∀ k, k ≤ g' → s.geometry.inodeTableAddr[k]? = s.geometry.inodeTableAddr[g']? →
      s.inodeSlot (k * s.geometry.inodePerGroup + 1) =
        .ok (s.geometry.inodeTableAddr[g'] % 2 ^ 32, 0) := by
    intro k hk hbase
    rw [inodeSlot_eq hper hsize
      (by rw [hplace k hk, hbase]; exact List.getElem?_eq_getElem hlen), inodeOffset, hplace k hk]
    simp only [Nat.zero_div, Nat.add_zero, Nat.zero_mul, Nat.zero_mod]
  have hne : g * s.geometry.inodePerGroup + 1 ≠ g' * s.geometry.inodePerGroup + 1 := by
    have hmul := Nat.mul_lt_mul_of_pos_right hlt hper
    omega
  obtain hblk | hoff | hoff := h.apart _ _ _ _ (hex g hlt.le) (hex g' le_rfl) hne
    (hslot g hlt.le heq) (hslot g' le_rfl rfl)
  · exact hblk rfl
  · have hpos : 0 < s.geometry.inodeSize := Nat.pos_of_dvd_of_pos hsize (by decide)
    exact absurd hoff (by dsimp only; omega)
  · have hpos : 0 < s.geometry.inodeSize := Nat.pos_of_dvd_of_pos hsize (by decide)
    exact absurd hoff (by dsimp only; omega)

/-- The slots are inside their blocks and apart exactly if the table of a group is not more than one
block, and is the table of no other group. -/
theorem inodeSlots_iff (s : Mount) (hsize : s.geometry.inodeSize ∣ blockSize)
    (hper : 0 < s.geometry.inodePerGroup) (haddr : ∀ a ∈ s.geometry.inodeTableAddr, a < 2 ^ 32) :
    s.InodeSlots ↔ s.geometry.inodeTableAddr = [] ∨
      (s.geometry.inodePerGroup * s.geometry.inodeSize ≤ blockSize ∧ s.OwnTables) := by
  constructor
  · intro h
    by_cases hgroups : s.geometry.inodeTableAddr = []
    · exact Or.inl hgroups
    · exact Or.inr ⟨h.oneBlock hper hsize hgroups, h.ownTables hper hsize⟩
  · rintro (hnil | ⟨hone, hown⟩)
    · have hnone : ∀ ino, ¬ s.InodeExists ino := by
        intro ino hex
        have hlt := hex.2.2
        rw [hnil] at hlt
        exact absurd hlt (Nat.not_lt_zero _)
      exact ⟨fun ino hex => absurd hex (hnone ino), fun ino _ _ _ hex => absurd hex (hnone ino)⟩
    · exact .of_oneBlock hper hsize haddr hone hown

/-- The small disk has 16 inodes of 128 bytes in its group. -/
theorem inodeSlots_smallDisk : smallDisk.InodeSlots := by
  refine (inodeSlots_iff smallDisk (by decide) (by decide) (by decide)).2 (Or.inr ⟨by decide, ?_⟩)
  intro g g' hlt hlen
  change g' < 1 at hlen
  omega

/-- The disk of `generate-disk.sh`: a group has 8192 inodes of 256 bytes. -/
def mkfsDisk : Mount :=
  { smallDisk with geometry :=
      { inodePerGroup := 8192, inodeSize := 256, inodeBitmapAddr := [18], inodeTableAddr := [34] } }

/-- The slot of inode 17 is looked for behind the end of the second block of the table. -/
theorem mkfsDisk_not_inodeSlots : mkfsDisk.InodeExists 17 ∧
    mkfsDisk.inodeSlot 17 = .ok (35, 4096) ∧ ¬ mkfsDisk.InodeSlots := by
  have hex : mkfsDisk.InodeExists 17 := ⟨by decide, by decide, by decide⟩
  have hslot : mkfsDisk.inodeSlot 17 = .ok (35, 4096) := by rfl
  refine ⟨hex, hslot, fun h => ?_⟩
  obtain ⟨blkNo, off, hoff, hin⟩ := h.inside 17 hex
  rw [hslot] at hoff
  cases hoff
  exact absurd hin (by decide)

end Mount

end QuarkOS
