import QuarkOS.Fs.BlockIter
import QuarkOS.Fs.Mount

/-!
# What the functions of a mounted file system change

Most functions leave most of the state alone: they only bring pages into the cache (`OnlyCache`), or
change entries of directory blocks as well (`OnlyBlocks`), or free blocks (`OnlyFree`). A loop over the
blocks of a directory keeps what reading blocks and its body keep, and freeing the tree of a file what
reading blocks and clearing a bit keep. What entries there are in memory and which inodes they lead to is
changed by few functions, and all others keep the tree (`SameTree`).
-/

namespace QuarkOS

open Function

namespace Mount

variable {s s' s'' : Mount} {p d ino : Nat} {i : InodeInfo} {dir : Directory}

theorem deref_eq_ok {o : Option Nat} : deref o = .ok d ↔ o = some d := by
  cases o with
  | none => exact ⟨nofun, nofun⟩
  | some _ => exact ⟨fun h => congrArg some (Except.ok.inj h), fun h => congrArg Except.ok (Option.some.inj h)⟩

theorem inode_eq_ok : s.inode p = .ok i ↔ s.inodes p = some i := by
  rw [inode]
  cases s.inodes p <;> simp

theorem directory_eq_ok : s.directory d = .ok dir ↔ s.dirs d = some dir := by
  rw [directory]
  cases s.dirs d <;> simp

theorem inodes_setInode_self : (s.setInode p i).inodes p = some i := update_self ..

variable {bid fuel : Nat} {β : Type} {inode : Inode}
  {body : Nat → Mount → Except Fault (Option β × Mount)} {state : InodeState} {name : Name}

theorem block_eq_ok {block : List Ext2Dir} :
    s.block bid = .ok block ↔ bid ∈ s.dirBlocks ∧ s.entries bid = block := by
  rw [Mount.block]
  split
  · rename_i hmem
    exact ⟨fun h => ⟨hmem, Except.ok.inj h⟩, fun h => congrArg Except.ok h.2⟩
  · rename_i hmem
    exact ⟨nofun, fun h => absurd h.1 hmem⟩

def OnlyCache (s s' : Mount) : Prop := ∃ cache, s' = { s with cache }

theorem OnlyCache.refl (s : Mount) : OnlyCache s s := ⟨s.cache, rfl⟩

theorem OnlyCache.trans (h : OnlyCache s s') (h' : OnlyCache s' s'') : OnlyCache s s'' := by
  obtain ⟨_, rfl⟩ := h
  obtain ⟨cache, rfl⟩ := h'
  exact ⟨cache, rfl⟩

/-- At most the cache and the entries of blocks changed. -/
def OnlyBlocks (s s' : Mount) : Prop := ∃ cache entries, s' = { s with cache, entries }

theorem OnlyBlocks.trans (h : OnlyBlocks s s') (h' : OnlyBlocks s' s'') : OnlyBlocks s s'' := by
  obtain ⟨_, _, rfl⟩ := h
  obtain ⟨cache, entries, rfl⟩ := h'
  exact ⟨cache, entries, rfl⟩

theorem OnlyCache.blocks (h : OnlyCache s s') : OnlyBlocks s s' := by
  obtain ⟨cache, rfl⟩ := h
  exact ⟨cache, s.entries, rfl⟩

/-- At most the cache and the set of directory blocks changed. -/
def OnlyFree (s s' : Mount) : Prop := ∃ cache dirBlocks, s' = { s with cache, dirBlocks }

theorem OnlyFree.trans (h : OnlyFree s s') (h' : OnlyFree s' s'') : OnlyFree s s'' := by
  obtain ⟨_, _, rfl⟩ := h
  obtain ⟨cache, dirBlocks, rfl⟩ := h'
  exact ⟨cache, dirBlocks, rfl⟩

/-- Pages were brought into the cache. -/
def Reads (s s' : Mount) : Prop := ∃ cache, s.cache.Becomes cache s.cache.view ∧ s' = { s with cache }

theorem Reads.refl (s : Mount) : Reads s s := ⟨s.cache, .refl _, rfl⟩

theorem Reads.trans (h : Reads s s') (h' : Reads s' s'') : Reads s s'' := by
  obtain ⟨cache, hcache, rfl⟩ := h
  obtain ⟨cache', hcache', rfl⟩ := h'
  exact ⟨cache', hcache.trans (hcache.view ▸ hcache'), rfl⟩

theorem Reads.onlyCache (h : Reads s s') : OnlyCache s s' := by
  obtain ⟨cache, _, rfl⟩ := h
  exact ⟨cache, rfl⟩

/-- A relation that is kept when one thing is done after another, and by reading blocks. -/
structure Frame (R : Mount → Mount → Prop) : Prop where
  trans : ∀ {s s' s''}, R s s' → R s' s'' → R s s''
  read : ∀ s cache, s.cache.Becomes cache s.cache.view → R s { s with cache }

theorem Frame.refl {R : Mount → Mount → Prop} (hR : Frame R) (s : Mount) : R s s := hR.read s s.cache (.refl _)

/-- The loop keeps what reading blocks and its body keep. -/
theorem forEachBlock_keeps {R : Mount → Mount → Prop} (hR : Frame R)
    (hbody : ∀ bid s b s', body bid s = .ok (b, s') → R s s') {id : BlockPos} {b : Option β}
    (h : forEachBlock inode body fuel id s = .ok (b, s')) : R s s' := by
  induction fuel generalizing id s with
  | zero => cases h
  | succ fuel ih =>
    obtain ⟨⟨bid, id', cache⟩, hnext, h⟩ := bind_eq_ok h
    have hcache := nextBlock_becomes hnext
    dsimp only at h
    split at h
    · cases h
      exact hR.read s cache hcache
    · obtain ⟨cache', hblock, hcache', _⟩ := ext2BlockRead_ok cache bid
      rw [hblock, ok_bind] at h
      obtain ⟨⟨b', s1⟩, hb, h⟩ := bind_eq_ok h
      rw [hcache.view] at hcache'
      have hs1 := hR.trans (hR.read s cache' (hcache.trans hcache')) (hbody _ _ _ _ hb)
      cases b' with
      | some b' =>
        cases h
        exact hs1
      | none => exact hR.trans hs1 (ih h)

theorem forBlocks_reads (hbody : ∀ bid s b s', body bid s = .ok (b, s') → Reads s s') {b : Option β}
    (h : s.forBlocks inode body = .ok (b, s')) : Reads s s' :=
  forEachBlock_keeps ⟨Reads.trans, fun _ cache hcache => ⟨cache, hcache, rfl⟩⟩ hbody h

theorem forBlocks_onlyBlocks
    (hbody : ∀ bid s b s', body bid s = .ok (b, s') → OnlyBlocks s s') {b : Option β}
    (h : s.forBlocks inode body = .ok (b, s')) : OnlyBlocks s s' :=
  forEachBlock_keeps ⟨OnlyBlocks.trans, fun s cache _ => ⟨cache, s.entries, rfl⟩⟩ hbody h

/-- The blocks that a loop over the blocks of a file comes to. -/
def Reaches (s : Mount) (inode : Inode) (bid : Nat) : Prop :=
  ∃ k, (∀ j ≤ k, readBid s.cache.view inode j ≠ 0) ∧ readBid s.cache.view inode k = bid

theorem Reads.reaches (h : Reads s s') : s'.Reaches inode bid ↔ s.Reaches inode bid := by
  obtain ⟨cache, hcache, rfl⟩ := h
  rw [Reaches, Reaches, hcache.view]

/-- One round of the loop: block number `k` ends it, or is read and given to the body. -/
theorem forEachBlock_succ {k : Nat} (hpast : ∀ j < k, readBid s.cache.view inode j ≠ 0) :
    (readBid s.cache.view inode k = 0 ∧
      ∃ s1, Reads s s1 ∧ forEachBlock inode body (fuel + 1) (posAt k) s = .ok (none, s1)) ∨
    (∀ j ≤ k, readBid s.cache.view inode j ≠ 0) ∧
      ∃ s1, Reads s s1 ∧ s1.cache.Valid (ext2Block2Lba (readBid s.cache.view inode k)) ∧
        forEachBlock inode body (fuel + 1) (posAt k) s = (do
          match ← body (readBid s.cache.view inode k) s1 with
          | (some b, s) => .ok (some b, s)
          | (none, s) => forEachBlock inode body fuel (posAt (k + 1)) s) := by
  obtain ⟨id, cache, hnext, hbecomes, hid⟩ := nextBlock_readBid (s := s.cache) inode (le_posEnd hpast)
  rw [forEachBlock, hnext, ok_bind]
  dsimp only
  by_cases hzero : readBid s.cache.view inode k = 0
  · exact .inl ⟨hzero, _, ⟨cache, hbecomes, rfl⟩, if_pos hzero⟩
  · obtain ⟨cache', hblock, hbecomes', hvalid⟩ := ext2BlockRead_ok cache (readBid s.cache.view inode k)
    rw [hbecomes.view] at hbecomes'
    refine .inr ⟨fun j hj => ?_, _, ⟨cache', hbecomes.trans hbecomes', rfl⟩, hvalid, ?_⟩
    · rcases Nat.lt_or_eq_of_le hj with hlt | rfl
      · exact hpast j hlt
      · exact hzero
    · rw [if_neg hzero, hblock, ok_bind]
      exact hid hzero ▸ rfl

theorem Reads.past {k : Nat} (h : Reads s s') (hpast : ∀ j ≤ k, readBid s.cache.view inode j ≠ 0) :
    ∀ j < k + 1, readBid s'.cache.view inode j ≠ 0 := by
  obtain ⟨cache, hcache, rfl⟩ := h
  rw [hcache.view]
  exact fun j hj => hpast j (Nat.le_of_lt_succ hj)

theorem forBlocks_spec {q : List Ext2Dir → Prop} {r : Option β}
    (hnone : ∀ bid s s1, body bid s = .ok (none, s1) → Reads s s1 ∧ q (s.entries bid))
    (h : s.forBlocks inode body = .ok (r, s')) :
    (r = none ∧ Reads s s' ∧ ∀ bid, s.Reaches inode bid → q (s.entries bid)) ∨
      ∃ bid x s1, s.Reaches inode bid ∧ r = some x ∧ Reads s s1 ∧ body bid s1 = .ok (some x, s') := by
  -- the blocks from number `k` on
  suffices ∀ fuel k s, (∀ j < k, readBid s.cache.view inode j ≠ 0) →
      forEachBlock inode body fuel (posAt k) s = .ok (r, s') →
      (r = none ∧ Reads s s' ∧ ∀ j, k ≤ j → (∀ l ≤ j, readBid s.cache.view inode l ≠ 0) →
        q (s.entries (readBid s.cache.view inode j))) ∨
      ∃ bid x s1, s.Reaches inode bid ∧ r = some x ∧ Reads s s1 ∧ body bid s1 = .ok (some x, s') by
    rw [forBlocks, ← posAt_zero] at h
    rcases this _ 0 s nofun h with ⟨hr, hs', hall⟩ | hsome
    · refine .inl ⟨hr, hs', ?_⟩
      rintro bid ⟨j, hj, rfl⟩
      exact hall j (Nat.zero_le j) hj
    · exact .inr hsome
  intro fuel
  induction fuel with
  | zero => exact fun k s _ h => nomatch h
  | succ fuel ih =>
    intro k s hpast h
    obtain ⟨hzero, s1, hs1, heq⟩ | ⟨hpast', s1, hs1, _, heq⟩ := forEachBlock_succ hpast
    · cases heq.symm.trans h
      exact .inl ⟨rfl, hs1, fun j hj hread => absurd hzero (hread k hj)⟩
    · rw [heq] at h
      obtain ⟨⟨b, s2⟩, hbody, h⟩ := bind_eq_ok h
      cases b with
      | some x =>
        cases h
        exact .inr ⟨_, x, _, ⟨k, hpast', rfl⟩, rfl, hs1, hbody⟩
      | none =>
        obtain ⟨hs2, hq⟩ := hnone _ _ _ hbody
        have hs2' := hs1.trans hs2
        rcases ih (k + 1) _ (hs2'.past hpast') h with
          ⟨hr, hs', hall⟩ | ⟨bid, x, s3, hbid, hr, hs3, hbody'⟩
        · obtain ⟨cache1, _, rfl⟩ := hs1
          obtain ⟨cache2, hcache2, rfl⟩ := id hs2'
          refine .inl ⟨hr, hs2'.trans hs', fun j hj hread => ?_⟩
          rcases Nat.lt_or_eq_of_le hj with hlt | rfl
          · have hnext := hall j hlt
            rw [hcache2.view] at hnext
            exact hnext hread
          · exact hq
        · exact .inr ⟨bid, x, s3, hs2'.reaches.1 hbid, hr, hs2'.trans hs3, hbody'⟩

theorem forBlocks_returns (hbody : ∀ bid s, bid ∈ s.dirBlocks → s.cache.Valid (ext2Block2Lba bid) →
      ∃ r s1, body bid s = .ok (r, s1) ∧ (r = none → Reads s s1))
    (hblocks : ∀ bid, s.Reaches inode bid → bid ∈ s.dirBlocks) :
    ∃ r s', s.forBlocks inode body = .ok (r, s') := by
  suffices ∀ fuel k s, posEnd < k + fuel → (∀ j < k, readBid s.cache.view inode j ≠ 0) →
      (∀ bid, s.Reaches inode bid → bid ∈ s.dirBlocks) →
      ∃ r s', forEachBlock inode body fuel (posAt k) s = .ok (r, s') by
    rw [forBlocks, ← posAt_zero]
    exact this _ 0 s (by decide) nofun hblocks
  intro fuel
  induction fuel with
  | zero =>
    intro k s hfuel hpast _
    have := le_posEnd hpast
    omega
  | succ fuel ih =>
    intro k s hfuel hpast hblocks
    obtain ⟨_, s1, _, heq⟩ | ⟨hpast', s1, hs1, hvalid, heq⟩ := forEachBlock_succ hpast
    · exact ⟨none, s1, heq⟩
    · have hmem := hblocks _ ⟨k, hpast', rfl⟩
      obtain ⟨b, s2, hb, hmiss⟩ := hbody _ s1 (by obtain ⟨_, _, rfl⟩ := hs1; exact hmem) hvalid
      rw [heq, hb, ok_bind]
      cases b with
      | some x => exact ⟨some x, s2, rfl⟩
      | none =>
        have hs2 := hs1.trans (hmiss rfl)
        refine ih (k + 1) s2 (by omega) (hs2.past hpast') fun bid hbid => ?_
        have hmem := hblocks bid (hs2.reaches.1 hbid)
        obtain ⟨_, _, rfl⟩ := hs2
        exact hmem

theorem inodeGet_eq (h : s.inodeGet = .ok (p, state, s')) :
    ∃ inoCache, s.inoCache = (p, state) :: inoCache ∧ s' = { s with inoCache } := by
  rw [inodeGet] at h
  split at h
  · cases h
  · rename_i inoCache hino
    cases h
    exact ⟨inoCache, hino, rfl⟩

theorem directoryGet_eq (h : s.directoryGet = .ok (d, s')) :
    ∃ dirCache, s.dirCache = d :: dirCache ∧ s' = { s with dirCache } := by
  rw [directoryGet] at h
  split at h
  · cases h
  · rename_i dirCache hdirs
    cases h
    exact ⟨dirCache, hdirs, rfl⟩

theorem directoryAlloc_eq {parent : Option Nat} {sb : Bool}
    (h : s.directoryAlloc name ino parent p sb = .ok (d, s')) :
    ∃ dirCache, s.dirCache = d :: dirCache ∧ s' = Mount.setDir { s with dirCache } d
      { ino, inode := some p, name, sb, parent, child := [], brother := none } := by
  obtain ⟨⟨d', s1⟩, hget, h⟩ := bind_eq_ok h
  obtain ⟨dirCache, hdirs, rfl⟩ := directoryGet_eq hget
  obtain ⟨name', hname, h⟩ := bind_eq_ok h
  obtain ⟨_, _, hname⟩ := bind_eq_ok hname
  cases hname
  cases h
  exact ⟨dirCache, hdirs, rfl⟩

theorem markInodeDirty_eq_ok (h : s.markInodeDirty p state = .ok s') :
    ∃ i inodeDirty, s.inodes p = some i ∧ s' = { s with
      inodes := update s.inodes p
        (some { i with toInode := QuarkOS.markInodeDirty i.toInode state })
      inodeDirty } := by
  obtain ⟨i, hi, h⟩ := bind_eq_ok h
  dsimp only at h
  split at h
  · cases h
    exact ⟨i, _, inode_eq_ok.1 hi, rfl⟩
  · cases h
    exact ⟨i, _, inode_eq_ok.1 hi, rfl⟩

theorem getRawInode_reads {page : Nat} (h : s.getRawInode ino = .ok (page, s')) : Reads s s' := by
  obtain ⟨blkNo, _, h⟩ := bind_eq_ok h
  obtain ⟨cache, hblock, hbecomes, _⟩ := ext2BlockRead_ok s.cache blkNo
  rw [hblock, ok_bind] at h
  dsimp only at h
  split at h
  · cases h
    exact ⟨cache, hbecomes, rfl⟩
  · cases h

theorem inodeCpy_eq (h : s.inodeCpy ino = .ok (p, s')) :
    ∃ cache state inoCache state' inodeDirty, s.cache.Becomes cache s.cache.view ∧
      s.inoCache = (p, state) :: inoCache ∧
      s' = { s.setInode p ((s.raw ino).info state') with cache, inoCache, inodeDirty } := by
  obtain ⟨⟨_, s1⟩, hraw, h⟩ := bind_eq_ok h
  dsimp only at h
  obtain ⟨⟨q, state, s2⟩, hget, h⟩ := bind_eq_ok h
  obtain ⟨s3, hmark, h⟩ := bind_eq_ok h
  cases h
  obtain ⟨cache, hbecomes, rfl⟩ := getRawInode_reads hraw
  obtain ⟨inoCache, hino, rfl⟩ := inodeGet_eq hget
  obtain ⟨i, inodeDirty, hi, rfl⟩ := markInodeDirty_eq_ok hmark
  rw [inodes_setInode_self] at hi
  cases hi
  obtain ⟨state', hstate⟩ := markInodeDirty_eq ((s.raw ino).info state).toInode .time
  refine ⟨cache, state, inoCache, state', inodeDirty, hbecomes, hino, ?_⟩
  rw [hstate]
  dsimp only [setInode]
  rw [update_idem]
  rfl

theorem setBlock_onlyBlocks {block : List Ext2Dir} (h : s.setBlock bid block = .ok s') :
    OnlyBlocks s s' := by
  obtain ⟨cache, _, h⟩ := bind_eq_ok h
  cases h
  exact ⟨cache, _, rfl⟩

theorem findInBlock_eq {r : Option Ext2Dir} (h : findInBlock name bid s = .ok (r, s')) :
    s' = s ∧ r = (s.entries bid).find? fun dir => dir.Matches name := by
  obtain ⟨block, hblock, h⟩ := bind_eq_ok h
  obtain ⟨_, rfl⟩ := block_eq_ok.1 hblock
  cases h
  exact ⟨rfl, rfl⟩

theorem findInBlock_reads {r : Option Ext2Dir} (h : findInBlock name bid s = .ok (r, s')) : Reads s s' :=
  (findInBlock_eq h).1 ▸ .refl s

theorem createIn_onlyBlocks {type : Nat} {b : Option Unit}
    (h : createIn ino name type bid s = .ok (b, s')) : OnlyBlocks s s' := by
  obtain ⟨block, _, h⟩ := bind_eq_ok h
  obtain ⟨created, _, h⟩ := bind_eq_ok h
  cases created with
  | none =>
    cases h
    exact (OnlyCache.refl s).blocks
  | some block' =>
    obtain ⟨s1, hset, h⟩ := bind_eq_ok h
    cases h
    exact setBlock_onlyBlocks hset

theorem removeIn_onlyBlocks {b : Option Unit}
    (h : removeIn name bid s = .ok (b, s')) : OnlyBlocks s s' := by
  obtain ⟨block, _, h⟩ := bind_eq_ok h
  split at h
  · cases h
    exact (OnlyCache.refl s).blocks
  · obtain ⟨s1, hset, h⟩ := bind_eq_ok h
    cases h
    exact setBlock_onlyBlocks hset

theorem removeFromParent_onlyBlocks {parent target : Nat} (h : s.removeFromParent parent target = .ok s') :
    OnlyBlocks s s' := by
  obtain ⟨dir, _, h⟩ := bind_eq_ok h
  simp only [bind_ok_iff, Prod.exists] at h
  obtain ⟨name, _, i, _, b, s1, hloop, h⟩ := h
  cases h
  exact forBlocks_onlyBlocks (fun _ _ _ _ => removeIn_onlyBlocks) hloop

/-- A live entry other than `.` and `..`. -/
def OtherEntry (dir : Ext2Dir) : Prop := dir.inode ≠ 0 ∧ dir.name ≠ dot ∧ dir.name ≠ dotDot

instance (dir : Ext2Dir) : Decidable (OtherEntry dir) := inferInstanceAs (Decidable (_ ∧ _ ∧ _))

/-- The blocks of the directory that `for_each_block` comes to hold no entry but `.` and `..`. -/
def SeenVacant (s : Mount) (inode : Inode) : Prop :=
  ∀ bid, s.Reaches inode bid → ∀ dir ∈ s.entries bid, ¬ OtherEntry dir

theorem otherIn_eq {b : Option Unit} (h : otherIn bid s = .ok (b, s')) :
    s' = s ∧ (b = none ↔ ∀ dir ∈ s.entries bid, ¬ OtherEntry dir) := by
  obtain ⟨block, hblock, h⟩ := bind_eq_ok h
  obtain ⟨_, rfl⟩ := block_eq_ok.1 hblock
  split at h
  · rename_i hany
    obtain ⟨dir, hdir, hother⟩ := List.any_eq_true.1 hany
    cases h
    exact ⟨rfl, nofun, fun hall => absurd (of_decide_eq_true hother) (hall dir hdir)⟩
  · rename_i hnone
    cases h
    exact ⟨rfl, fun _ dir hdir hother => hnone (List.any_eq_true.2 ⟨dir, hdir, decide_eq_true hother⟩),
      fun _ => rfl⟩

theorem dirEmpty_spec {b : Bool} (h : s.dirEmpty p = .ok (b, s')) :
    ∃ i, s.inodes p = some i ∧ Reads s s' ∧ (b = true ↔ i.linkCnt = 2 ∧ s.SeenVacant i.toInode) := by
  obtain ⟨i, hi, h⟩ := bind_eq_ok h
  obtain ⟨_, _, h⟩ := bind_eq_ok h
  refine ⟨i, inode_eq_ok.1 hi, ?_⟩
  dsimp only at h
  split at h
  · rename_i hcnt
    cases h
    exact ⟨.refl s, nofun, fun h => absurd h.1 hcnt⟩
  · rename_i hcnt
    obtain ⟨⟨r, s1⟩, hloop, h⟩ := bind_eq_ok h
    cases h
    rw [decide_eq_true_iff]
    have hnone : ∀ bid s s1, otherIn bid s = .ok (none, s1) →
        Reads s s1 ∧ ∀ dir ∈ s.entries bid, ¬ OtherEntry dir := by
      intro bid s s1 hbody
      obtain ⟨rfl, hiff⟩ := otherIn_eq hbody
      exact ⟨.refl _, hiff.1 rfl⟩
    rcases forBlocks_spec (q := fun block => ∀ dir ∈ block, ¬ OtherEntry dir) hnone hloop with
      ⟨rfl, hs', hseen⟩ | ⟨bid, u, s1, hbid, rfl, hs1, hbody⟩
    · exact ⟨hs', fun _ => ⟨not_not.1 hcnt, hseen⟩, fun _ => rfl⟩
    · obtain ⟨rfl, hiff⟩ := otherIn_eq hbody
      refine ⟨hs1, nofun, fun hvacant => hiff.2 ?_⟩
      obtain ⟨cache, _, rfl⟩ := hs1
      exact hvacant.2 bid hbid

theorem dirEmpty_reads {b : Bool} (h : s.dirEmpty p = .ok (b, s')) : Reads s s' := by
  obtain ⟨_, _, hreads, _⟩ := dirEmpty_spec h
  exact hreads

def inodesFree (v : Nat → Bytes.Area) (g : Nat) : Nat := freeInodesCnt (v (gdNo g)) (descriptorOffset g)

/-- The group in which `set_inode_bitmap` looks for a free inode. In a directory that is taken for empty it
is the one with the fewest; otherwise the search goes from the group of the directory on. -/
def ChosenGroup (s : Mount) (parent g : Nat) : Prop :=
  ∃ i, s.inodes parent = some i ∧
    (i.linkCnt = 2 ∧ s.SeenVacant i.toInode ∧ LeastFree (inodesFree s.cache.view) s.sb.groupCnt g ∨
      ¬ (i.linkCnt = 2 ∧ s.SeenVacant i.toInode) ∧ ∃ d dir, i.dir = some d ∧ s.dirs d = some dir ∧
        StopsAt (inodesFree s.cache.view) s.sb.groupCnt (s.inodePlace dir.ino).1 g)

theorem findGroup_spec {parent g : Nat} (h : s.findGroup parent = .ok (g, s')) :
    Reads s s' ∧ s.ChosenGroup parent g := by
  obtain ⟨⟨empty, s1⟩, hempty, h⟩ := bind_eq_ok h
  obtain ⟨i, hi, hs1, hiff⟩ := dirEmpty_spec hempty
  obtain ⟨cache1, hcache1, rfl⟩ := hs1
  dsimp only at h
  split at h
  · rename_i htrue
    obtain ⟨⟨groupNo, cache⟩, hmin, h⟩ := bind_eq_ok h
    cases h
    obtain ⟨hcache, hleast⟩ := findGroupMin_eq_ok (fun _ _ => Bytes.load_lt _ _ _) hmin
    rw [hcache1.view] at hcache hleast
    obtain ⟨hcnt, hvacant⟩ := hiff.1 htrue
    exact ⟨⟨cache, hcache1.trans hcache, rfl⟩, i, hi, .inl ⟨hcnt, hvacant, hleast⟩⟩
  · rename_i hfalse
    simp only [bind_ok_iff, Prod.exists] at h
    obtain ⟨i', hi', d, hd, dir, hdir, groupNo, cache, hnext, h⟩ := h
    cases h
    cases hi.symm.trans (inode_eq_ok.1 hi')
    obtain ⟨hcache, hstops⟩ := findGroupNext_stops (k := 0) nofun nofun hnext
    rw [hcache1.view] at hcache hstops
    exact ⟨⟨cache, hcache1.trans hcache, rfl⟩, i, hi, .inr ⟨fun h => hfalse (hiff.2 h), d, dir,
      deref_eq_ok.1 hd, directory_eq_ok.1 hdir, hstops⟩⟩

theorem setInodeBitmap_onlyCache {parent : Nat} (h : s.setInodeBitmap parent = .ok (ino, s')) :
    OnlyCache s s' := by
  obtain ⟨⟨groupNo, s1⟩, hgroup, h⟩ := bind_eq_ok h
  have hs1 := (findGroup_spec hgroup).1.onlyCache
  dsimp only at h
  split at h
  · cases h
  · obtain ⟨⟨buf, cache⟩, _, h⟩ := bind_eq_ok h
    dsimp only at h
    split at h
    · cases h
    · obtain ⟨cache', _, h⟩ := bind_eq_ok h
      cases h
      exact hs1.trans ⟨cache', rfl⟩

theorem clearInodeBitmap_onlyCache (h : s.clearInodeBitmap ino = .ok s') : OnlyCache s s' := by
  rw [clearInodeBitmap] at h
  split at h
  · cases h
  · obtain ⟨⟨buf, cache⟩, _, h⟩ := bind_eq_ok h
    dsimp only at h
    split at h
    · obtain ⟨cache', _, h⟩ := bind_eq_ok h
      cases h
      exact ⟨cache', rfl⟩
    · cases h

theorem countInode_onlyCache {free dirs : Nat → Nat} (h : s.countInode ino free dirs = .ok s') :
    OnlyCache s s' := by
  obtain ⟨⟨buf, off, cache⟩, _, h⟩ := bind_eq_ok h
  obtain ⟨cache', _, h⟩ := bind_eq_ok h
  cases h
  exact ⟨cache', rfl⟩

/-- The inode that `inode_alloc` fills in. -/
def newInode (mode : BitVec 16) (state : InodeState) (d : Nat) : InodeInfo where
  state
  type := mode &&& 0xf000
  size := 0
  offset := 0
  blockCnt := 0
  blocks _ := 0
  linkCnt := if mode &&& 0xf000 = ext2IfDir then 2 else 1
  permission := mode &&& 0xfff
  dir := some d
  writelock := false

def newEntry (ino p : Nat) (name : Name) (parent : Option Nat) : Directory :=
  { ino, inode := some p, name, sb := false, parent, child := [], brother := none }

theorem inodeAlloc_eq {parent : Nat} {mode : BitVec 16} (h : s.inodeAlloc parent mode name = .ok (p, s')) :
    ∃ par d n state cache1 cache inoCache dirCache dirs, s.inodes parent = some par ∧
      s.inoCache = (p, state) :: inoCache ∧ s.dirCache = d :: dirCache ∧
      Mount.setInodeBitmap { s with inoCache } parent = .ok (n, { s with inoCache, cache := cache1 }) ∧
      Mount.countInode { (s.setDir d (newEntry n p name par.dir)).setInode p (newInode mode state d) with
        cache := cache1, inoCache, dirCache } n (· + 2 ^ 16 - 1) dirs = .ok s' ∧
      s' = { (s.setDir d (newEntry n p name par.dir)).setInode p (newInode mode state d) with
        cache, inoCache, dirCache } := by
  obtain ⟨par, hpar, h⟩ := bind_eq_ok h
  obtain ⟨⟨q, state, s1⟩, hget, h⟩ := bind_eq_ok h
  obtain ⟨inoCache, hino, rfl⟩ := inodeGet_eq hget
  obtain ⟨⟨n, s2⟩, hbitmap, h⟩ := bind_eq_ok h
  obtain ⟨cache1, rfl⟩ := setInodeBitmap_onlyCache hbitmap
  obtain ⟨⟨d, s3⟩, halloc, h⟩ := bind_eq_ok h
  obtain ⟨dirCache, hdirs, rfl⟩ := directoryAlloc_eq halloc
  dsimp only at h
  split at h
  · cases h
  · obtain ⟨s5, hcount, h⟩ := bind_eq_ok h
    cases h
    have hcount' := hcount
    obtain ⟨cache, rfl⟩ := countInode_onlyCache hcount
    exact ⟨par, d, n, state, cache1, cache, inoCache, dirCache, _, inode_eq_ok.1 hpar, hino, hdirs, hbitmap,
      hcount', rfl⟩

section Freeing

variable {R : Mount → Mount → Prop} (hR : Frame R)
include hR

theorem freePtrs_keeps {free : Nat → Mount → Except Fault Mount} {page fuel j : Nat}
    (hfree : ∀ bid s s', free bid s = .ok s' → R s s')
    (h : freePtrs free page fuel j s = .ok s') : R s s' := by
  induction fuel generalizing j s with
  | zero =>
    cases h
    exact hR.refl _
  | succ fuel ih =>
    rw [freePtrs] at h
    split at h
    · cases h
      exact hR.refl _
    · obtain ⟨s1, hs1, h⟩ := bind_eq_ok h
      exact hR.trans (hfree _ _ _ hs1) (ih h)

theorem foldlM_keeps {f : Mount → Nat → Except Fault Mount} {l : List Nat}
    (hf : ∀ s i s', f s i = .ok s' → R s s') (h : l.foldlM f s = .ok s') : R s s' := by
  induction l generalizing s with
  | nil =>
    cases h
    exact hR.refl _
  | cons i l ih =>
    rw [List.foldlM_cons] at h
    obtain ⟨s1, hs1, h⟩ := bind_eq_ok h
    exact hR.trans (hf _ _ _ hs1) (ih h)

variable (hclear : ∀ bid s s', clearBlock bid s = .ok s' → R s s')
include hclear

theorem freePtr_keeps {layer bid : Nat} (h : freePtr layer bid s = .ok s') : R s s' := by
  induction layer generalizing bid s s' with
  | zero => exact hclear _ _ _ h
  | succ layer ih =>
    obtain ⟨cache, hblock, hcache, _⟩ := ext2BlockRead_ok s.cache bid
    rw [freePtr, hblock, ok_bind] at h
    obtain ⟨s1, hs1, h⟩ := bind_eq_ok h
    have hptrs := freePtrs_keeps hR (fun _ _ _ => ih) hs1
    exact hR.trans (hR.read s cache hcache) (hR.trans hptrs (hclear _ _ _ h))

/-- Freeing the tree of a file keeps what reading blocks and clearing a bit keep. -/
theorem freeBlocks_keeps {blocks : Nat → Nat} (h : freeBlocks blocks s = .ok s') : R s s' := by
  obtain ⟨s1, hs1, h⟩ := bind_eq_ok h
  refine hR.trans (foldlM_keeps hR ?_ hs1) (foldlM_keeps hR ?_ h)
  · intro s i s' hs
    split at hs
    · cases hs
      exact hR.refl _
    · exact hclear _ _ _ hs
  · intro s i s' hs
    split at hs
    · cases hs
      exact hR.refl _
    · exact freePtr_keeps hR hclear hs

end Freeing

theorem clearBlock_onlyFree (h : clearBlock bid s = .ok s') : OnlyFree s s' := by
  obtain ⟨cache, _, h⟩ := bind_eq_ok h
  cases h
  exact ⟨cache, _, rfl⟩

theorem freeBlocks_onlyFree {blocks : Nat → Nat} (h : freeBlocks blocks s = .ok s') : OnlyFree s s' :=
  freeBlocks_keeps ⟨OnlyFree.trans, fun s cache _ => ⟨cache, s.dirBlocks, rfl⟩⟩
    (fun _ _ _ => clearBlock_onlyFree) h

/-- The type of an inode, and the entry that it points back to. -/
def face (s : Mount) (p : Nat) : Option (BitVec 16 × Option Nat) :=
  (s.inodes p).map fun i => (i.type, i.dir)

/-- The entries in memory and what their inodes are have not changed. -/
structure SameTree (s s' : Mount) : Prop where
  dirs : s'.dirs = s.dirs
  face : s'.face = s.face
  dirCache : s'.dirCache = s.dirCache
  inoCache : s'.inoCache = s.inoCache
  root : s'.root = s.root
  cwd : s'.cwd = s.cwd

theorem SameTree.trans (h : SameTree s s') (h' : SameTree s' s'') : SameTree s s'' :=
  ⟨h'.dirs.trans h.dirs, h'.face.trans h.face, h'.dirCache.trans h.dirCache,
    h'.inoCache.trans h.inoCache, h'.root.trans h.root, h'.cwd.trans h.cwd⟩

theorem OnlyBlocks.sameTree (h : OnlyBlocks s s') : SameTree s s' := by
  obtain ⟨_, _, rfl⟩ := h
  exact ⟨rfl, rfl, rfl, rfl, rfl, rfl⟩

theorem setBlock_sameTree {block : List Ext2Dir} (h : s'.setBlock bid block = .ok s'') (hs : SameTree s s') :
    SameTree s s'' :=
  hs.trans (setBlock_onlyBlocks h).sameTree

theorem OnlyFree.sameTree (h : OnlyFree s s') : SameTree s s' := by
  obtain ⟨_, _, rfl⟩ := h
  exact ⟨rfl, rfl, rfl, rfl, rfl, rfl⟩

theorem face_setInode : (s.setInode p i).face = update s.face p (some (i.type, i.dir)) := by
  funext q
  rw [face, setInode]
  exact Function.apply_update (fun _ o => Option.map (fun i : InodeInfo => (i.type, i.dir)) o)
    s.inodes p _ q

theorem SameTree.setInode {i' : InodeInfo} (h : s.inodes p = some i) (htype : i'.type = i.type)
    (hdir : i'.dir = i.dir) : SameTree s (s.setInode p i') where
  dirs := rfl
  face := by
    rw [face_setInode, htype, hdir, update_eq_self_iff, Mount.face, h]
    rfl
  dirCache := rfl
  inoCache := rfl
  root := rfl
  cwd := rfl

theorem markInodeDirty_sameTree (h : s.markInodeDirty p state = .ok s') : SameTree s s' := by
  obtain ⟨i, hi, h⟩ := bind_eq_ok h
  obtain ⟨state', hstate⟩ := markInodeDirty_eq i.toInode state
  dsimp only at h
  rw [hstate] at h
  have hset : SameTree s (s.setInode p { i with state := state' }) :=
    .setInode (inode_eq_ok.1 hi) rfl rfl
  split at h
  · cases h
    exact hset.trans ⟨rfl, rfl, rfl, rfl, rfl, rfl⟩
  · cases h
    exact hset

theorem setLinkCnt_sameTree {cnt : Nat} (h : s.setLinkCnt p cnt = .ok s') : SameTree s s' := by
  obtain ⟨i, hi, h⟩ := bind_eq_ok h
  cases h
  exact .setInode (inode_eq_ok.1 hi) rfl rfl

theorem createDirEntry_sameTree {parent type : Nat}
    (h : s.createDirEntry parent name ino type = .ok s') : SameTree s s' := by
  obtain ⟨i, hi, h⟩ := bind_eq_ok h
  obtain ⟨⟨b, s1⟩, hloop, h⟩ := bind_eq_ok h
  have hs1 := forBlocks_onlyBlocks (fun _ _ _ _ => createIn_onlyBlocks) hloop
  cases b with
  | some _ =>
    cases h
    exact hs1.sameTree
  | none =>
    obtain ⟨_, _, rfl⟩ := hs1
    obtain ⟨⟨bid, node, cache⟩, halloc, h⟩ := bind_eq_ok h
    obtain ⟨⟨_, cache'⟩, _, h⟩ := bind_eq_ok h
    obtain ⟨placed, _, h⟩ := bind_eq_ok h
    obtain ⟨_, _, hnode⟩ := allocBlock_onlyPtrs halloc
    have htype : node.type = i.type := by rw [hnode]
    have hset : SameTree s (s.setInode parent { i with toInode :=
        { node with size := (node.size + blockSize) % 2 ^ 64 } }) :=
      .setInode (inode_eq_ok.1 hi) htype rfl
    apply hset.trans
    cases placed with
    | some _ | none => exact setBlock_sameTree h ⟨rfl, rfl, rfl, rfl, rfl, rfl⟩

theorem makeEmptyDir_sameTree (h : s.makeEmptyDir p = .ok s') : SameTree s s' := by
  obtain ⟨i, _, h⟩ := bind_eq_ok h
  simp only [bind_ok_iff, Prod.exists] at h
  obtain ⟨_, _, _, cache, _, d, _, dir, _, parent, _, parentDir, _, placed, _, h⟩ := h
  cases placed with
  | none => cases h
  | some placed =>
    obtain ⟨placed', _, h⟩ := bind_eq_ok h
    cases placed' with
    | some _ | none => exact setBlock_sameTree h ⟨rfl, rfl, rfl, rfl, rfl, rfl⟩

end Mount

end QuarkOS
