import QuarkOS.Fs.Blocks

/-!
# Walking over the blocks of a file

`next_block` keeps its place in four counters: the number of direct pointers it has used, and the place
in the indirect trees as three digits of base 1024. `posAt` is the place after a number of blocks. The
loop that follows the pointers takes the digit of each level from the counter below it, so the last
pointer it follows is always number 12, the count of direct pointers: call `k + 1` reads the block
`readBno k` of the file.
-/

namespace QuarkOS

open Bytes PageCache Function

variable {s s' : PageCache} {inode : Inode} {v : Nat → Area}

def posOf (a b c d : Nat) : BlockPos
  | 0 => a
  | 1 => b
  | 2 => c
  | 3 => d
  | _ => 0

/-- The counters after `k` blocks. -/
def posAt (k : Nat) : BlockPos :=
  posOf (min k 12) ((k - 12) % 1024) ((k - 12) / 1024 % 1024) ((k - 12) / (1024 * 1024))

/-- Where the last counter is at its end. -/
def posEnd : Nat := 12 + 1024 * 1024 * 1024

/-- The block of the file that the call after `k` blocks reads. -/
def readBno (k : Nat) : Nat :=
  if k < 12 then k
  else if k < 12 + 1024 then 24
  else if k < 12 + 1024 * 1024 then 12 + 1024 + 12 + (k - 12) % 1024 * 1024
  else 12 + 1024 + 1024 * 1024 + 12 + (k - 12) % 1024 * 1024 +
    (k - 12) / 1024 % 1024 * (1024 * 1024)

/-- What the call after `k` blocks returns. -/
def readBid (v : Nat → Area) (inode : Inode) (k : Nat) : Nat :=
  if k < posEnd then bidOf v inode (readBno k) else 0

theorem posAt_zero : posAt 0 = fun _ => 0 := by
  funext i
  unfold posAt posOf
  split <;> rfl

theorem getLayer_posAt {k : Nat} (hlt : k < posEnd) :
    getLayer (posAt k) = if k < 12 + 1024 then 0 else if k < 12 + 1024 * 1024 then 1 else 2 := by
  unfold posEnd at hlt
  simp only [getLayer, posAt, posOf]
  split_ifs <;> omega

theorem blockPath_readBno {k : Nat} (hle : 12 ≤ k) (hlt : k < posEnd) : blockPath (readBno k) =
      (12 + getLayer (posAt k), idPath (posAt k) (getLayer (posAt k) + 1)) := by
  rw [getLayer_posAt hlt]
  unfold posEnd at hlt
  unfold readBno posAt
  rw [if_neg (Nat.not_lt.2 hle), Nat.min_eq_right hle]
  by_cases h0 : k < 12 + 1024
  · rw [if_pos h0, if_pos h0]
    rfl
  · rw [if_neg h0, if_neg h0]
    by_cases h1 : k < 12 + 1024 * 1024
    · rw [if_pos h1, if_pos h1, blockPath, if_neg (by omega), if_neg (by omega), if_pos (by omega)]
      simp only [idPath, posOf, Prod.mk.injEq, List.cons.injEq, and_true]
      refine ⟨trivial, ?_, ?_⟩ <;> omega
    · rw [if_neg h1, if_neg h1, blockPath, if_neg (by omega), if_neg (by omega), if_neg (by omega)]
      simp only [idPath, posOf, Prod.mk.injEq, List.cons.injEq, and_true]
      refine ⟨trivial, ?_, ?_, ?_⟩ <;> omega

theorem nextBlockLoop_ok (id : BlockPos) (n bid : Nat) (s : PageCache) :
    ∃ r s', nextBlockLoop id n bid s = .ok (r, s') ∧ Becomes s s' s.view ∧
      r.getD 0 = Forest.walk (childOf s.view) bid (idPath id n) ∧ (r = none → r.getD 0 = 0) := by
  induction n generalizing bid s with
  | zero => exact ⟨some bid, s, rfl, .refl s, rfl, nofun⟩
  | succ n ih =>
    rw [nextBlockLoop, idPath, Forest.walk]
    split
    · exact ⟨none, s, rfl, .refl s, rfl, fun _ => rfl⟩
    · obtain ⟨s1, hread, hbecomes, hvalid⟩ := ext2BlockRead_ok s bid
      obtain ⟨r, s2, hloop, hrest, hval, hnone⟩ :=
        ih (ptrAt (s1.data (ext2Block2Lba bid)) (id n)) s1
      rw [hread, ok_bind]
      refine ⟨r, s2, hloop, hbecomes.trans (hbecomes.view ▸ hrest), ?_, hnone⟩
      rw [hval, hvalid.data_eq, hbecomes.view]
      rfl

theorem nextBlock_becomes {id id' : BlockPos} {bid : Nat} {s' : PageCache}
    (h : nextBlock inode id s = .ok (bid, id', s')) : Becomes s s' s.view := by
  rw [nextBlock] at h
  split at h
  · cases h
    exact .refl _
  · split at h
    · cases h
      exact .refl _
    · obtain ⟨r, s1, hloop, hbecomes, _⟩ := nextBlockLoop_ok id (getLayer id + 1)
        (inode.blocks (nDirectBlock + getLayer id)) s
      dsimp only at h
      rw [hloop, ok_bind] at h
      cases r with
      | none =>
        cases h
        exact hbecomes
      | some _ =>
        cases h
        exact hbecomes

theorem update_posOf_zero (a b c d x : Nat) : update (posOf a b c d) 0 x = posOf x b c d := by
  funext i
  rw [update_apply]
  match i with
  | 0 | 1 | 2 | 3 | _ + 4 => rfl

theorem update_posOf_one (a b c d x : Nat) : update (posOf a b c d) 1 x = posOf a x c d := by
  funext i
  rw [update_apply]
  match i with
  | 0 | 1 | 2 | 3 | _ + 4 => rfl

theorem update_posOf_two (a b c d x : Nat) : update (posOf a b c d) 2 x = posOf a b x d := by
  funext i
  rw [update_apply]
  match i with
  | 0 | 1 | 2 | 3 | _ + 4 => rfl

theorem update_posOf_three (a b c d x : Nat) : update (posOf a b c d) 3 x = posOf a b c x := by
  funext i
  rw [update_apply]
  match i with
  | 0 | 1 | 2 | 3 | _ + 4 => rfl

theorem carry_posOf_one (a b c d : Nat) : carry (posOf a b c d) 1 =
    if 1024 ≤ b then posOf a 0 ((c + 1) % 2 ^ 16) d else posOf a b c d := by
  change (if nPtr ≤ b then _ else _) = _
  rw [nPtr_eq, update_posOf_one, update_posOf_two]
  rfl

theorem carry_posOf_two (a b c d : Nat) : carry (posOf a b c d) 2 =
    if 1024 ≤ c then posOf a b 0 ((d + 1) % 2 ^ 16) else posOf a b c d := by
  change (if nPtr ≤ c then _ else _) = _
  rw [nPtr_eq, update_posOf_two, update_posOf_three]
  rfl

theorem carry_posAt {k : Nat} (hle : 12 ≤ k) (hlt : k < posEnd) :
    carry (carry (update (posAt k) 1 ((posAt k 1 + 1) % 2 ^ 16)) 1) 2 = posAt (k + 1) := by
  unfold posEnd at hlt
  have hdigit : ((k - 12) % 1024 + 1) % 2 ^ 16 = (k - 12) % 1024 + 1 :=
    Nat.mod_eq_of_lt (by omega)
  unfold posAt
  rw [posOf, hdigit, update_posOf_one, carry_posOf_one]
  split
  · rw [carry_posOf_two]
    split
    · congr 1 <;> omega
    · congr 1 <;> omega
  · rw [carry_posOf_two, if_neg (by omega)]
    congr 1 <;> omega

theorem nextBlock_posAt {k : Nat} (hlt : k < posEnd) :
    ∃ id s', nextBlock inode (posAt k) s = .ok (bidOf s.view inode (readBno k), id, s') ∧
      Becomes s s' s.view ∧ (bidOf s.view inode (readBno k) ≠ 0 → id = posAt (k + 1)) := by
  have hthree : ¬ nPtr ≤ posAt k 3 := by
    unfold posEnd at hlt
    simp only [nPtr_eq, posAt, posOf]
    omega
  rw [nextBlock, if_neg hthree]
  by_cases hdirect : k < 12
  · have hbno : readBno k = k := if_pos hdirect
    have hpath : blockPath k = (k, []) := if_pos hdirect
    have hzero : posAt k 0 = k := Nat.min_eq_left hdirect.le
    rw [hzero, if_pos (show k < nDirectBlock from hdirect), hbno, bidOf, hpath]
    refine ⟨_, s, rfl, .refl s, fun _ => ?_⟩
    unfold posAt
    rw [update_posOf_zero]
    congr 1 <;> omega
  · have hle := Nat.not_lt.1 hdirect
    have hzero : posAt k 0 = 12 := Nat.min_eq_right hle
    rw [hzero, if_neg (show ¬ 12 < nDirectBlock from Nat.lt_irrefl 12)]
    obtain ⟨r, s', hloop, hbecomes, hval, hnone⟩ := nextBlockLoop_ok (posAt k)
      (getLayer (posAt k) + 1) (inode.blocks (nDirectBlock + getLayer (posAt k))) s
    have hbid : r.getD 0 = bidOf s.view inode (readBno k) := by
      rw [hval, bidOf, blockPath_readBno hle hlt]
      rfl
    dsimp only
    rw [hloop, ok_bind, ← hbid]
    cases r with
    | none => exact ⟨_, s', rfl, hbecomes, fun hne => absurd rfl hne⟩
    | some bid => exact ⟨_, s', rfl, hbecomes, fun _ => carry_posAt hle hlt⟩

theorem nextBlock_readBid {k : Nat} (i : Inode) (hle : k ≤ posEnd) :
    ∃ id s', nextBlock i (posAt k) s = .ok (readBid s.view i k, id, s') ∧
      Becomes s s' s.view ∧ (readBid s.view i k ≠ 0 → id = posAt (k + 1)) := by
  unfold readBid
  split
  · rename_i hlt
    exact nextBlock_posAt hlt
  · rename_i hge
    obtain rfl : k = posEnd := by omega
    rw [nextBlock, if_pos (by decide)]
    exact ⟨_, s, rfl, .refl s, fun hne => absurd rfl hne⟩

/-- The call of `next_block` after `k` others. -/
def nextBlockCall (inode : Inode) (s : PageCache) : Nat → Except Fault (Nat × BlockPos × PageCache)
  | 0 => nextBlock inode (fun _ => 0) s
  | k + 1 => do
    let (_, id, s) ← nextBlockCall inode s k
    nextBlock inode id s

def forEachBlock (inode : Inode) : Nat → BlockPos → PageCache → Except Fault (List Nat × PageCache)
  | 0, _, _ => .error .spin
  | fuel + 1, id, s => do
    let (bid, id, s) ← nextBlock inode id s
    if bid = 0 then .ok ([], s)
    else
      let (bids, s) ← forEachBlock inode fuel id s
      .ok (bid :: bids, s)

theorem le_posEnd {k : Nat} (h : ∀ j < k, readBid v inode j ≠ 0) : k ≤ posEnd := by
  by_contra hgt
  exact h posEnd (Nat.not_le.1 hgt) (if_neg (Nat.lt_irrefl _))

theorem nextBlockCall_ok {k : Nat} (h : ∀ j < k, readBid s.view inode j ≠ 0) :
    ∃ id s', nextBlockCall inode s k = .ok (readBid s.view inode k, id, s') ∧
      Becomes s s' s.view ∧ (readBid s.view inode k ≠ 0 → id = posAt (k + 1)) := by
  induction k with
  | zero =>
    rw [nextBlockCall, ← posAt_zero]
    exact nextBlock_readBid inode (Nat.zero_le _)
  | succ k ih =>
    obtain ⟨id, s1, hcall, hbecomes, hid⟩ := ih fun j hj => h j (Nat.lt_succ_of_lt hj)
    rw [nextBlockCall, hcall, ok_bind]
    dsimp only
    rw [hid (h k (Nat.lt_succ_self k))]
    obtain ⟨id', s2, hnext, hbecomes', hid'⟩ :=
      nextBlock_readBid (s := s1) inode (le_posEnd h)
    rw [hbecomes.view] at hnext hbecomes' hid'
    exact ⟨id', s2, hnext, hbecomes.trans hbecomes', hid'⟩

theorem forEachBlock_ok {k n : Nat} (h : ∀ j < k + n, readBid s.view inode j ≠ 0)
    (hend : readBid s.view inode (k + n) = 0) : ∃ s', forEachBlock inode (n + 1) (posAt k) s =
      .ok ((List.range' k n).map (readBid s.view inode), s') := by
  induction n generalizing k s with
  | zero =>
    rw [Nat.add_zero] at h hend
    obtain ⟨id, s1, hnext, _, _⟩ := nextBlock_readBid (s := s) inode (le_posEnd h)
    rw [forEachBlock, hnext, ok_bind, hend]
    exact ⟨s1, rfl⟩
  | succ n ih =>
    obtain ⟨id, s1, hnext, hbecomes, hid⟩ := nextBlock_readBid (s := s) inode
      (le_posEnd fun j hj => h j (Nat.lt_add_right _ hj))
    have hne := h k (by omega)
    obtain ⟨s2, hrest⟩ := ih (k := k + 1) (s := s1)
      (by rw [hbecomes.view]; exact fun j hj => h j (by omega))
      (by rw [hbecomes.view, Nat.add_assoc, Nat.add_comm 1 n]; exact hend)
    rw [hbecomes.view] at hrest
    refine ⟨s2, ?_⟩
    rw [forEachBlock, hnext, ok_bind]
    dsimp only
    rw [if_neg hne, hid hne, hrest]
    rfl

/-- What `get_bid` finds for a block of the file. -/
def LookedUp (inode : Inode) (s : PageCache) (bno bid : Nat) : Prop :=
  ∃ s', getBid inode bno s = .ok (bid, s')

def Present (inode : Inode) (s : PageCache) (bno : Nat) : Prop :=
  ∃ bid, LookedUp inode s bno bid ∧ bid ≠ 0

/-- `next_block` returns what `get_bid` finds as long as no block is missing, and `for_each_block` goes
over the blocks of a file without holes. -/
structure IteratesBlocks (inode : Inode) (s : PageCache) : Prop where
  call : ∀ k, (∀ j ≤ k, Present inode s j) →
    ∃ bid id s', LookedUp inode s k bid ∧ nextBlockCall inode s k = .ok (bid, id, s')
  visit : ∀ n, (∀ j, Present inode s j ↔ j < n) →
    ∃ fuel bids s', forEachBlock inode fuel (fun _ => 0) s = .ok (bids, s') ∧ bids.length = n ∧
      ∀ j, (hj : j < bids.length) → LookedUp inode s j bids[j]

theorem lookedUp_iff {bno bid : Nat} :
    LookedUp inode s bno bid ↔ bno < maxBno ∧ bid = bidOf s.view inode bno := by
  unfold LookedUp
  rcases Nat.lt_or_ge bno maxBno with hlt | hge
  · obtain ⟨s', hok, _⟩ := getBid_ok hlt inode s
    rw [hok]
    constructor
    · rintro ⟨_, heq⟩
      cases heq
      exact ⟨hlt, rfl⟩
    · rintro ⟨_, rfl⟩
      exact ⟨s', rfl⟩
  · rw [getBid_error hge]
    constructor
    · rintro ⟨_, heq⟩
      cases heq
    · rintro ⟨hlt, _⟩
      omega

theorem present_iff {bno : Nat} : Present inode s bno ↔ bno < maxBno ∧ bidOf s.view inode bno ≠ 0 := by
  constructor
  · rintro ⟨bid, hbid, hne⟩
    obtain ⟨hlt, rfl⟩ := lookedUp_iff.1 hbid
    exact ⟨hlt, hne⟩
  · rintro ⟨hlt, hne⟩
    exact ⟨_, lookedUp_iff.2 ⟨hlt, rfl⟩, hne⟩

/-- The block that a call reads is the block that is due, and there is none after the last. -/
structure ReadsInOrder (inode : Inode) (s : PageCache) : Prop where
  due : ∀ k, (∀ j ≤ k, Present inode s j) → bidOf s.view inode k = readBid s.view inode k
  stop : ∀ n, (∀ j, Present inode s j ↔ j < n) → readBid s.view inode n = 0

theorem ReadsInOrder.read_ne_zero {k : Nat}
    (hdue : ∀ i < k, (∀ j ≤ i, Present inode s j) → bidOf s.view inode i = readBid s.view inode i)
    (hfull : ∀ j < k, Present inode s j) (j : Nat) (hj : j < k) : readBid s.view inode j ≠ 0 := by
  rw [← hdue j hj fun i hi => hfull i (hi.trans_lt hj)]
  exact (present_iff.1 (hfull j hj)).2

theorem IteratesBlocks.due (h : IteratesBlocks inode s) (k : Nat)
    (hfull : ∀ j ≤ k, Present inode s j) : bidOf s.view inode k = readBid s.view inode k := by
  induction k using Nat.strong_induction_on with
  | _ k ih =>
    have hread := ReadsInOrder.read_ne_zero (fun i hi hi' => ih i hi hi')
      fun j hj => hfull j hj.le
    obtain ⟨bid, id, s', hbid, hcall⟩ := h.call k hfull
    obtain ⟨_, rfl⟩ := lookedUp_iff.1 hbid
    obtain ⟨id', s'', hcall', _⟩ := nextBlockCall_ok hread
    exact congrArg Prod.fst (Except.ok.inj (hcall.symm.trans hcall'))

theorem ReadsInOrder.iteratesBlocks (h : ReadsInOrder inode s) : IteratesBlocks inode s := by
  constructor
  · intro k hfull
    have hread := read_ne_zero (fun i _ hi' => h.due i hi') fun j hj => hfull j (Nat.le_of_lt hj)
    obtain ⟨id, s', hcall, _⟩ := nextBlockCall_ok hread
    have hk := (present_iff.1 (hfull k le_rfl)).1
    exact ⟨_, id, s', lookedUp_iff.2 ⟨hk, (h.due k hfull).symm⟩, hcall⟩
  · intro n hpresent
    have hread := read_ne_zero (fun i _ hi' => h.due i hi') fun j hj => (hpresent j).2 hj
    have hread0 : ∀ j < 0 + n, readBid s.view inode j ≠ 0 := by
      rw [Nat.zero_add]
      exact hread
    obtain ⟨s', hok⟩ := forEachBlock_ok hread0 (by rw [Nat.zero_add]; exact h.stop n hpresent)
    rw [posAt_zero] at hok
    refine ⟨n + 1, _, s', hok, by simp, fun j hj => ?_⟩
    have hjn : j < n := by simpa using hj
    rw [lookedUp_iff, List.getElem_map, List.getElem_range', Nat.zero_add, Nat.one_mul]
    have hfull : ∀ i ≤ j, Present inode s i := fun i hi => (hpresent i).2 (hi.trans_lt hjn)
    exact ⟨(present_iff.1 (hfull j le_rfl)).1, (h.due j hfull).symm⟩

/-- No block of the disk is two blocks of the file. -/
def BlocksApart (inode : Inode) (s : PageCache) : Prop :=
  ∀ i j bid, bid ≠ 0 → LookedUp inode s i bid → LookedUp inode s j bid → i = j

theorem readBid_direct {k : Nat} (hk : k < 12) : readBid v inode k = bidOf v inode k := by
  have hend : k < posEnd := hk.trans (by decide)
  rw [readBid, if_pos hend, readBno, if_pos hk]

/-- The thirteenth call reads block 24. -/
theorem readBid_twelve : readBid v inode 12 = bidOf v inode 24 := rfl

theorem bidOf_eq_zero {bno : Nat} (hlt : bno < maxBno) (h : ¬ Present inode s bno) :
    bidOf s.view inode bno = 0 := by
  by_contra hne
  exact h (present_iff.2 ⟨hlt, hne⟩)

theorem readsInOrder_of_not_present {j : Nat} (hj : j ≤ 12) (h : ¬ Present inode s j) :
    ReadsInOrder inode s := by
  refine ⟨fun k hfull => ?_, fun n hpresent => ?_⟩
  · have hk : k < j := by
      by_contra hge
      exact h (hfull j (Nat.le_of_not_lt hge))
    exact (readBid_direct (hk.trans_le hj)).symm
  · have hn : n ≤ j := Nat.le_of_not_lt fun hlt => h ((hpresent j).2 hlt)
    rcases Nat.lt_or_ge n 12 with hlt | hge
    · rw [readBid_direct hlt]
      exact bidOf_eq_zero (hlt.trans (by decide)) fun hn => Nat.lt_irrefl n ((hpresent n).1 hn)
    · -- a file of twelve blocks ends since it has no block 24 either
      obtain rfl : n = 12 := by omega
      rw [readBid_twelve]
      exact bidOf_eq_zero (by decide) fun hlast => absurd ((hpresent 24).1 hlast) (by decide)

/-- Iteration and lookup agree just when one of the first thirteen blocks of the file is missing. -/
theorem iteratesBlocks_iff (hapart : BlocksApart inode s) :
    IteratesBlocks inode s ↔ ∃ j ≤ 12, ¬ Present inode s j := by
  constructor
  · intro h
    by_contra hfull
    push Not at hfull
    -- block 24 would be block 12
    obtain ⟨hlt, hne⟩ := present_iff.1 (hfull 12 le_rfl)
    have hsame : bidOf s.view inode 12 = bidOf s.view inode 24 := h.due 12 hfull
    have heq : 12 = 24 := hapart 12 24 _ hne (lookedUp_iff.2 ⟨hlt, rfl⟩) (lookedUp_iff.2 ⟨by decide, hsame⟩)
    exact absurd heq (by decide)
  · rintro ⟨j, hj, hnot⟩
    exact (readsInOrder_of_not_present hj hnot).iteratesBlocks

theorem bidOf_direct (hzero : ∀ k < 15, 12 ≤ k → inode.blocks k = 0) {bno : Nat}
    (hne : bidOf v inode bno ≠ 0) : bno < 12 ∧ bidOf v inode bno = inode.blocks bno := by
  by_cases hlt : bno < 12
  · refine ⟨hlt, ?_⟩
    rw [bidOf, blockPath, if_pos hlt]
    rfl
  · have hslot : (blockPath bno).1 < 15 ∧ 12 ≤ (blockPath bno).1 := by
      unfold blockPath
      split_ifs <;> omega
    rw [bidOf, hzero _ hslot.1 hslot.2, Forest.walk_zero] at hne
    exact absurd rfl hne

def thirteenBlocks : Inode where
  state := .old
  type := ext2IfReg
  size := 13 * 4096
  offset := 0
  blockCnt := 14
  blocks := fun i => if i < 12 then 40 + i else if i = 12 then 32 else 0

def thirteenCache : PageCache where
  disk := fun no => if no = ext2Block2Lba 32 then setPtrAt (fun _ => 0) 0 33 else fun _ => 0
  bufs := fun _ => none
  memory := fun _ _ => 0

/-- The same file without its indirect block. -/
def twelveBlocks : Inode := { thirteenBlocks with blocks := fun i => if i < 12 then 40 + i else 0 }

theorem twelveBlocks_apart : BlocksApart twelveBlocks thirteenCache := by
  have hbids : ∀ i bid, bid ≠ 0 → LookedUp twelveBlocks thirteenCache i bid → bid = 40 + i := by
    intro i bid hne hbid
    obtain ⟨_, rfl⟩ := lookedUp_iff.1 hbid
    obtain ⟨hlt, heq⟩ := bidOf_direct (fun k _ hk => if_neg (by omega)) hne
    exact heq.trans (if_pos hlt)
  intro i j bid hne hi hj
  have hi' := hbids i bid hne hi
  have hj' := hbids j bid hne hj
  omega

/-- All twelve blocks of the file are visited. -/
theorem iteratesBlocks_iff_twelveBlocks : (∀ j < 12, Present twelveBlocks thirteenCache j) ∧
    IteratesBlocks twelveBlocks thirteenCache := by
  have hbids : ∀ j < 12, bidOf thirteenCache.view twelveBlocks j ≠ 0 := by decide +kernel
  have hend : bidOf thirteenCache.view twelveBlocks 12 = 0 := by decide +kernel
  refine ⟨fun j hj => present_iff.2 ⟨hj.trans (by decide), hbids j hj⟩, ?_⟩
  exact (iteratesBlocks_iff twelveBlocks_apart).2 ⟨12, le_rfl, fun h => (present_iff.1 h).2 hend⟩

/-- The thirteenth call does not return the thirteenth block. -/
theorem thirteenBlocks_not_iteratesBlocks : (∀ j ≤ 12, Present thirteenBlocks thirteenCache j) ∧
    LookedUp thirteenBlocks thirteenCache 12 33 ∧
    (∃ id s', nextBlockCall thirteenBlocks thirteenCache 12 = .ok (0, id, s')) ∧
    ¬ IteratesBlocks thirteenBlocks thirteenCache := by
  have hbids : ∀ j ≤ 12, bidOf thirteenCache.view thirteenBlocks j ≠ 0 := by decide +kernel
  have hpresent : ∀ j ≤ 12, Present thirteenBlocks thirteenCache j := by
    intro j hj
    exact present_iff.2 ⟨hj.trans_lt (by decide), hbids j hj⟩
  have hlast : bidOf thirteenCache.view thirteenBlocks 12 = 33 := by decide +kernel
  have hread : ∀ j < 12, readBid thirteenCache.view thirteenBlocks j ≠ 0 := by decide +kernel
  have hzero : readBid thirteenCache.view thirteenBlocks 12 = 0 := by decide +kernel
  obtain ⟨id, s', hcall, _⟩ := nextBlockCall_ok hread
  rw [hzero] at hcall
  refine ⟨hpresent, lookedUp_iff.2 ⟨by decide, hlast.symm⟩, ⟨id, s', hcall⟩, fun h => ?_⟩
  have hdue := h.due 12 hpresent
  rw [hlast, hzero] at hdue
  exact absurd hdue (by decide)

end QuarkOS
