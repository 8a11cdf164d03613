import QuarkOS.Fs.InodeBitmap
import QuarkOS.Fs.Lookup

/-!
# One inode for each number

Which inode an entry in memory leads to. `ext2_inode_mount` copies the inode from the disk for each entry
that has none, so two entries of one number get two inodes, unless the second one was made by `ext2_link`.
The functions do four things to this relation: an entry is made for a number, with an inode or without, gets
an inode of its own, or shares one. A number has one inode as long as an entry is only made for a number
that no other entry bears.
-/

namespace QuarkOS

open Function

namespace Mount

variable {s s' s'' : Mount} {p d ino : Nat} {i : InodeInfo} {dir : Directory}

/-- The number and the inode of an entry. -/
def ident (s : Mount) (d : Nat) : Option (Nat × Option Nat) :=
  (s.dirs d).map fun dir => (dir.ino, dir.inode)

/-- The entry that an inode points back to. -/
def owner (s : Mount) (p : Nat) : Option (Option Nat) := (s.inodes p).map InodeInfo.dir

structure SameNames (s s' : Mount) : Prop where
  ident : s'.ident = s.ident
  owner : s'.owner = s.owner
  dirCache : s'.dirCache = s.dirCache
  inoCache : s'.inoCache = s.inoCache

theorem SameNames.trans (h : SameNames s s') (h' : SameNames s' s'') : SameNames s s'' :=
  ⟨h'.ident.trans h.ident, h'.owner.trans h.owner, h'.dirCache.trans h.dirCache,
    h'.inoCache.trans h.inoCache⟩

theorem ident_setDir : (s.setDir d dir).ident = update s.ident d (some (dir.ino, dir.inode)) := by
  funext e
  rw [ident, setDir]
  exact Function.apply_update (fun _ o => Option.map (fun dir => (dir.ino, dir.inode)) o) s.dirs d _ e

theorem owner_setInode : (s.setInode p i).owner = update s.owner p (some i.dir) := by
  funext q
  rw [owner, setInode]
  exact Function.apply_update (fun _ o => Option.map InodeInfo.dir o) s.inodes p _ q

theorem SameNames.setInode {i' : InodeInfo} (h : s.inodes p = some i) (hdir : i'.dir = i.dir) :
    SameNames s (s.setInode p i') where
  ident := rfl
  owner := by
    rw [owner_setInode, hdir, update_eq_self_iff, Mount.owner, h]
    rfl
  dirCache := rfl
  inoCache := rfl

theorem SameNames.setDir {dir' : Directory} (h : s.dirs d = some dir) (hino : dir'.ino = dir.ino)
    (hinode : dir'.inode = dir.inode) : SameNames s (s.setDir d dir') where
  ident := by
    rw [ident_setDir, hino, hinode, update_eq_self_iff, Mount.ident, h]
    rfl
  owner := rfl
  dirCache := rfl
  inoCache := rfl

theorem owner_eq_face (s : Mount) (p : Nat) : s.owner p = (s.face p).map Prod.snd := by
  rw [face, Option.map_map]
  rfl

theorem SameTree.sameNames (h : SameTree s s') : SameNames s s' where
  ident := by
    funext d
    rw [Mount.ident, h.dirs]
    rfl
  owner := by
    funext p
    rw [owner_eq_face, owner_eq_face, h.face]
  dirCache := h.dirCache
  inoCache := h.inoCache

def Borne (s : Mount) (n : Nat) : Prop := ∃ d o, s.ident d = some (n, o)

/-- The same entries are in memory, under the same numbers. -/
def SameNumbers (s s' : Mount) : Prop := ∀ d n, (∃ o, s'.ident d = some (n, o)) ↔ ∃ o, s.ident d = some (n, o)

variable {n parent fd : Nat} {state : InodeState} {o : Option Nat} {name : Name} {s0 : Mount}

theorem SameNumbers.borne (h : SameNumbers s s') : s'.Borne n ↔ s.Borne n :=
  exists_congr fun d => h d n

/-- Two entries of one number have the same inode. -/
structure Named (s : Mount) : Prop where
  back : ∀ p d, s.owner p = some (some d) → ∃ n, s.ident d = some (n, some p)
  owned : ∀ d n p, s.ident d = some (n, some p) → ∃ e, s.owner p = some (some e) ∧ s.ident e = some (n, some p)
  once : ∀ d d' n o o', s.ident d = some (n, o) → s.ident d' = some (n, o') →
    d = d' ∨ ∃ p, o = some p ∧ o' = some p
  dirFree : ∀ d ∈ s.dirCache, s.ident d = none
  dirNodup : s.dirCache.Nodup
  inoFree : ∀ p ∈ s.inoCache.map Prod.fst, s.owner p = none
  inoNodup : (s.inoCache.map Prod.fst).Nodup

theorem Named.same (h : Named s) (hs : SameNames s s') : Named s' where
  back p d hp := by
    rw [hs.owner] at hp
    rw [hs.ident]
    exact h.back p d hp
  owned d n p hd := by
    rw [hs.ident] at hd ⊢
    rw [hs.owner]
    exact h.owned d n p hd
  once d d' n o o' hd hd' := by
    rw [hs.ident] at hd hd'
    exact h.once d d' n o o' hd hd'
  dirFree := by
    rw [hs.ident, hs.dirCache]
    exact h.dirFree
  dirNodup := by
    rw [hs.dirCache]
    exact h.dirNodup
  inoFree := by
    rw [hs.owner, hs.inoCache]
    exact h.inoFree
  inoNodup := by
    rw [hs.inoCache]
    exact h.inoNodup

theorem Named.takeInode (h : Named s) (hino : s.inoCache = (p, state) :: s'.inoCache)
    (howner : s'.owner = update s.owner p (some (some d))) :
    (∀ q ∈ s'.inoCache.map Prod.fst, s'.owner q = none) ∧ (s'.inoCache.map Prod.fst).Nodup := by
  have hfree := h.inoFree
  have hnodup := h.inoNodup
  rw [hino, List.map_cons] at hfree hnodup
  obtain ⟨hp, hrest⟩ := List.nodup_cons.1 hnodup
  refine ⟨fun q hq => ?_, hrest⟩
  have hne : q ≠ p := fun heq => hp (heq ▸ hq)
  rw [howner, update_of_ne hne]
  exact hfree q (List.mem_cons_of_mem p hq)

theorem Named.takeDir (h : Named s) (hdirs : s.dirCache = d :: s'.dirCache)
    (hident : s'.ident = update s.ident d (some (n, o))) :
    (∀ e ∈ s'.dirCache, s'.ident e = none) ∧ s'.dirCache.Nodup := by
  have hfree := h.dirFree
  have hnodup := h.dirNodup
  rw [hdirs] at hfree hnodup
  obtain ⟨hd, hrest⟩ := List.nodup_cons.1 hnodup
  refine ⟨fun e he => ?_, hrest⟩
  have hne : e ≠ d := fun heq => hd (heq ▸ he)
  rw [hident, update_of_ne hne]
  exact hfree e (List.mem_cons_of_mem d he)

theorem Named.ident_new {dirCache : List Nat} (h : Named s) (hdirs : s.dirCache = d :: dirCache) (m q : Nat) :
    s.ident d ≠ some (m, some q) := by
  rw [h.dirFree d (by rw [hdirs]; exact List.mem_cons_self)]
  exact (Option.some_ne_none _).symm

section Update

variable {e m q : Nat} (hident : s'.ident = update s.ident d (some (n, o)))

include hident

/-- A change of an entry without an inode leaves those with one alone. -/
theorem ident_kept (hd : ∀ m q, s.ident d ≠ some (m, some q)) (he : s.ident e = some (m, some q)) :
    s'.ident e = some (m, some q) := by
  have hed : e ≠ d := by
    rintro rfl
    exact hd m q he
  rw [hident, update_of_ne hed]
  exact he

variable (h : Named s)

include h

theorem Named.once_update (honly : ∀ e o', e ≠ d → s.ident e = some (n, o') → ∃ p, o = some p ∧ o' = some p)
    (e e' m : Nat) (o1 o2 : Option Nat) (he : s'.ident e = some (m, o1)) (he' : s'.ident e' = some (m, o2)) :
    e = e' ∨ ∃ p, o1 = some p ∧ o2 = some p := by
  rw [hident] at he he'
  by_cases hed : e = d
  · by_cases hed' : e' = d
    · exact Or.inl (hed.trans hed'.symm)
    · rw [hed, update_self] at he
      rw [update_of_ne hed'] at he'
      cases he
      exact Or.inr (honly e' o2 hed' he')
  · rw [update_of_ne hed] at he
    by_cases hed' : e' = d
    · rw [hed', update_self] at he'
      cases he'
      obtain ⟨p, ho, ho'⟩ := honly e o1 hed he
      exact Or.inr ⟨p, ho', ho⟩
    · rw [update_of_ne hed'] at he'
      exact h.once e e' m o1 o2 he he'

/-- The entry gets an inode that no other one has. -/
theorem Named.bind (ho : o = some p) (hd : ∀ m q, s.ident d ≠ some (m, some q))
    (hnew : ∀ e o', e ≠ d → s.ident e ≠ some (n, o')) (hino : s.inoCache = (p, state) :: s'.inoCache)
    (howner : s'.owner = update s.owner p (some (some d))) (hfree : ∀ e ∈ s'.dirCache, s'.ident e = none)
    (hnodup : s'.dirCache.Nodup) : Named s' := by
  subst ho
  have hself : s'.ident d = some (n, some p) := by rw [hident, update_self]
  have hp : s.owner p = none := h.inoFree p (by rw [hino]; exact List.mem_cons_self)
  have hino' := h.takeInode hino howner
  refine ⟨fun q e hq => ?_, fun e m q he => ?_,
    h.once_update hident fun e o' hed he => absurd he (hnew e o' hed), hfree, hnodup, hino'.1, hino'.2⟩
  · rw [howner] at hq
    by_cases hqp : q = p
    · rw [hqp, update_self] at hq
      cases hq
      exact ⟨n, hqp ▸ hself⟩
    · rw [update_of_ne hqp] at hq
      obtain ⟨m, he⟩ := h.back q e hq
      exact ⟨m, ident_kept hident hd he⟩
  · rw [howner]
    by_cases hed : e = d
    · subst hed
      cases hself.symm.trans he
      exact ⟨e, update_self .., hself⟩
    · rw [hident, update_of_ne hed] at he
      obtain ⟨e', hq, he'⟩ := h.owned e m q he
      have hqp : q ≠ p := by
        rintro rfl
        cases hp.symm.trans hq
      exact ⟨e', (update_of_ne hqp ..).trans hq, ident_kept hident hd he'⟩

/-- An entry is made that leads to no inode or shares that of another one. -/
theorem Named.join (honly : ∀ e o', s.ident e = some (n, o') → ∃ p, o = some p ∧ o' = some p)
    (hlead : ∀ q, o = some q → ∃ e, s.owner q = some (some e) ∧ s.ident e = some (n, some q))
    (hino : s'.inoCache = s.inoCache) (hdirs : s.dirCache = d :: s'.dirCache) (howner : s'.owner = s.owner) :
    Named s' := by
  have hd := h.ident_new hdirs
  obtain ⟨hfree, hnodup⟩ := h.takeDir hdirs hident
  refine ⟨fun q e hq => ?_, fun e m q he => ?_, h.once_update hident fun e o' _ => honly e o', hfree, hnodup,
    by rw [hino, howner]; exact h.inoFree, by rw [hino]; exact h.inoNodup⟩
  · rw [howner] at hq
    obtain ⟨m, he⟩ := h.back q e hq
    exact ⟨m, ident_kept hident hd he⟩
  · rw [howner]
    have hold : ∃ e', s.owner q = some (some e') ∧ s.ident e' = some (m, some q) := by
      by_cases hed : e = d
      · rw [hed, hident, update_self] at he
        cases he
        exact hlead q rfl
      · rw [hident, update_of_ne hed] at he
        exact h.owned e m q he
    obtain ⟨e', hq, he'⟩ := hold
    exact ⟨e', hq, ident_kept hident hd he'⟩

end Update

theorem Named.mount (h : Named s) (hd : s.ident d = some (n, none))
    (hino : s.inoCache = (p, state) :: s'.inoCache) (hdirs : s'.dirCache = s.dirCache)
    (hident : s'.ident = update s.ident d (some (n, some p)))
    (howner : s'.owner = update s.owner p (some (some d))) : Named s' := by
  refine h.bind hident rfl (fun m q he => ?_) (fun e o' hed he => ?_) hino howner (fun e he => ?_) ?_
  · cases hd.symm.trans he
  · -- an entry of the number of `d` is `d`
    rcases h.once d e n none o' hd he with heq | ⟨q, hq, _⟩
    · exact hed heq.symm
    · cases hq
  · rw [hdirs] at he
    have hed : e ≠ d := by
      rintro rfl
      cases hd.symm.trans (h.dirFree e he)
    rw [hident, update_of_ne hed]
    exact h.dirFree e he
  · rw [hdirs]
    exact h.dirNodup

theorem Named.entry (h : Named s) (hnew : ¬ s.Borne n) (hino : s'.inoCache = s.inoCache)
    (hdirs : s.dirCache = d :: s'.dirCache)
    (hident : s'.ident = update s.ident d (some (n, none))) (howner : s'.owner = s.owner) :
    Named s' :=
  h.join hident (fun e o' he => absurd ⟨e, o', he⟩ hnew) nofun hino hdirs howner

theorem Named.create (h : Named s) (hnew : ¬ s.Borne n)
    (hino : s.inoCache = (p, state) :: s'.inoCache) (hdirs : s.dirCache = d :: s'.dirCache)
    (hident : s'.ident = update s.ident d (some (n, some p)))
    (howner : s'.owner = update s.owner p (some (some d))) : Named s' := by
  obtain ⟨hfree, hnodup⟩ := h.takeDir hdirs hident
  exact h.bind hident rfl (h.ident_new hdirs) (fun e o' _ he => hnew ⟨e, o', he⟩) hino howner hfree hnodup

theorem Named.share {e : Nat} (h : Named s) (hp : s.owner p = some (some e))
    (he : s.ident e = some (n, o)) (hino : s'.inoCache = s.inoCache)
    (hdirs : s.dirCache = d :: s'.dirCache)
    (hident : s'.ident = update s.ident d (some (n, some p))) (howner : s'.owner = s.owner) :
    Named s' := by
  obtain ⟨m, hm⟩ := h.back p e hp
  cases he.symm.trans hm
  refine h.join hident (fun e' o' he' => ?_) (fun q hq => ?_) hino hdirs howner
  · -- an entry of the number leads to the inode
    rcases h.once e e' n (some p) o' he he' with rfl | ⟨q, hq, ho'⟩
    · cases he.symm.trans he'
      exact ⟨p, rfl, rfl⟩
    · exact ⟨q, hq, ho'⟩
  · cases hq
    exact ⟨e, hp, he⟩

theorem addChild_sameNames (h : s.addChild d parent = .ok s') : SameNames s s' := by
  obtain ⟨dir, hdir, h⟩ := bind_eq_ok h
  obtain ⟨parentDir, hparent, h⟩ := bind_eq_ok h
  cases h
  have hd : SameNames s (s.setDir d { dir with brother := some parent }) :=
    SameNames.setDir (directory_eq_ok.1 hdir) rfl rfl
  exact hd.trans (SameNames.setDir (directory_eq_ok.1 hparent) rfl rfl)

theorem delChild_sameNames (h : s.delChild d = .ok s') : SameNames s s' := by
  obtain ⟨dir, hdir, h⟩ := bind_eq_ok h
  obtain ⟨parent, _, h⟩ := bind_eq_ok h
  obtain ⟨parentDir, hparent, h⟩ := bind_eq_ok h
  cases h
  have hd : SameNames s (s.setDir d { dir with brother := none }) :=
    SameNames.setDir (directory_eq_ok.1 hdir) rfl rfl
  exact hd.trans (SameNames.setDir (directory_eq_ok.1 hparent) rfl rfl)

theorem appendLinkToParent_sameNames {type : BitVec 16}
    (h : s.appendLinkToParent parent d type = .ok s') : SameNames s s' := by
  obtain ⟨ft, _, h⟩ := bind_eq_ok h
  simp only [bind_ok_iff] at h
  obtain ⟨dir, _, name, _, s1, hcreate, i, _, parentDir, _, h⟩ := h
  exact (createDirEntry_sameTree hcreate).sameNames.trans (addChild_sameNames h)

theorem appendToParent_sameNames {child : Nat} (h : s.appendToParent parent child = .ok s') :
    SameNames s s' := by
  obtain ⟨i, _, h⟩ := bind_eq_ok h
  obtain ⟨d, _, h⟩ := bind_eq_ok h
  obtain ⟨s1, happend, h⟩ := bind_eq_ok h
  have hs1 := appendLinkToParent_sameNames happend
  split at h
  · obtain ⟨par, _, h⟩ := bind_eq_ok h
    obtain ⟨s2, hcnt, h⟩ := bind_eq_ok h
    exact hs1.trans ((setLinkCnt_sameTree hcnt).sameNames.trans (markInodeDirty_sameTree h).sameNames)
  · cases h
    exact hs1

theorem inodeDelete_sameNames (h : s.inodeDelete p = .ok s') : SameNames s s' := by
  obtain ⟨i, hi, h⟩ := bind_eq_ok h
  dsimp only at h
  split at h
  · cases h
  · simp only [bind_ok_iff] at h
    obtain ⟨s1, hfree, d, _, dir, _, s2, hclear, s3, hdel, s4, hcount, h⟩ := h
    have hs1 := freeBlocks_onlyFree hfree
    have hi1 : s1.inodes p = some i := by
      obtain ⟨_, _, rfl⟩ := hs1
      exact inode_eq_ok.1 hi
    have hset : SameNames s1 (s1.setInode p { i with linkCnt := 0, blockCnt := 0, writelock := true }) :=
      SameNames.setInode hi1 rfl
    have hs3 := (clearInodeBitmap_onlyCache hclear).blocks.sameTree.sameNames.trans (delChild_sameNames hdel)
    have hs' :=
      (countInode_onlyCache hcount).blocks.sameTree.sameNames.trans (markInodeDirty_sameTree h).sameNames
    exact (hs1.sameTree.sameNames.trans hset).trans (hs3.trans hs')

theorem newDirBlock_sameTree (h : s.newDirBlock p = .ok s') : SameTree s s' := by
  obtain ⟨i, hi, h⟩ := bind_eq_ok h
  obtain ⟨⟨bid, node, cache⟩, halloc, h⟩ := bind_eq_ok h
  cases h
  obtain ⟨_, _, rfl⟩ := allocBlock_onlyPtrs halloc
  have hi' : ({ s with cache } : Mount).inodes p = some i := inode_eq_ok.1 hi
  exact (OnlyCache.blocks ⟨cache, rfl⟩).sameTree.trans (.setInode hi' rfl rfl)

/-- The inode that `ext2_inode_mount` gives to an entry. -/
def mountedInode (s : Mount) (d : Nat) (dir : Directory) (state : InodeState) : InodeInfo :=
  { (s.raw dir.ino).info state with dir := some d }

theorem ext2InodeMount_eq (h : s.ext2InodeMount d = .ok s') : ∃ dir, s.dirs d = some dir ∧
    (dir.inode ≠ none ∧ s' = s ∨ dir.inode = none ∧ ∃ p cache state inoCache state' inodeDirty,
      s.cache.Becomes cache s.cache.view ∧ s.inoCache = (p, state) :: inoCache ∧
      s' = { (s.setDir d { dir with inode := some p }).setInode p (s.mountedInode d dir state') with
        cache, inoCache, inodeDirty }) := by
  obtain ⟨dir, hdir, h⟩ := bind_eq_ok h
  refine ⟨dir, directory_eq_ok.1 hdir, ?_⟩
  dsimp only at h
  split at h
  · rename_i hsome
    cases h
    refine .inl ⟨?_, rfl⟩
    rw [hsome]
    exact Option.some_ne_none _
  · rename_i hnone
    simp only [bind_ok_iff, Prod.exists] at h
    obtain ⟨_, _, p, s1, hcpy, i, hi, h⟩ := h
    cases h
    obtain ⟨cache, state, inoCache, state', inodeDirty, hbecomes, hino, rfl⟩ := inodeCpy_eq hcpy
    have hi' := inodes_setInode_self.symm.trans (inode_eq_ok.1 hi)
    cases hi'
    refine .inr ⟨hnone, p, cache, state, inoCache, state', inodeDirty, hbecomes, hino, ?_⟩
    dsimp only [setInode, setDir]
    rw [update_idem]
    rfl

theorem ext2InodeMount_of_some {dir : Directory} (hdir : s.dirs d = some dir) (hp : dir.inode = some p) :
    s.ext2InodeMount d = .ok s := by
  rw [ext2InodeMount, directory_eq_ok.2 hdir, ok_bind]
  dsimp only
  rw [hp]

theorem Named.ext2InodeMount (h : Named s) (hmount : s.ext2InodeMount d = .ok s') : Named s' := by
  obtain ⟨dir, hd, ⟨_, rfl⟩ | ⟨hnone, p, _, state, _, _, _, _, hino, rfl⟩⟩ := ext2InodeMount_eq hmount
  · exact h
  · exact h.mount (by rw [ident, hd, Option.map_some, hnone]) hino rfl ident_setDir owner_setInode

theorem ext2InodeMount_sameNumbers (h : s.ext2InodeMount d = .ok s') : SameNumbers s s' := by
  obtain ⟨dir, hd, ⟨_, rfl⟩ | ⟨hnone, p, _, _, _, _, _, _, _, rfl⟩⟩ := ext2InodeMount_eq h
  · exact fun _ _ => Iff.rfl
  · have hd' : s.ident d = some (dir.ino, none) := by
      rw [ident, hd, Option.map_some, hnone]
    have hident : (s.setDir d { dir with inode := some p }).ident =
        update s.ident d (some (dir.ino, some p)) := ident_setDir
    intro e n
    by_cases hed : e = d
    · subst hed
      have he := (congrFun hident e).trans (update_self ..)
      rw [hd']
      constructor
      · rintro ⟨o, ho⟩
        cases he.symm.trans ho
        exact ⟨none, rfl⟩
      · rintro ⟨o, ho⟩
        cases ho
        exact ⟨some p, he⟩
    · rw [← update_of_ne hed (some (dir.ino, some p)) s.ident, ← hident]
      rfl

/-- The inode of an entry: the one in memory, or the one on the disk that is copied for it. -/
def HasInode (s : Mount) (dir : Directory) (inode : Inode) : Prop :=
  (∃ p i, dir.inode = some p ∧ s.inodes p = some i ∧ inode = i.toInode) ∨
    dir.inode = none ∧ ∃ state, inode = ((s.raw dir.ino).info state).toInode

theorem ext2InodeMount_hasInode {dir dir' : Directory} {i : InodeInfo} (h : s.ext2InodeMount d = .ok s')
    (hdir : s.dirs d = some dir) (hdir' : s'.dirs d = some dir') (hp : dir'.inode = some p)
    (hi : s'.inodes p = some i) :
    s.HasInode dir i.toInode ∧ s'.entries = s.entries ∧ s'.cache.view = s.cache.view := by
  obtain ⟨_, hd, ⟨_, rfl⟩ | ⟨hnone, q, cache, state, _, state', _, hbecomes, _, rfl⟩⟩ := ext2InodeMount_eq h
  · cases hdir.symm.trans hdir'
    exact ⟨.inl ⟨p, i, hp, hi, rfl⟩, rfl, rfl⟩
  · cases hdir.symm.trans hd
    cases (update_self ..).symm.trans hdir'
    cases hp
    cases inodes_setInode_self.symm.trans hi
    exact ⟨.inr ⟨hnone, state', rfl⟩, rfl, hbecomes.view⟩

theorem findEntryDisk_eq (h : s.findEntryDisk p name = .ok (some d, s')) :
    ∃ i bid src cache dirCache parent, s.inodes p = some i ∧ s.Reaches i.toInode bid ∧
      (s.entries bid).find? (fun dir => dir.Matches name) = some src ∧ s.dirCache = d :: dirCache ∧
      s' = Mount.setDir { s with cache, dirCache } d
        { ino := src.inode, inode := none, name, sb := true, parent := some parent, child := []
          brother := none } := by
  obtain ⟨i, hi, h⟩ := bind_eq_ok h
  obtain ⟨⟨found, s1⟩, hloop, h⟩ := bind_eq_ok h
  cases found with
  | none => cases h
  | some src =>
    rcases forBlocks_spec (q := fun _ => True) (fun _ _ _ hbody => ⟨findInBlock_reads hbody, trivial⟩)
      hloop with ⟨hempty, _⟩ | ⟨bid, src', s2, hbid, hsome, hs2, hbody⟩
    · cases hempty
    cases hsome
    obtain ⟨rfl, hsrc⟩ := findInBlock_eq hbody
    obtain ⟨cache, _, rfl⟩ := hs2
    obtain ⟨parent, _, h⟩ := bind_eq_ok h
    obtain ⟨⟨e, s2⟩, hcpy, h⟩ := bind_eq_ok h
    cases h
    obtain ⟨⟨e, s3⟩, hget, hcpy⟩ := bind_eq_ok hcpy
    obtain ⟨dirCache, hdirs, rfl⟩ := directoryGet_eq hget
    obtain ⟨name', hset, hcpy⟩ := bind_eq_ok hcpy
    obtain ⟨_, _, hset⟩ := bind_eq_ok hset
    cases hset
    obtain ⟨parentDir, _, hcpy⟩ := bind_eq_ok hcpy
    split at hcpy
    · cases hcpy
      have hmatch := List.find?_some hsrc.symm
      rw [(of_decide_eq_true hmatch).2]
      exact ⟨i, bid, src, cache, dirCache, parent, inode_eq_ok.1 hi, hbid, hsrc.symm, hdirs, rfl⟩
    · cases hcpy

theorem findEntryDisk_reads (h : s.findEntryDisk p name = .ok (o, s')) : ∃ s1, Reads s s1 ∧
    (o = none ∧ s' = s1 ∨ ∃ d dir dirCache, o = some d ∧ s' = Mount.setDir { s1 with dirCache } d dir) := by
  obtain ⟨i, _, h⟩ := bind_eq_ok h
  obtain ⟨⟨found, s1⟩, hloop, h⟩ := bind_eq_ok h
  refine ⟨s1, forBlocks_reads (fun _ _ _ _ => findInBlock_reads) hloop, ?_⟩
  cases found with
  | none =>
    cases h
    exact .inl ⟨rfl, rfl⟩
  | some src =>
    obtain ⟨parent, _, h⟩ := bind_eq_ok h
    obtain ⟨⟨d, s2⟩, hcpy, h⟩ := bind_eq_ok h
    cases h
    obtain ⟨⟨e, s3⟩, hget, hcpy⟩ := bind_eq_ok hcpy
    obtain ⟨dirCache, _, rfl⟩ := directoryGet_eq hget
    obtain ⟨name', _, hcpy⟩ := bind_eq_ok hcpy
    obtain ⟨parentDir, _, hcpy⟩ := bind_eq_ok hcpy
    split at hcpy
    · cases hcpy
      exact .inr ⟨_, _, dirCache, rfl, rfl⟩
    · cases hcpy

theorem findEntryDisk_none (h : s.findEntryDisk p name = .ok (none, s')) : Reads s s' := by
  obtain ⟨s1, hs1, ⟨_, rfl⟩ | ⟨_, _, _, hsome, _⟩⟩ := findEntryDisk_reads h
  · exact hs1
  · cases hsome

/-- The name is in the list of the directory, or what its blocks have under the name bears a number that no
entry in memory bears. -/
def FindsNew (s : Mount) (parent : Nat) (name : Name) : Prop :=
  ∀ dir inode bid src, s.dirs parent = some dir → s.findEntryCache name dir.child = .ok none →
    s.HasInode dir inode → s.Reaches inode bid →
    (s.entries bid).find? (fun dir => dir.Matches name) = some src → ¬ s.Borne src.inode

theorem Named.ext2Find {r : Option Nat} (h : Named s)
    (hfind : s.ext2Find parent name = .ok (r, s')) (hnew : s.FindsNew parent name) : Named s' := by
  obtain ⟨dir, hdir, hfind⟩ := bind_eq_ok hfind
  obtain ⟨hit, hhit, hfind⟩ := bind_eq_ok hfind
  cases hit with
  | some d =>
    cases hfind
    exact h
  | none =>
    simp only [bind_ok_iff, Prod.exists] at hfind
    obtain ⟨s1, hmount, dir', hdir', p, hp, found, s2, hdisk, hfind⟩ := hfind
    have h1 := h.ext2InodeMount hmount
    cases found with
    | none =>
      cases hfind
      exact h1.same (findEntryDisk_none hdisk).onlyCache.blocks.sameTree.sameNames
    | some d =>
      obtain ⟨s3, hadd, hfind⟩ := bind_eq_ok hfind
      cases hfind
      obtain ⟨i, bid, src, cache, dirCache, q, hi, hbid, hsrc, hdirs, rfl⟩ := findEntryDisk_eq hdisk
      obtain ⟨hinode, hentries, hview⟩ := ext2InodeMount_hasInode hmount (directory_eq_ok.1 hdir)
        (directory_eq_ok.1 hdir') (deref_eq_ok.1 hp) hi
      rw [Reaches, hview] at hbid
      rw [hentries] at hsrc
      have hfresh := hnew dir _ bid src (directory_eq_ok.1 hdir) hhit hinode hbid hsrc
      refine Named.same ?_ (addChild_sameNames hadd)
      exact h1.entry ((ext2InodeMount_sameNumbers hmount).borne.not.2 hfresh) rfl hdirs ident_setDir rfl

theorem ext2Find_none (h : s.ext2Find parent name = .ok (none, s')) : SameNumbers s s' := by
  obtain ⟨dir, _, h⟩ := bind_eq_ok h
  obtain ⟨hit, _, h⟩ := bind_eq_ok h
  cases hit with
  | some d => cases h
  | none =>
    simp only [bind_ok_iff, Prod.exists] at h
    obtain ⟨s1, hmount, dir', _, p, _, found, s2, hdisk, h⟩ := h
    cases found with
    | none =>
      cases h
      intro d n
      rw [(findEntryDisk_none hdisk).onlyCache.blocks.sameTree.sameNames.ident]
      exact ext2InodeMount_sameNumbers hmount d n
    | some d =>
      obtain ⟨s3, _, h⟩ := bind_eq_ok h
      cases h

/-- Every lookup on the way finds an entry in memory, or one of a new number. -/
def PathNew (s : Mount) (path : Name) : Prop := OnPath FindsNew s path

def SplitNew (s : Mount) (path : Name) : Prop := OnSplit FindsNew s path

/-- The inode that is made gets a new number. -/
def AllocNew (s : Mount) (parent : Nat) : Prop :=
  ∀ g no n, s.FreeBit parent g no n → ¬ s.Borne ((n + 1 + g * s.sb.blockPerGroup) % 2 ^ 32)

def CreateNew (s : Mount) (path : Name) : Prop :=
  s.SplitNew path ∧ ∀ parent name s1 i d, s.splitPath path = .ok (some parent, name, s1) →
    s1.inode parent = .ok i → i.dir = some d → s1.FindsNew d name ∧
    ∀ s2, s1.ext2Find d name = .ok (none, s2) → s2.AllocNew parent

/-- The calls that make no entry of a number that another one bears, except by `ext2_link`. -/
def NewNumbers (s : Mount) : NameOp → Prop
  | .lookup path | .find path | .rmdir path | .unlink path => s.PathNew path
  | .mount _ => True
  | .mkdir path | .mkfile path => s.CreateNew path
  | .link src desc => s.PathNew src ∧ ∀ p s1, s.vfsFind src = .ok (some p, s1) → s1.SplitNew desc

theorem walk_named : Walk FindsNew Named := ⟨fun _ _ _ => .ext2InodeMount, fun _ _ _ _ _ => .ext2Find⟩

theorem splitPath_eq {path : Name} {r : Option Nat} (hlen : path.length ≤ (lastName path).length + 1)
    (h : s.splitPath path = .ok (r, name, s')) :
    name = lastName path ∧ s' = s ∧ ∃ parent, s.cwdOf path = .ok parent ∧ r = some parent := by
  rw [Mount.splitPath] at h
  dsimp only at h
  rw [if_pos hlen] at h
  obtain ⟨parent, hparent, h⟩ := bind_eq_ok h
  cases h
  exact ⟨rfl, rfl, parent, hparent, rfl⟩

theorem Named.inodeAlloc {mode : BitVec 16} (h : Named s)
    (halloc : s.inodeAlloc parent mode name = .ok (p, s')) (hnew : s.AllocNew parent) : Named s' := by
  obtain ⟨par, d, n, state, _, _, inoCache, _, _, _, hino, hdirs, hset, _, rfl⟩ := inodeAlloc_eq halloc
  obtain ⟨g, no, m, _, hbit, rfl, _⟩ := setInodeBitmap_spec hset
  exact h.create (hnew g no m ⟨hbit.group, hbit.map, hbit.lt, hbit.clear, hbit.below⟩) hino hdirs ident_setDir
    owner_setInode

variable {parent : Nat} {name path : Name} {ret : Int}

section

variable (h : Named s)
include h

theorem Named.makeEntry {make : Mount → Except Fault Mount}
    (hcall : s.makeEntry parent name make = .ok (ret, s'))
    (hnew : ∀ i d, s.inode parent = .ok i → i.dir = some d → s.FindsNew d name ∧
      ∀ s1, s.ext2Find d name = .ok (none, s1) → s1.AllocNew parent)
    (hmake : ∀ s s', Named s → s.AllocNew parent → make s = .ok s' → Named s') : Named s' := by
  obtain ⟨i, hi, hcall⟩ := bind_eq_ok hcall
  split at hcall
  · obtain ⟨d, hd, hcall⟩ := bind_eq_ok hcall
    obtain ⟨⟨found, s1⟩, hfind, hcall⟩ := bind_eq_ok hcall
    obtain ⟨hfinds, halloc⟩ := hnew i d hi (deref_eq_ok.1 hd)
    have h1 := h.ext2Find hfind hfinds
    cases found with
    | some e =>
      cases hcall
      exact h1
    | none =>
      obtain ⟨s2, hs2, hcall⟩ := bind_eq_ok hcall
      cases hcall
      exact hmake s1 _ h1 (halloc s1 hfind) hs2
  · cases hcall
    exact h

theorem Named.vfsMake {make : Nat → Name → Mount → Except Fault Mount}
    (hcall : s.vfsMake path (fun s parent name => s.makeEntry parent name (make parent name)) = .ok (ret, s'))
    (hnew : s.CreateNew path)
    (hmake : ∀ parent name s s', Named s → s.AllocNew parent → make parent name s = .ok s' → Named s') :
    Named s' := by
  obtain ⟨hsplitNew, hcreate⟩ := hnew
  obtain ⟨⟨r, name, s1⟩, hsplit, hcall⟩ := bind_eq_ok hcall
  have h1 := walk_named.splitPath h hsplit hsplitNew
  cases r with
  | none =>
    cases hcall
    exact h1
  | some parent => exact h1.makeEntry hcall (fun i d => hcreate parent name s1 i d hsplit) (hmake parent name)

theorem Named.vfsMkdir (hcall : s.vfsMkdir path = .ok (ret, s'))
    (hnew : s.CreateNew path) : Named s' := by
  refine h.vfsMake hcall hnew fun parent name s s' h halloc hmake => ?_
  simp only [bind_ok_iff, Prod.exists] at hmake
  obtain ⟨p, s1, hs1, s2, hs2, s3, hs3, s4, hs4, hmake⟩ := hmake
  have hsame := (newDirBlock_sameTree hs2).sameNames.trans (makeEmptyDir_sameTree hs3).sameNames
  have hsame' := (appendToParent_sameNames hs4).trans (markInodeDirty_sameTree hmake).sameNames
  exact (h.inodeAlloc hs1 halloc).same (hsame.trans hsame')

theorem Named.vfsMkfile (hcall : s.vfsMkfile path = .ok (ret, s'))
    (hnew : s.CreateNew path) : Named s' := by
  refine h.vfsMake hcall hnew fun parent name s s' h halloc hmake => ?_
  obtain ⟨⟨p, s1⟩, hs1, hmake⟩ := bind_eq_ok hmake
  obtain ⟨s2, hs2, hmake⟩ := bind_eq_ok hmake
  exact (h.inodeAlloc hs1 halloc).same
    ((appendToParent_sameNames hs2).trans (markInodeDirty_sameTree hmake).sameNames)

theorem Named.removeDir (hcall : s.removeDir p d o = .ok s') : Named s' := by
  obtain ⟨pd, _, hcall⟩ := bind_eq_ok hcall
  simp only [bind_ok_iff] at hcall
  obtain ⟨s1, hmount, dir, _, parent, _, s2, hremove, s3, hdelete, par, _, hcall⟩ := hcall
  split at hcall
  · cases hcall
  · obtain ⟨s4, hcnt, hcall⟩ := bind_eq_ok hcall
    have hsame := (removeFromParent_onlyBlocks hremove).sameTree.sameNames.trans (inodeDelete_sameNames hdelete)
    have hsame' := (setLinkCnt_sameTree hcnt).sameNames.trans (markInodeDirty_sameTree hcall).sameNames
    exact (h.ext2InodeMount hmount).same (hsame.trans hsame')

theorem Named.ext2Rmdir (hcall : s.ext2Rmdir p = .ok (ret, s')) : Named s' := by
  obtain ⟨i, _, hcall⟩ := bind_eq_ok hcall
  split at hcall
  · cases hcall
  · obtain ⟨dir, _, hcall⟩ := bind_eq_ok hcall
    obtain ⟨_, _, hcall⟩ := bind_eq_ok hcall
    split at hcall
    · split at hcall
      · cases hcall
        exact h
      · obtain ⟨⟨empty, s1⟩, hempty, hcall⟩ := bind_eq_ok hcall
        have h1 := h.same (dirEmpty_reads hempty).onlyCache.blocks.sameTree.sameNames
        cases empty with
        | false =>
          cases hcall
          exact h1
        | true =>
          obtain ⟨s2, hremove, hcall⟩ := bind_eq_ok hcall
          cases hcall
          exact h1.removeDir hremove
    · cases hcall
      exact h

theorem Named.ext2Link {src : Nat} (hcall : s.ext2Link src parent name = .ok (ret, s')) :
    Named s' := by
  obtain ⟨i, hi, hcall⟩ := bind_eq_ok hcall
  dsimp only at hcall
  split at hcall
  · split at hcall
    · cases hcall
    · simp only [bind_ok_iff, Prod.exists] at hcall
      obtain ⟨s1, hcnt, e, he, dir, hdir, par, _, new, s2, halloc, s3, happend, s4, hmark, hcall⟩ := hcall
      cases hcall
      have hs1 := (setLinkCnt_sameTree hcnt).sameNames
      have howner : s1.owner src = some (some e) := by
        rw [hs1.owner, owner, inode_eq_ok.1 hi, Option.map_some, deref_eq_ok.1 he]
      have hident : s1.ident e = some (dir.ino, dir.inode) := by
        rw [ident, directory_eq_ok.1 hdir, Option.map_some]
      obtain ⟨dirCache, hdirs, hs2⟩ := directoryAlloc_eq halloc
      have h2 : Named s2 := by
        rw [hs2]
        exact (h.same hs1).share howner hident rfl hdirs ident_setDir rfl
      exact h2.same ((appendLinkToParent_sameNames happend).trans (markInodeDirty_sameTree hmark).sameNames)
  · cases hcall
    exact h

theorem Named.removeLink {file : Nat} (hcall : s.removeLink p parent file = .ok s') :
    Named s' := by
  obtain ⟨i, _, hcall⟩ := bind_eq_ok hcall
  obtain ⟨s1, hcnt, hcall⟩ := bind_eq_ok hcall
  obtain ⟨s2, hremove, hcall⟩ := bind_eq_ok hcall
  have h2 :=
    h.same ((setLinkCnt_sameTree hcnt).sameNames.trans (removeFromParent_onlyBlocks hremove).sameTree.sameNames)
  split at hcall
  · exact h2.same (inodeDelete_sameNames hcall)
  · exact h2.same (markInodeDirty_sameTree hcall).sameNames

theorem Named.ext2Unlink {file : Nat} (hcall : s.ext2Unlink file = .ok (ret, s')) :
    Named s' := by
  obtain ⟨dir, _, hcall⟩ := bind_eq_ok hcall
  simp only [bind_ok_iff] at hcall
  obtain ⟨_, _, s1, hmount, dir', _, p, _, i, _, hcall⟩ := hcall
  have h1 := h.ext2InodeMount hmount
  split at hcall
  · cases hcall
    exact h1
  · simp only [bind_ok_iff] at hcall
    obtain ⟨pd, _, s2, hmount', parentDir, _, parent, _, s3, hremove, hcall⟩ := hcall
    cases hcall
    exact (h1.ext2InodeMount hmount').removeLink hremove

theorem Named.step {op : NameOp} (hstep : s.step op = .ok (ret, s')) (hnew : s.NewNumbers op) :
    Named s' := by
  cases op with
  | lookup path =>
    obtain ⟨⟨found, s1⟩, hfind, hstep⟩ := bind_eq_ok hstep
    cases hstep
    exact walk_named.findDir h hfind hnew
  | find path =>
    obtain ⟨⟨found, s1⟩, hfind, hstep⟩ := bind_eq_ok hstep
    cases hstep
    exact walk_named.vfsFind h hfind hnew
  | mount d =>
    obtain ⟨s1, hmount, hstep⟩ := bind_eq_ok hstep
    cases hstep
    exact h.ext2InodeMount hmount
  | mkdir path => exact h.vfsMkdir hstep hnew
  | mkfile path => exact h.vfsMkfile hstep hnew
  | rmdir path =>
    obtain ⟨⟨found, s1⟩, hfind, hstep⟩ := bind_eq_ok hstep
    have h1 := walk_named.vfsFind h hfind hnew
    cases found with
    | none =>
      cases hstep
      exact h1
    | some p => exact h1.ext2Rmdir hstep
  | unlink path =>
    obtain ⟨⟨found, s1⟩, hfind, hstep⟩ := bind_eq_ok hstep
    have h1 := walk_named.findDir h hfind hnew
    cases found with
    | none =>
      cases hstep
      exact h1
    | some file =>
      obtain ⟨s2, hmount, hstep⟩ := bind_eq_ok hstep
      exact (h1.ext2InodeMount hmount).ext2Unlink hstep
  | link src desc =>
    obtain ⟨hsrc, hdesc⟩ := hnew
    obtain ⟨⟨found, s1⟩, hfind, hstep⟩ := bind_eq_ok hstep
    have h1 := walk_named.vfsFind h hfind hsrc
    cases found with
    | none =>
      cases hstep
      exact h1
    | some p =>
      obtain ⟨⟨r, name, s2⟩, hsplit, hstep⟩ := bind_eq_ok hstep
      have h2 := walk_named.splitPath h1 hsplit (hdesc p s1 hfind)
      cases r with
      | none =>
        cases hstep
        exact h2
      | some parent => exact h2.ext2Link hstep

end

def rootEntry (p : Nat) : Directory :=
  { ino := rootInum, inode := some p, name := [separator], sb := true, parent := none, child := []
    brother := none }

theorem boot_eq (hboot : s.boot fd = .ok s0) :
    ∃ d p cache state inoCache dirCache state' inodeDirty cwd, s.cache.Becomes cache s.cache.view ∧
      s.inoCache = (p, state) :: inoCache ∧ s.dirCache = d :: dirCache ∧
      s0 = { (s.setDir d (rootEntry p)).setInode p (s.mountedInode d (rootEntry p) state') with
        cache, inoCache, dirCache, inodeDirty, cwd, root := d } := by
  obtain ⟨s1, hinit, hboot⟩ := bind_eq_ok hboot
  obtain ⟨dir, _, hboot⟩ := bind_eq_ok hboot
  cases hboot
  obtain ⟨⟨p, s2⟩, hcpy, hinit⟩ := bind_eq_ok hinit
  obtain ⟨⟨d, s3⟩, halloc, hinit⟩ := bind_eq_ok hinit
  obtain ⟨i, hi, hinit⟩ := bind_eq_ok hinit
  cases hinit
  obtain ⟨cache, state, inoCache, state', inodeDirty, hbecomes, hino, rfl⟩ := inodeCpy_eq hcpy
  obtain ⟨dirCache, hdirs, rfl⟩ := directoryAlloc_eq halloc
  have hi' := inodes_setInode_self.symm.trans (inode_eq_ok.1 hi)
  cases hi'
  refine ⟨d, p, cache, state, inoCache, dirCache, state', inodeDirty,
    if fd = 0 then none else dir.inode, hbecomes, hino, hdirs, ?_⟩
  dsimp only [setInode, setDir]
  rw [update_idem]
  rfl

theorem boot_owner (hboot : s.boot fd = .ok s0) :
    ∃ d p state, s.inoCache = (p, state) :: s0.inoCache ∧ s.dirCache = d :: s0.dirCache ∧
      s0.ident = update s.ident d (some (rootInum, some p)) ∧
      s0.owner = update s.owner p (some (some d)) := by
  obtain ⟨d, p, _, state, _, _, _, _, _, _, hino, hdirs, rfl⟩ := boot_eq hboot
  exact ⟨d, p, state, hino, hdirs, ident_setDir, owner_setInode⟩

theorem Blank.ident_eq (h : Blank s) : s.ident = fun _ => none := by
  funext e
  rw [ident, h.dirs]
  rfl

theorem Blank.borne (h : Blank s) (hboot : s.boot fd = .ok s0) (hn : s0.Borne n) : n = rootInum := by
  obtain ⟨d, p, state, _, _, hident, _⟩ := boot_owner hboot
  obtain ⟨e, o, he⟩ := hn
  rw [hident, h.ident_eq] at he
  by_cases hed : e = d
  · subst hed
    rw [update_self] at he
    cases he
    rfl
  · rw [update_of_ne hed] at he
    cases he

theorem Blank.unnamed (h : Blank s) : Named s := by
  refine ⟨?_, ?_, ?_, ?_, h.dirCache, ?_, h.inoCache⟩
  · intro p d hp
    rw [owner, h.inodes] at hp
    cases hp
  · intro d n p hd
    rw [h.ident_eq] at hd
    cases hd
  · intro d d' n o o' hd
    rw [h.ident_eq] at hd
    cases hd
  · intro d _
    rw [h.ident_eq]
  · intro p _
    rw [owner, h.inodes]
    rfl

theorem Blank.named (h : Blank s) (hboot : s.boot fd = .ok s0) : Named s0 := by
  obtain ⟨d, p, state, hino, hdirs, hident, howner⟩ := boot_owner hboot
  refine h.unnamed.create ?_ hino hdirs hident howner
  rintro ⟨e, o, he⟩
  rw [h.ident_eq] at he
  cases he

/-- Entries of one number lead to one inode. -/
def OneInode (s : Mount) : Prop :=
  ∀ d d' dir dir' p p', s.dirs d = some dir → s.dirs d' = some dir' → dir.ino = dir'.ino →
    dir.inode = some p → dir'.inode = some p' → p = p'

theorem Named.oneInode (h : Named s) : OneInode s := by
  intro d d' dir dir' p p' hdir hdir' hino hp hp'
  have hd : s.ident d = some (dir.ino, some p) := by
    rw [ident, hdir, Option.map_some, hp]
  have hd' : s.ident d' = some (dir.ino, some p') := by
    rw [ident, hdir', Option.map_some, hp', hino]
  rcases h.once d d' dir.ino (some p) (some p') hd hd' with rfl | ⟨q, hq, hq'⟩
  · rw [hd] at hd'
    cases hd'
    rfl
  · cases hq
    cases hq'
    rfl

end Mount

variable {s0 : Mount}

theorem NameRun.named {s : Mount} {C : Mount → NameOp → Prop} (hC : ∀ s op, C s op → s.NewNumbers op)
    (hstart : s0.Named) (hrun : NameRun C s0 s) : s.Named := by
  induction hrun with
  | start => exact hstart
  | step _ op hcond hstep ih => exact ih.step hstep (hC _ op hcond)

/-- Calls that make no entry of a number in use keep one inode for each number. -/
theorem nameRun_oneInode {s1 s0 s : Mount} {fd : Nat} (hblank : s1.Blank) (hboot : s1.boot fd = .ok s0)
    (hrun : NameRun Mount.NewNumbers s0 s) : s.OneInode :=
  (hrun.named (fun _ _ h => h) (hblank.named hboot)).oneInode

open Bytes Mount

def smallBlocks (lba i : Nat) : Byte :=
  if lba = 0 ∧ i = 1080 then 0x53
  else if lba = 0 ∧ i = 1081 then 0xef
  else if lba = 8 ∧ i = 12 then 26
  else if lba = 8 ∧ i = 14 then 14
  else if lba = 16 ∧ i = 0 then 0x3f
  else if lba = 24 ∧ i = 0 then 0x03
  else 0

def smallTable (ino : Nat) : Ext2Inode where
  mode := if ino = rootInum then ext2AllRwx ||| ext2IfDir else 0
  size := if ino = rootInum then blockSize else 0
  linkCnt := if ino = rootInum then 2 else 0
  cntSectors := if ino = rootInum then 8 else 0
  blocks := fun i => if ino = rootInum ∧ i = 0 then 5 else 0

def smallDisk : Mount where
  sb := { blockPerGroup := 32, desc := [⟨2⟩] }
  geometry := { inodePerGroup := 16, inodeSize := 128, inodeBitmapAddr := [3], inodeTableAddr := [4] }
  cache := { disk := smallBlocks, bufs := fun _ => none, memory := fun _ _ => 0 }
  raw := smallTable
  rawDisk := smallTable
  dirBlocks := {5}
  entries _ := [⟨rootInum, 12, ext2FtDir, dot⟩, ⟨rootInum, 4084, ext2FtDir, dotDot⟩]
  inodes _ := none
  inoCache := (List.range 4).map fun i => (kernelStart + 0x1000 * (i + 1), .other)
  dirs _ := none
  dirCache := (List.range 4).map fun i => kernelStart + 0x10000 * (i + 1)
  inodeDirty := []
  root := 0
  cwd := none

theorem smallDisk_blank : smallDisk.Blank where
  dirs := rfl
  inodes := rfl
  dirCache := by decide +kernel
  inoCache := by decide +kernel
  inodeDirty := rfl
  clean := nofun
  rawDisk := rfl

def fileA : Name := [separator, 0x61]

def smallMkfile : Except Fault Unit := do
  let s0 ← smallDisk.boot 0
  let (r, name, s1) ← s0.splitPath fileA
  let parent ← deref r
  let i ← s1.inode parent
  let d ← deref i.dir
  let (_, s2) ← s1.ext2Find d name
  assertk (s2.geometry.inodePerGroup = 16 ∧ s2.geometry.inodeBitmapAddr = [3] ∧
    bit (s2.cache.view 24) 1 = true)

/-- The number of the root, which is the only one in memory, is in use. -/
theorem smallDisk_newNumbers (hboot : smallDisk.boot 0 = .ok s0) : s0.NewNumbers (.mkfile fileA) := by
  obtain ⟨_, hrun⟩ := exists_ok (x := smallMkfile) (by decide +kernel)
  obtain ⟨s0', hboot', hrun⟩ := bind_eq_ok hrun
  obtain rfl : s0 = s0' := Except.ok.inj (hboot.symm.trans hboot')
  simp only [bind_ok_iff, Prod.exists] at hrun
  obtain ⟨r, name, s1, hsplit, parent, hparent, i, hi, d, hd, found, s2, hfind, hrun⟩ := hrun
  obtain ⟨hinodes, haddr, hone⟩ := of_assertk hrun
  obtain rfl : r = some parent := deref_eq_ok.1 hparent
  refine ⟨fun hlen => absurd hlen (by decide), ?_⟩
  intro parent' name' s1' i' e hsplit' hi' he
  cases hsplit.symm.trans hsplit'
  cases hi.symm.trans hi'
  cases (deref_eq_ok.1 hd).symm.trans he
  obtain ⟨rfl, rfl, _⟩ := splitPath_eq (by decide) hsplit
  constructor
  · intro dir inode bid src _ _ _ _ hsrc
    obtain ⟨_, _, _, _, _, _, _, _, _, _, _, _, rfl⟩ := boot_eq hboot
    have hnone : (smallDisk.entries 0).find? (fun dir => dir.Matches (lastName fileA)) = none := by decide
    cases hsrc.symm.trans hnone
  · rintro s2' hfind' g no n ⟨_, ⟨addr, hmap, rfl⟩, hn, hclear, _⟩ hborne
    cases hfind.symm.trans hfind'
    rw [haddr] at hmap
    obtain ⟨rfl, rfl⟩ : g = 0 ∧ addr = 3 := by
      cases g with
      | zero => exact ⟨rfl, (Option.some.inj hmap).symm⟩
      | succ g => cases hmap
    have hroot := smallDisk_blank.borne hboot ((ext2Find_none hfind).borne.1 hborne)
    rw [hinodes] at hn
    rw [Nat.zero_mul, Nat.add_zero, Nat.mod_eq_of_lt (by omega), rootInum] at hroot
    obtain rfl : n = 1 := by omega
    cases hone.symm.trans hclear

/-- A file is made in the root. -/
theorem nameRun_oneInode_mkfile : ∃ s0 s, smallDisk.boot 0 = .ok s0 ∧
    NameRun Mount.NewNumbers s0 s ∧ s.OneInode ∧ s.Borne 3 := by
  obtain ⟨_, hrun⟩ := exists_ok (x := do
      let s0 ← smallDisk.boot 0
      let (_, s) ← s0.step (.mkfile fileA)
      assertk ((s.ident (kernelStart + 0x20000)).map Prod.fst = some 3))
    (by decide +kernel)
  obtain ⟨s0, hboot, hrun⟩ := bind_eq_ok hrun
  obtain ⟨⟨ret, s⟩, hstep, hthree⟩ := bind_eq_ok hrun
  have hrun' : NameRun Mount.NewNumbers s0 s := .step .start (.mkfile fileA) (smallDisk_newNumbers hboot) hstep
  refine ⟨s0, s, hboot, hrun', nameRun_oneInode smallDisk_blank hboot hrun', ?_⟩
  obtain ⟨⟨n, o⟩, hident, hn⟩ := Option.map_eq_some_iff.1 (of_assertk hthree)
  cases hn
  exact ⟨_, o, hident⟩

/-- Looking up the name `.` of the root makes a second inode of it. -/
theorem findDot_not_oneInode : ∃ s0 s, smallDisk.boot 0 = .ok s0 ∧ NameRun (fun _ _ => True) s0 s ∧
    ¬ s.OneInode := by
  obtain ⟨_, hrun⟩ := exists_ok (x := do
      let s0 ← smallDisk.boot 0
      let r ← s0.step (.find [separator, 0x2e])
      let dir ← r.2.directory (kernelStart + 0x10000)
      let dir' ← r.2.directory (kernelStart + 0x20000)
      let p ← deref dir.inode
      let p' ← deref dir'.inode
      assertk (dir.ino = dir'.ino ∧ p ≠ p'))
    (by decide +kernel)
  simp only [bind_ok_iff, Prod.exists] at hrun
  obtain ⟨s0, hboot, ret, s, hstep, dir, hdir, dir', hdir', p, hp, p', hp', hrun⟩ := hrun
  obtain ⟨hino, hne⟩ := of_assertk hrun
  refine ⟨s0, s, hboot, .step .start (.find [separator, 0x2e]) trivial hstep, fun hone => hne ?_⟩
  exact hone _ _ dir dir' p p' (directory_eq_ok.1 hdir) (directory_eq_ok.1 hdir') hino
    (deref_eq_ok.1 hp) (deref_eq_ok.1 hp')

end QuarkOS
