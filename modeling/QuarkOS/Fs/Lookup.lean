import QuarkOS.Fs.MountSpec
import QuarkOS.Fs.Names

/-!
# Lookups

`find_dir`, `vfs_find` and `split_path` are made of lookups in one directory and of mounts of one entry. So
what these keep holds after a path was walked (`Walk`), whether it leads to an entry or not, and a relation
that they keep (`Lookup`) holds between the states before and after.
-/

namespace QuarkOS

namespace Mount

variable {R : Mount → Mount → Prop} {C : Mount → Nat → Name → Prop} {P : Mount → Prop} {s s' : Mount} {d : Nat}
  {name path : Name} {o : Option Nat}

/-- Every lookup on the way meets `C`. -/
def OnWay (C : Mount → Nat → Name → Prop) : List Name → Nat → Mount → Prop
  | [], _, _ => True
  | name :: names, dir, s => C s dir name ∧ ∀ d s', s.ext2Find dir name = .ok (some d, s') → OnWay C names d s'

def OnPath (C : Mount → Nat → Name → Prop) (s : Mount) (path : Name) : Prop :=
  ∀ parent i d, s.cwdOf path = .ok parent → s.inode parent = .ok i → i.dir = some d →
    OnWay C (pathNames path) d s

/-- The path of the directory, as `split_path` cuts it off. -/
def parentPath (path : Name) : Name := path.take (path.length - (lastName path).length - 1)

/-- The directory of the path is walked to. -/
def OnSplit (C : Mount → Nat → Name → Prop) (s : Mount) (path : Name) : Prop :=
  (lastName path).length + 1 < path.length → OnPath C s (parentPath path)

/-- A property that a walk keeps if every lookup on the way meets `C`. -/
structure Walk (C : Mount → Nat → Name → Prop) (P : Mount → Prop) : Prop where
  mount : ∀ s s' d, P s → s.ext2InodeMount d = .ok s' → P s'
  find : ∀ s s' d name r, P s → s.ext2Find d name = .ok (r, s') → C s d name → P s'

section Walks

variable (hP : Walk C P) (h : P s)

include hP h

theorem Walk.findNames {names : List Name} (hfind : Mount.findNames names d s = .ok (o, s'))
    (hway : OnWay C names d s) : P s' := by
  induction names generalizing d s with
  | nil =>
    cases hfind
    exact h
  | cons name names ih =>
    obtain ⟨hfirst, hrest⟩ := hway
    obtain ⟨⟨found, s1⟩, hs1, hfind⟩ := bind_eq_ok hfind
    have h1 := hP.find _ _ _ _ _ h hs1 hfirst
    cases found with
    | none =>
      cases hfind
      exact h1
    | some e => exact ih h1 hfind (hrest e s1 hs1)

theorem Walk.findDir (hfind : s.findDir path = .ok (o, s')) (hpath : OnPath C s path) : P s' := by
  obtain ⟨parent, hcwd, hfind⟩ := bind_eq_ok hfind
  obtain ⟨i, hi, hfind⟩ := bind_eq_ok hfind
  obtain ⟨e, he, hfind⟩ := bind_eq_ok hfind
  exact hP.findNames h hfind (hpath parent i e hcwd hi (deref_eq_ok.1 he))

theorem Walk.vfsFind (hfind : s.vfsFind path = .ok (o, s')) (hpath : OnPath C s path) : P s' := by
  obtain ⟨⟨found, s1⟩, hs1, hfind⟩ := bind_eq_ok hfind
  have h1 := hP.findDir h hs1 hpath
  cases found with
  | none =>
    cases hfind
    exact h1
  | some e =>
    obtain ⟨s2, hmount, hfind⟩ := bind_eq_ok hfind
    obtain ⟨dir, _, hfind⟩ := bind_eq_ok hfind
    cases hfind
    exact hP.mount _ _ _ h1 hmount

theorem Walk.splitPath (hsplit : s.splitPath path = .ok (o, name, s')) (hpath : OnSplit C s path) : P s' := by
  rw [Mount.splitPath] at hsplit
  dsimp only at hsplit
  split at hsplit
  · obtain ⟨parent, _, hsplit⟩ := bind_eq_ok hsplit
    cases hsplit
    exact h
  · rename_i hlen
    obtain ⟨⟨parent, s1⟩, hfind, hsplit⟩ := bind_eq_ok hsplit
    cases hsplit
    exact hP.vfsFind h hfind (hpath (Nat.lt_of_not_le hlen))

end Walks

/-- A relation that walking a path keeps. -/
structure Lookup (R : Mount → Mount → Prop) : Prop where
  refl : ∀ s, R s s
  trans : ∀ s s' s'', R s s' → R s' s'' → R s s''
  mount : ∀ s s' d, s.ext2InodeMount d = .ok s' → R s s'
  find : ∀ s s' d name o, s.ext2Find d name = .ok (o, s') → R s s'

/-- A lookup mounts the directory, goes to the blocks, and adds what it finds to the list. -/
theorem Lookup.of_parts (hrefl : ∀ s, R s s) (htrans : ∀ s s' s'', R s s' → R s' s'' → R s s'')
    (hmount : ∀ s s' d, s.ext2InodeMount d = .ok s' → R s s')
    (hdisk : ∀ s s' p name o, s.findEntryDisk p name = .ok (o, s') → R s s')
    (hadd : ∀ s s' d parent, s.addChild d parent = .ok s' → R s s') : Lookup R where
  refl := hrefl
  trans := htrans
  mount := hmount
  find s s' d name o h := by
    obtain ⟨dir, _, h⟩ := bind_eq_ok h
    obtain ⟨hit, _, h⟩ := bind_eq_ok h
    cases hit with
    | some e =>
      cases h
      exact hrefl s
    | none =>
      simp only [bind_ok_iff, Prod.exists] at h
      obtain ⟨s1, hs1, dir', _, p, _, found, s2, hs2, h⟩ := h
      have hrel := htrans _ _ _ (hmount _ _ _ hs1) (hdisk _ _ _ _ _ hs2)
      cases found with
      | none =>
        cases h
        exact hrel
      | some e =>
        obtain ⟨s3, hs3, h⟩ := bind_eq_ok h
        cases h
        exact htrans _ _ _ hrel (hadd _ _ _ _ hs3)

theorem Lookup.walk (hR : Lookup R) (s0 : Mount) : Walk (fun _ _ _ => True) (R s0) where
  mount _ _ _ h hmount := hR.trans _ _ _ h (hR.mount _ _ _ hmount)
  find _ _ _ _ _ h hfind _ := hR.trans _ _ _ h (hR.find _ _ _ _ _ hfind)

theorem onWay_true : ∀ names d s, OnWay (fun _ _ _ => True) names d s
  | [], _, _ => trivial
  | _ :: names, _, _ => ⟨trivial, fun d s' _ => onWay_true names d s'⟩

theorem Lookup.findDir (hR : Lookup R) (h : s.findDir path = .ok (o, s')) : R s s' :=
  (hR.walk s).findDir (hR.refl s) h fun _ _ _ _ _ _ => onWay_true ..

theorem Lookup.vfsFind (hR : Lookup R) (h : s.vfsFind path = .ok (o, s')) : R s s' :=
  (hR.walk s).vfsFind (hR.refl s) h fun _ _ _ _ _ _ => onWay_true ..

theorem Lookup.splitPath (hR : Lookup R) (h : s.splitPath path = .ok (o, name, s')) : R s s' :=
  (hR.walk s).splitPath (hR.refl s) h fun _ _ _ _ _ _ _ => onWay_true ..

end Mount

end QuarkOS
