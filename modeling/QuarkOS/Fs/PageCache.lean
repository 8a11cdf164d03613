import QuarkOS.Base.Prelude
import QuarkOS.Lib.Bytes

/-!
# The page cache

`writeback.c`: disk pages of eight sectors, each cached in one page of memory. A page is named by the
number of its first sector, which is how `page_get` finds it; a page stays cached, since nothing calls
`page_recycle`. The driver sends 28 bits of a sector number to the drive, and a transfer is over when
`page_rw` returns. The locks of the pages are taken and released within each function, and the queue of
the flush thread is not read by any function here, so both are left out.

What the file system goes by is `view`: the cached page where it is valid, and the disk where not.
Reading never changes it.
-/

namespace QuarkOS

open Bytes Function

/-- A cached page with its flags `PG_VALID` and `PG_DIRTY`. -/
structure Buf where
  data : Area
  valid : Bool
  dirty : Bool
  valid_of_dirty : dirty = true → valid = true

/-- The sector that `ide_driver_init` asks the drive for. -/
def lba28 (noSecs : Nat) : Nat := noSecs % 2 ^ 28

structure PageCache where
  disk : Nat → Area
  bufs : Nat → Option Buf
  /-- What the memory that `new_buf` allocates for a page holds. -/
  memory : Nat → Area

namespace PageCache

def setBuf (s : PageCache) (noSecs : Nat) (buf : Buf) : PageCache :=
  { s with bufs := update s.bufs noSecs (some buf) }

def newBuf (s : PageCache) (noSecs : Nat) : Buf where
  data := s.memory noSecs
  valid := false
  dirty := false
  valid_of_dirty := id

def pageGet (s : PageCache) (noSecs : Nat) : Except Fault PageCache := do
  assertk (noSecs &&& 7 = 0)
  match s.bufs noSecs with
  | some _ => .ok s
  | none => .ok (s.setBuf noSecs (s.newBuf noSecs))

/-- The transfer: a dirty page goes to the disk, any other comes from it. -/
def pageRw (s : PageCache) (noSecs : Nat) (buf : Buf) : PageCache :=
  if buf.dirty then
    { s.setBuf noSecs { buf with valid := true, dirty := false, valid_of_dirty := fun _ => rfl } with
      disk := update s.disk (lba28 noSecs) buf.data }
  else
    s.setBuf noSecs
      { data := s.disk (lba28 noSecs), valid := true, dirty := false, valid_of_dirty := fun _ => rfl }

def pageRead (s : PageCache) (noSecs : Nat) : Except Fault PageCache :=
  match s.bufs noSecs with
  | none => .error .assertk
  | some buf => if buf.valid then .ok s else .ok (s.pageRw noSecs buf)

def pageReadNo (s : PageCache) (noSecs : Nat) : Except Fault PageCache := do
  let s ← s.pageGet noSecs
  s.pageRead noSecs

def markPageDirty (s : PageCache) (noSecs : Nat) : Except Fault PageCache :=
  match s.bufs noSecs with
  | none => .error .assertk
  | some buf =>
    if buf.dirty then .ok s
    else .ok (s.setBuf noSecs
      { buf with dirty := true, valid := true, valid_of_dirty := fun _ => rfl })

def data (s : PageCache) (noSecs : Nat) : Area :=
  match s.bufs noSecs with
  | none => s.memory noSecs
  | some buf => buf.data

/-- A store through `page->data`. -/
def setData (s : PageCache) (noSecs : Nat) (data : Area) : PageCache :=
  match s.bufs noSecs with
  | none => s
  | some buf => s.setBuf noSecs { buf with data }

/-- What a reader of the sectors gets. -/
def view (s : PageCache) (noSecs : Nat) : Area :=
  match s.bufs noSecs with
  | none => s.disk (lba28 noSecs)
  | some buf => if buf.valid then buf.data else s.disk (lba28 noSecs)

/-- The page is cached and holds what a reader gets. -/
def Valid (s : PageCache) (noSecs : Nat) : Prop := ∃ buf, s.bufs noSecs = some buf ∧ buf.valid = true

/-- From `s` on the view has become `v`, and no valid page was lost. -/
structure Becomes (s s' : PageCache) (v : Nat → Area) : Prop where
  view : s'.view = v
  valid : ∀ no, s.Valid no → s'.Valid no

variable {s s' s'' : PageCache} {no : Nat}

theorem Becomes.refl (s : PageCache) : Becomes s s s.view := ⟨rfl, fun _ h => h⟩

theorem Becomes.trans {v w : Nat → Area} (h : Becomes s s' v) (h' : Becomes s' s'' w) : Becomes s s'' w :=
  ⟨h'.view, fun no hno => h'.valid no (h.valid no hno)⟩

theorem Valid.data_eq (h : s.Valid no) : s.data no = s.view no := by
  obtain ⟨buf, hbuf, hvalid⟩ := h
  rw [data, view, hbuf]
  exact (if_pos hvalid).symm

theorem bufs_setBuf (s : PageCache) (no : Nat) (buf : Buf) :
    (s.setBuf no buf).bufs = update s.bufs no (some buf) := rfl

theorem view_setBuf {buf : Buf} (hvalid : buf.valid = true) :
    (s.setBuf no buf).view = update s.view no buf.data := by
  funext n
  rw [view, bufs_setBuf]
  by_cases hn : n = no
  · subst hn
    rw [update_self, update_self]
    exact if_pos hvalid
  · rw [update_of_ne hn, update_of_ne hn]
    rfl

theorem valid_setBuf_self {buf : Buf} (hvalid : buf.valid = true) : (s.setBuf no buf).Valid no :=
  ⟨buf, update_self .., hvalid⟩

theorem Valid.setBuf {buf : Buf} {n : Nat} (h : s.Valid n) (hvalid : n = no → buf.valid = true) :
    (s.setBuf no buf).Valid n := by
  by_cases hn : n = no
  · subst hn
    exact valid_setBuf_self (hvalid rfl)
  · obtain ⟨old, hold, hv⟩ := h
    exact ⟨old, (update_of_ne hn ..).trans hold, hv⟩

theorem pageGet_ok (h : no &&& 7 = 0) : ∃ s', s.pageGet no = .ok s' ∧ Becomes s s' s.view ∧
    s'.data no = s.data no ∧ ∃ buf, s'.bufs no = some buf := by
  rw [pageGet, assertk_pos h]
  cases hbuf : s.bufs no with
  | some buf => exact ⟨s, rfl, .refl s, rfl, buf, hbuf⟩
  | none =>
    refine ⟨_, rfl, ⟨?_, ?_⟩, ?_, _, update_self ..⟩
    · funext n
      rw [view, view, bufs_setBuf]
      by_cases hn : n = no
      · subst hn
        rw [update_self, hbuf]
        rfl
      · rw [update_of_ne hn]
        rfl
    · intro n hn
      apply hn.setBuf
      rintro rfl
      obtain ⟨old, hold, _⟩ := hn
      exact absurd (hbuf.symm.trans hold) nofun
    · rw [data, data, bufs_setBuf, update_self, hbuf]
      rfl

theorem pageRw_becomes {buf : Buf} (hbuf : s.bufs no = some buf) (hinvalid : buf.valid = false) :
    Becomes s (s.pageRw no buf) s.view ∧ (s.pageRw no buf).Valid no := by
  have hclean : buf.dirty = false := by
    cases hd : buf.dirty with
    | false => rfl
    | true => exact absurd (buf.valid_of_dirty hd) (by rw [hinvalid]; exact Bool.false_ne_true)
  rw [pageRw, hclean]
  refine ⟨⟨?_, ?_⟩, valid_setBuf_self rfl⟩
  · have hview : s.view no = s.disk (lba28 no) := by
      rw [view, hbuf]
      exact if_neg (by rw [hinvalid]; exact Bool.false_ne_true)
    refine (view_setBuf rfl).trans ?_
    exact update_eq_self_iff.2 hview.symm
  · exact fun n hn => hn.setBuf fun _ => rfl

theorem pageReadNo_ok (h : no &&& 7 = 0) :
    ∃ s', s.pageReadNo no = .ok s' ∧ Becomes s s' s.view ∧ s'.Valid no := by
  obtain ⟨s1, hget, hbecomes, _, buf, hbuf⟩ := pageGet_ok (s := s) h
  rw [pageReadNo, hget, ok_bind, pageRead, hbuf]
  cases hvalid : buf.valid with
  | true => exact ⟨s1, by simp only [hvalid, if_true], hbecomes, buf, hbuf, hvalid⟩
  | false =>
    obtain ⟨hrw, hself⟩ := pageRw_becomes hbuf hvalid
    rw [hbecomes.view] at hrw
    exact ⟨s1.pageRw no buf, by simp only [hvalid]; rfl, hbecomes.trans hrw, hself⟩

/-- The memory of another page stays. -/
theorem data_setBuf {n : Nat} (hne : no ≠ n) (buf : Buf) : (s.setBuf n buf).data no = s.data no := by
  rw [data, bufs_setBuf, update_of_ne hne]
  rfl

theorem pageReadNo_data {n : Nat} (hne : no ≠ n) (h : s.pageReadNo n = .ok s') :
    s'.data no = s.data no := by
  obtain ⟨s1, hget, hread⟩ := bind_eq_ok h
  obtain ⟨_, _, hget⟩ := bind_eq_ok hget
  have h1 : s1.data no = s.data no := by
    split at hget
    · cases hget
      rfl
    · cases hget
      exact data_setBuf hne _
  rw [← h1]
  unfold pageRead at hread
  split at hread
  · cases hread
  · split at hread
    · cases hread
      rfl
    · cases hread
      unfold pageRw
      split
      · exact data_setBuf hne _
      · exact data_setBuf hne _

theorem setData_data {n : Nat} (hne : no ≠ n) (a : Area) : (s.setData n a).data no = s.data no := by
  unfold setData
  split
  · rfl
  · exact data_setBuf hne _

theorem markPageDirty_data {n : Nat} (hne : no ≠ n) (h : s.markPageDirty n = .ok s') :
    s'.data no = s.data no := by
  unfold markPageDirty at h
  split at h
  · cases h
  · split at h
    · cases h
      rfl
    · cases h
      exact data_setBuf hne _

theorem setData_becomes (h : s.Valid no) (data : Area) :
    Becomes s (s.setData no data) (update s.view no data) := by
  obtain ⟨buf, hbuf, hvalid⟩ := h
  rw [setData, hbuf]
  exact ⟨view_setBuf hvalid, fun n hn => hn.setBuf fun _ => hvalid⟩

theorem markPageDirty_ok (h : s.Valid no) : ∃ s', s.markPageDirty no = .ok s' ∧ Becomes s s' s.view := by
  obtain ⟨buf, hbuf, hvalid⟩ := h
  rw [markPageDirty, hbuf]
  cases hd : buf.dirty with
  | true => exact ⟨s, by simp only [hd, if_true], .refl s⟩
  | false =>
    refine ⟨_, by simp only [hd]; rfl, ?_, fun n hn => hn.setBuf fun _ => rfl⟩
    refine (view_setBuf rfl).trans (update_eq_self_iff.2 ?_)
    rw [view, hbuf]
    exact (if_pos hvalid).symm

/-- A page that was only looked up becomes valid with the bytes it has when it is written to. -/
theorem setData_markPageDirty_ok {buf : Buf} (hbuf : s.bufs no = some buf) (data : Area) :
    ∃ s', (s.setData no data).markPageDirty no = .ok s' ∧
      Becomes s s' (update s.view no data) := by
  have hset : s.setData no data = s.setBuf no { buf with data } := by
    rw [setData, hbuf]
  have hbuf' : (s.setBuf no { buf with data }).bufs no = some { buf with data } :=
    update_self ..
  cases hv : buf.valid with
  | true =>
    have hvalid : s.Valid no := ⟨buf, hbuf, hv⟩
    have hbecomes := setData_becomes hvalid data
    have hself : (s.setData no data).Valid no := hbecomes.valid no hvalid
    obtain ⟨s', hok, hs'⟩ := markPageDirty_ok hself
    rw [hbecomes.view] at hs'
    exact ⟨s', hok, hbecomes.trans hs'⟩
  | false =>
    have hclean : buf.dirty = false := by
      cases hd : buf.dirty with
      | false => rfl
      | true => exact absurd (buf.valid_of_dirty hd) (by rw [hv]; exact Bool.false_ne_true)
    rw [hset, markPageDirty, hbuf']
    refine ⟨_, by simp only [hclean]; rfl, ?_, ?_⟩
    · refine (view_setBuf rfl).trans ?_
      funext n
      by_cases hn : n = no
      · subst hn
        rw [update_self, update_self]
      · rw [update_of_ne hn, update_of_ne hn, view, view, bufs_setBuf, update_of_ne hn]
        rfl
    · intro n hn
      refine Valid.setBuf (Valid.setBuf hn ?_) fun _ => rfl
      rintro rfl
      obtain ⟨old, hold, hov⟩ := hn
      rw [hbuf] at hold
      cases hold
      exact hov

end PageCache

end QuarkOS
