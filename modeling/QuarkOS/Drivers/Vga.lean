import QuarkOS.Base.Prelude
import QuarkOS.Lib.Bytes

/-!
# The text screen

`vga.c` on the bytes of the text buffer, for characters that are written after `vga_init`. The reference is
a text of any length: a row is ended by a newline or by its 80th character, and the screen shows the last 25
rows. A row is scrolled out by copying the buffer onto itself, byte by byte and forwards. The writes to the
ports that show the cursor are left out.
-/

namespace QuarkOS

open Bytes Function

/-- `memcpy` within an area; the parts may overlap. -/
def memcpy (dest src n : Nat) (a : Area) : Area :=
  (List.range n).foldl (fun a i => update a (dest + i) (a (src + i))) a

def memset16 (s c n : Nat) (a : Area) : Area :=
  (List.range n).foldl (fun a i => store a (s + 2 * i) 2 c) a

theorem memcpy_apply {dest src : Nat} (hle : dest ≤ src) (n : Nat) (a : Area) (j : Nat) :
    memcpy dest src n a j = if dest ≤ j ∧ j < dest + n then a (src + (j - dest)) else a j := by
  unfold memcpy
  induction n generalizing j with
  | zero => rw [if_neg (by omega)]; rfl
  | succ n ih =>
    rw [List.range_succ, List.foldl_append, List.foldl_cons, List.foldl_nil]
    by_cases hj : j = dest + n
    · -- The byte that is read has not been written yet.
      rw [hj, update_self, ih, if_neg (by omega), if_pos (by omega), Nat.add_sub_cancel_left]
    · rw [update_of_ne hj, ih]
      by_cases hin : dest ≤ j ∧ j < dest + n
      · rw [if_pos hin, if_pos (by omega)]
      · rw [if_neg hin, if_neg (by omega)]

theorem memset16_of_not_mem {s c n j : Nat} {a : Area} (h : j < s ∨ s + 2 * n ≤ j) :
    memset16 s c n a j = a j := by
  unfold memset16
  induction n with
  | zero => rfl
  | succ n ih =>
    rw [List.range_succ, List.foldl_append, List.foldl_cons, List.foldl_nil,
      store_of_not_mem (by omega), ih (by omega)]

theorem load_memset16 {s c n j : Nat} {a : Area} (hc : c < 2 ^ 16) (hj : j < n) :
    load (memset16 s c n a) (s + 2 * j) 2 = c := by
  unfold memset16
  induction n with
  | zero => omega
  | succ n ih =>
    rw [List.range_succ, List.foldl_append, List.foldl_cons, List.foldl_nil]
    by_cases hlast : j = n
    · rw [hlast, load_store]
      exact Nat.mod_eq_of_lt hc
    · rw [load_store_of_disjoint (by omega), ih (by omega)]

def vgaWidth : Nat := 80

def vgaHeight : Nat := 25

def bufIndex (col row : Nat) : Nat := row * vgaWidth + col

def vgaEntry (uc color : Nat) : Nat := uc % 256 ||| (color % 256) <<< 8

/-- The cursor, the colour and the memory from `terminal_buffer` on. -/
structure Vga where
  row : Nat
  col : Nat
  color : Nat
  buffer : Area

namespace Vga

variable (v : Vga)

def space : Nat := vgaEntry 0x20 v.color

def vgaSetBuf (c : Nat) : Vga :=
  { v with buffer := store v.buffer (2 * bufIndex v.col v.row) 2 (vgaEntry c v.color) }

def vgaScrollUp : Vga :=
  let buffer := memcpy 0 (2 * bufIndex 0 1) ((vgaHeight - 1) * vgaWidth * 2) v.buffer
  { v with buffer := memset16 (2 * bufIndex 0 (vgaHeight - 1)) v.space vgaWidth buffer }

def incRow : Vga :=
  { if v.row + 1 = vgaHeight then v.vgaScrollUp else { v with row := v.row + 1 } with col := 0 }

def incCol : Vga := if v.col + 1 = vgaWidth then v.incRow else { v with col := v.col + 1 }

def vgaInit : Vga :=
  let v := { v with row := 0, col := 0, color := 7 ||| 0 <<< 4 }
  { v with buffer := memset16 0 v.space (vgaWidth * vgaHeight) v.buffer }

def newline : Nat := 0x0a

def vgaPutChar (c : Nat) : Vga := if c = newline then v.incRow else (v.vgaSetBuf c).incCol

def decRow : Vga := if v.row ≠ 0 then { v with row := v.row - 1, col := vgaWidth - 1 } else v

def decCol : Vga := if v.col = 0 then v.decRow else { v with col := v.col - 1 }

def vgaDelete : Vga :=
  let v := v.decCol
  { v with buffer := memset16 (2 * bufIndex v.col v.row) v.space 1 v.buffer }

def vgaCursorLeft : Vga := v.decCol

def vgaCursorRight : Vga := v.incCol

def vgaCursorUp : Vga := { v with row := if v.row = 0 then 0 else v.row - 1 }

def vgaCursorDown : Vga :=
  let nr := (v.row + 1) % 256
  { v with row := if vgaHeight ≤ nr then v.row else nr }

def cell (row col : Nat) : Nat := load v.buffer (2 * bufIndex col row) 2

end Vga

/-! ### The reference -/

/-- A text: the rows that are complete, and the one that is being written. -/
structure Text where
  done : List (List Nat)
  cur : List Nat

namespace Text

variable (p : Text)

def empty : Text := ⟨[], []⟩

def endRow : Text := ⟨p.done ++ [p.cur], []⟩

def putChar (c : Nat) : Text :=
  if c = Vga.newline then p.endRow
  else
    let p := { p with cur := p.cur ++ [c] }
    if p.cur.length = vgaWidth then p.endRow else p

/-- The number of rows above the screen. -/
def top : Nat := p.done.length - (vgaHeight - 1)

/-- A character of the text, where there is one. -/
def at? (row col : Nat) : Option Nat := ((p.done ++ [p.cur])[row]?.getD [])[col]?

end Text

/-- The screen has the rows of the text from `top` on, and the cursor is in the last one. The memory behind
the 2000 cells is that of `a`. -/
structure Shows (a : Area) (v : Vga) (p : Text) : Prop where
  color : v.color = 7
  row : v.row = p.done.length - p.top
  cell : ∀ row < vgaHeight, ∀ col < vgaWidth,
    v.cell row col = vgaEntry ((p.at? (p.top + row) col).getD 0x20) 7
  frame : ∀ j, 2 * (vgaWidth * vgaHeight) ≤ j → v.buffer j = a j

variable {a : Area} {v : Vga} {p : Text} {row col c : Nat}

theorem vgaEntry_lt (uc color : Nat) : vgaEntry uc color < 2 ^ 16 := by
  have hcolor : (color % 256) <<< 8 < 2 ^ 16 := by
    rw [Nat.shiftLeft_eq]
    omega
  exact Nat.or_lt_two_pow (by omega) hcolor

namespace Text

theorem at?_cur (p : Text) (col : Nat) : p.at? p.done.length col = p.cur[col]? := by
  simp [at?]

theorem at?_of_ne (hrow : row ≠ p.done.length) (cur : List Nat) :
    { p with cur }.at? row col = p.at? row col := by
  rcases Nat.lt_or_gt_of_ne hrow with hlt | hgt
  · simp [at?, List.getElem?_append_left hlt]
  · have hnil : ∀ r : List Nat, (p.done ++ [r])[row]? = none := by simp; omega
    simp [at?, hnil]

theorem at?_of_lt (hrow : p.done.length < row) : p.at? row col = none := by
  have hnil : (p.done ++ [p.cur])[row]? = none := by simp; omega
  simp [at?, hnil]

/-- A new row is blank, as the rows that are not there yet. -/
theorem at?_endRow (p : Text) (row col : Nat) : p.endRow.at? row col = p.at? row col := by
  by_cases hrow : row < (p.done ++ [p.cur]).length
  · rw [at?, at?, endRow, List.getElem?_append_left hrow]
  · have hnil : (p.done ++ [p.cur])[row]? = none := List.getElem?_eq_none (Nat.not_lt.1 hrow)
    rw [at?, at?, hnil, endRow, List.getElem?_append_right (Nat.not_lt.1 hrow)]
    cases row - (p.done ++ [p.cur]).length <;> simp

end Text

namespace Vga

theorem cell_vgaSetBuf (hcol : col < vgaWidth) (hcur : v.col < vgaWidth) : (v.vgaSetBuf c).cell row col =
      if row = v.row ∧ col = v.col then vgaEntry c v.color else v.cell row col := by
  unfold vgaWidth at *
  split
  · rename_i heq
    rw [cell, heq.1, heq.2, vgaSetBuf, load_store]
    exact Nat.mod_eq_of_lt (vgaEntry_lt ..)
  · refine load_store_of_disjoint ?_
    simp only [bufIndex, vgaWidth]
    omega

theorem cell_vgaScrollUp (hrow : row < vgaHeight) (hcol : col < vgaWidth) :
    v.vgaScrollUp.cell row col = if row + 1 < vgaHeight then v.cell (row + 1) col else v.space := by
  unfold vgaHeight vgaWidth at *
  split
  · have hbyte : ∀ j < 3840, v.vgaScrollUp.buffer j = v.buffer (160 + j) := by
      intro j hj
      refine (memset16_of_not_mem (Or.inl hj)).trans ?_
      rw [memcpy_apply (Nat.zero_le _), if_pos ⟨Nat.zero_le j, hj⟩]
      rfl
    have hoff : 2 * bufIndex col (row + 1) = 160 + 2 * bufIndex col row := by
      simp only [bufIndex, vgaWidth]
      omega
    have hlt : 2 * bufIndex col row + 1 < 3840 := by
      simp only [bufIndex, vgaWidth]
      omega
    simp only [cell, load, hoff, hbyte _ (Nat.lt_of_succ_lt hlt), hbyte _ hlt]
    rfl
  · obtain rfl : row = 24 := by omega
    have hoff : 2 * bufIndex col 24 = 2 * bufIndex 0 24 + 2 * col := by
      simp only [bufIndex]
      omega
    rw [cell, hoff]
    exact load_memset16 (vgaEntry_lt ..) hcol

theorem vgaScrollUp_frame {j : Nat} (hj : 2 * (vgaWidth * vgaHeight) ≤ j) :
    v.vgaScrollUp.buffer j = v.buffer j := by
  unfold vgaWidth vgaHeight at hj
  refine (memset16_of_not_mem (Or.inr hj)).trans ?_
  rw [memcpy_apply (Nat.zero_le _), if_neg (by unfold vgaWidth vgaHeight; omega)]

end Vga

namespace Shows

open Vga

theorem incRow (h : Shows a v p) : Shows a v.incRow p.endRow := by
  have hrow := h.row
  have htop : p.top = p.done.length - 24 := rfl
  have htop' : p.endRow.top = p.done.length + 1 - 24 := by simp [Text.top, Text.endRow, vgaHeight]
  have hdone : p.endRow.done.length = p.done.length + 1 := by simp [Text.endRow]
  unfold Vga.incRow
  split
  · rename_i hlast
    have hfull : v.row = 24 := Nat.succ.inj hlast
    have hnext : p.endRow.top = p.top + 1 := by omega
    refine ⟨h.color, ?_, fun row hr col hc => ?_, fun j hj => ?_⟩
    · change v.row = _
      omega
    · refine (cell_vgaScrollUp hr hc).trans ?_
      rw [hnext, Text.at?_endRow]
      split
      · rename_i hlt
        rw [h.cell _ hlt _ hc, Nat.add_assoc, Nat.add_comm 1]
      · rename_i hge
        unfold vgaHeight at hr hge
        rw [Text.at?_of_lt (by omega), Vga.space, h.color]
        rfl
    · exact (vgaScrollUp_frame hj).trans (h.frame j hj)
  · rename_i hlast
    unfold vgaHeight at hlast
    have hnext : p.endRow.top = p.top := by omega
    refine ⟨h.color, ?_, fun row hr col hc => ?_, h.frame⟩
    · change v.row + 1 = _
      omega
    · rw [hnext, Text.at?_endRow]
      exact h.cell row hr col hc

theorem vgaSetBuf (h : Shows a v p) (hcol : v.col = p.cur.length) (hlt : v.col < vgaWidth) :
    Shows a (v.vgaSetBuf c) { p with cur := p.cur ++ [c] } := by
  have hrow := h.row
  have htop : p.top = p.done.length - 24 := rfl
  refine ⟨h.color, h.row, fun row hr col hc => ?_, fun j hj => ?_⟩
  · rw [cell_vgaSetBuf hc hlt, h.color]
    by_cases hcur : row = v.row
    · have hlast : p.top + row = p.done.length := by omega
      have hold := h.cell row hr col hc
      rw [hlast, Text.at?_cur] at hold
      change _ = vgaEntry (({ p with cur := p.cur ++ [c] }.at? (p.top + row) col).getD 0x20) 7
      rw [hlast, Text.at?_cur { p with cur := p.cur ++ [c] }, List.getElem?_append]
      by_cases heq : col = v.col
      · rw [if_pos ⟨hcur, heq⟩, if_neg (by omega), heq, hcol, Nat.sub_self]
        rfl
      · rw [if_neg (fun hand => heq hand.2), hold]
        split
        · rfl
        · rename_i hge
          rw [List.getElem?_eq_none (Nat.not_lt.1 hge), List.getElem?_eq_none (by simp; omega)]
    · rw [if_neg (fun hand => hcur hand.1), h.cell row hr col hc]
      congr 2
      exact (Text.at?_of_ne (by unfold vgaHeight at hr; omega) _).symm
  · unfold vgaWidth vgaHeight at *
    refine (store_of_not_mem (Or.inr ?_)).trans (h.frame j hj)
    simp only [bufIndex, vgaWidth]
    omega

/-- One character, on the screen and in the text. -/
theorem vgaPutChar (h : Shows a v p) (hcol : v.col = p.cur.length) (hlt : v.col < vgaWidth) (c : Nat) :
    Shows a (v.vgaPutChar c) (p.putChar c) ∧ (v.vgaPutChar c).col = (p.putChar c).cur.length ∧
      (v.vgaPutChar c).col < vgaWidth := by
  by_cases hnew : c = newline
  · rw [Vga.vgaPutChar, if_pos hnew, Text.putChar, if_pos hnew]
    exact ⟨h.incRow, rfl, Nat.succ_pos _⟩
  · have hset := h.vgaSetBuf (c := c) hcol hlt
    have hcur : (v.vgaSetBuf c).col = v.col := rfl
    have hlen : (p.cur ++ [c]).length = v.col + 1 := by simp [hcol]
    rw [Vga.vgaPutChar, if_neg hnew, Text.putChar, if_neg hnew, Vga.incCol, hcur]
    dsimp only
    rw [hlen]
    by_cases hfull : v.col + 1 = vgaWidth
    · rw [if_pos hfull, if_pos hfull]
      exact ⟨hset.incRow, rfl, Nat.succ_pos _⟩
    · rw [if_neg hfull, if_neg hfull]
      exact ⟨⟨hset.color, hset.row, hset.cell, hset.frame⟩, hlen.symm, Nat.lt_of_le_of_ne hlt hfull⟩

theorem vgaInit (v : Vga) : Shows v.buffer v.vgaInit Text.empty := by
  have hcolor : 7 ||| 0 <<< 4 = 7 := by decide
  have hbuffer : v.vgaInit.buffer = memset16 0 (vgaEntry 0x20 7) (vgaWidth * vgaHeight) v.buffer := by
    simp only [Vga.vgaInit, Vga.space, hcolor]
  refine ⟨rfl, rfl, fun row hr col hc => ?_, fun j hj => ?_⟩
  · have hindex : bufIndex col row < vgaWidth * vgaHeight := by
      simp only [vgaHeight, vgaWidth, bufIndex] at *
      omega
    have hload := load_memset16 (s := 0) (a := v.buffer) (vgaEntry_lt 0x20 7) hindex
    rw [Nat.zero_add] at hload
    rw [Vga.cell, hbuffer, hload]
    cases row <;> rfl
  · rw [hbuffer]
    exact memset16_of_not_mem (Or.inr (by omega))

end Shows

/-! ### The cursor keys -/

/-- The cursor is in the screen, and the memory behind the 2000 cells is that of `a`. -/
structure OnScreen (a : Area) (v : Vga) : Prop where
  row : v.row < vgaHeight
  col : v.col < vgaWidth
  frame : ∀ j, 2 * (vgaWidth * vgaHeight) ≤ j → v.buffer j = a j

namespace OnScreen

section

variable (h : OnScreen a v)
include h

theorem incCol : OnScreen a v.incCol := by
  have hrow := h.row
  have hcol := h.col
  unfold Vga.incCol Vga.incRow
  split
  · split
    · exact ⟨h.row, Nat.succ_pos _, fun j hj => (Vga.vgaScrollUp_frame hj).trans (h.frame j hj)⟩
    · exact ⟨by change v.row + 1 < _; omega, Nat.succ_pos _, h.frame⟩
  · exact ⟨h.row, by change v.col + 1 < _; omega, h.frame⟩

theorem decCol : OnScreen a v.decCol := by
  unfold Vga.decCol Vga.decRow
  split
  · split
    · exact ⟨Nat.lt_of_le_of_lt (Nat.sub_le ..) h.row, Nat.sub_lt (Nat.succ_pos _) Nat.one_pos, h.frame⟩
    · exact h
  · exact ⟨h.row, Nat.lt_of_le_of_lt (Nat.sub_le ..) h.col, h.frame⟩

theorem vgaDelete : OnScreen a v.vgaDelete := by
  have hdec := h.decCol
  refine ⟨hdec.row, hdec.col, fun j hj => (memset16_of_not_mem (Or.inr ?_)).trans (hdec.frame j hj)⟩
  have hrow := hdec.row
  have hcol := hdec.col
  unfold bufIndex vgaHeight vgaWidth at *
  omega

theorem vgaCursorUp : OnScreen a v.vgaCursorUp := by
  refine ⟨?_, h.col, h.frame⟩
  unfold Vga.vgaCursorUp
  split
  · exact Nat.succ_pos _
  · exact Nat.lt_of_le_of_lt (Nat.sub_le ..) h.row

theorem vgaCursorDown : OnScreen a v.vgaCursorDown := by
  refine ⟨?_, h.col, h.frame⟩
  unfold Vga.vgaCursorDown
  dsimp only
  split
  · exact h.row
  · rename_i hlt
    exact Nat.not_le.1 hlt

end

end OnScreen

/-- After any text the screen shows its last rows, with the cursor behind the last character, and nothing is
written behind the 2000 cells. -/
theorem vga_shows (v : Vga) (text : List Nat) :
    Shows v.buffer (text.foldl Vga.vgaPutChar v.vgaInit) (text.foldl Text.putChar Text.empty) ∧
      OnScreen v.buffer (text.foldl Vga.vgaPutChar v.vgaInit) ∧
      (text.foldl Vga.vgaPutChar v.vgaInit).col = (text.foldl Text.putChar Text.empty).cur.length := by
  have hrun : ∀ (v' : Vga) (p : Text), Shows v.buffer v' p → v'.col = p.cur.length → v'.col < vgaWidth →
      Shows v.buffer (text.foldl Vga.vgaPutChar v') (text.foldl Text.putChar p) ∧
        (text.foldl Vga.vgaPutChar v').col = (text.foldl Text.putChar p).cur.length ∧
        (text.foldl Vga.vgaPutChar v').col < vgaWidth := by
    induction text with
    | nil => exact fun v' p h hcol hlt => ⟨h, hcol, hlt⟩
    | cons c text ih =>
      intro v' p h hcol hlt
      obtain ⟨h1, hcol1, hlt1⟩ := h.vgaPutChar hcol hlt c
      exact ih _ _ h1 hcol1 hlt1
  obtain ⟨h, hcol, hlt⟩ := hrun _ _ (.vgaInit v) rfl (Nat.succ_pos _)
  refine ⟨h, ⟨?_, hlt, h.frame⟩, hcol⟩
  have hrow := h.row
  unfold Text.top vgaHeight at hrow
  unfold vgaHeight
  omega

end QuarkOS
