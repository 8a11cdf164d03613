import QuarkOS.Drivers.Vga
import QuarkOS.Lib.Ring

/-!
# The keyboard

`terminal.c`: `kb_isr` turns the bytes of the keyboard into characters, held modifiers and movements of the
cursor, and `getchar` takes the characters out of a ring buffer, byte by byte and in any order with the
interrupts. A key is a code, with `e0` before it for those of a second table and `f0` for a key that is
released. The reference remembers all keys and reads from them which shift key is held.
-/

namespace QuarkOS

/-! ### The tables of `keyboard.h` -/

def asciiNonShift1 : List Nat :=
  [0, 140, 0, 136, 134, 132, 133, 143, 0, 141, 139, 137, 135, 9, 96, 0, 0, 161, 163, 0, 162, 113, 49, 0,
   0, 0, 122, 115, 97, 119, 50, 0, 0, 99, 120, 100, 101, 52, 51, 0, 0, 32, 118, 102, 116, 114, 53, 0, 0,
   110, 98, 104, 103, 121, 54, 0, 0, 0, 109, 106, 117, 55, 56, 0, 0, 44, 107, 105, 111, 48, 57, 0, 0, 46,
   47, 108, 59, 112, 45, 0, 0, 0, 39, 0, 91, 61, 0, 0, 145, 166, 10, 93, 0, 92, 0, 0, 0, 0, 0, 0, 0, 0,
   146, 0, 0, 49, 0, 52, 55, 0, 0, 0, 48, 46, 50, 53, 54, 56, 144, 147, 142, 43, 51, 45, 42, 57, 148, 0,
   0, 0, 0, 138]

def asciiShift1 : List Nat :=
  [0, 140, 0, 136, 134, 132, 133, 143, 0, 141, 139, 137, 135, 9, 96, 0, 0, 161, 163, 0, 162, 81, 33, 0, 0,
   0, 90, 83, 65, 87, 64, 0, 0, 67, 88, 68, 69, 36, 35, 0, 0, 32, 86, 70, 84, 82, 37, 0, 0, 78, 66, 72,
   71, 89, 94, 0, 0, 0, 77, 74, 85, 38, 42, 0, 0, 60, 75, 73, 79, 41, 40, 0, 0, 62, 63, 76, 58, 80, 95, 0,
   0, 0, 34, 0, 123, 43, 0, 0, 145, 166, 10, 125, 0, 124, 0, 0, 0, 0, 0, 0, 0, 0, 146, 0, 0, 49, 0, 52,
   55, 0, 0, 0, 48, 46, 50, 53, 54, 56, 144, 147, 142, 43, 51, 45, 42, 57, 148, 0, 0, 0, 0, 138]

def ascii2 : List Nat :=
  [0, 0, 0, 0, 0, 0, 0, 0, 0, 0, 0, 0, 0, 0, 0, 0, 168, 164, 0, 0, 165, 169, 0, 0, 170, 0, 0, 0, 0, 0, 0,
   167, 171, 172, 0, 173, 0, 0, 0, 149, 174, 0, 0, 175, 0, 0, 0, 150, 176, 0, 177, 0, 178, 0, 0, 186, 179,
   0, 180, 181, 0, 0, 0, 187, 182, 0, 0, 0, 0, 0, 0, 0, 183, 0, 47, 0, 0, 184, 0, 0, 185, 0, 0, 0, 0, 0,
   0, 0, 0, 0, 10, 0, 0, 0, 188, 0, 0, 0, 0, 0, 0, 0, 0, 0, 0, 151, 0, 155, 152, 0, 0, 0, 153, 154, 156,
   0, 157, 158, 0, 0, 0, 0, 159, 0, 0, 0]

def f1 : Nat := 0x84

def f12 : Nat := 0x8f

def esc : Nat := 0x90

def capslock : Nat := 0x91

def backspace : Nat := 0x92

def numberLock : Nat := 0x93

def scrollLock : Nat := 0x94

def cursorLeft : Nat := 0x9b

def cursorDown : Nat := 0x9c

def cursorRight : Nat := 0x9d

def cursorUp : Nat := 0x9e

def pageUp : Nat := 0xa0

def leftAlt : Nat := 0xa1

def leftCtrl : Nat := 0xa2

def leftShift : Nat := 0xa3

def rightAlt : Nat := 0xa4

def rightCtrl : Nat := 0xa5

def rightShift : Nat := 0xa6

def leftGui : Nat := 0xa7

def mWwwSearch : Nat := 0xa8

def mMediaSelect : Nat := 0xb9

/-! ### The handler -/

structure KbStatus where
  e0 : Bool := false
  f0 : Bool := false
  lShift : Bool := false
  rShift : Bool := false
  lCtrl : Bool := false
  rCtrl : Bool := false
  lGui : Bool := false
  lAlt : Bool := false
  rAlt : Bool := false
  numLk : Bool := false
  capsLK : Bool := false
  scrollLk : Bool := false

inductive KeyType
  | charKey | fKey | fnKey | metaKey | mediaKey | acpiKey

structure Terminal where
  kbStatus : KbStatus := {}
  kbBuf : RingBuffer Nat := ⟨fun _ => 0, 0, 0⟩
  vga : Vga

def kbBufferSize : Nat := 256

def kbClear (q : RingBuffer Nat) : RingBuffer Nat := { q with tail := q.header }

def qAppend (q : RingBuffer Nat) (c : Nat) : RingBuffer Nat := q.append kbBufferSize c

/-- `KB_NULL` is 0. -/
def qPop (q : RingBuffer Nat) : Nat × RingBuffer Nat :=
  ((q.pop kbBufferSize).1.getD 0, (q.pop kbBufferSize).2)

def kbMeta (st : KbStatus) (type : Nat) (s : Bool) : KbStatus :=
  if type = leftAlt then { st with lAlt := s }
  else if type = leftCtrl then { st with lCtrl := s }
  else if type = leftShift then { st with lShift := s }
  else if type = rightAlt then { st with rAlt := s }
  else if type = rightCtrl then { st with rCtrl := s }
  else if type = rightShift then { st with rShift := s }
  else if type = leftGui then { st with lGui := s }
  else st

def kbKeyType (value : Nat) : KeyType :=
  if value < f1 then .charKey
  else if leftAlt ≤ value ∧ value ≤ leftGui then .metaKey
  else if value ≤ pageUp ∧ esc ≤ value then .fnKey
  else if mWwwSearch ≤ value ∧ value ≤ mMediaSelect then .mediaKey
  else if value ≤ f12 ∧ f1 ≤ value then .fKey
  else .acpiKey

namespace Terminal

variable (t : Terminal)

def kbFn (scancode : Nat) : Terminal :=
  let st := t.kbStatus
  if scancode = numberLock then { t with kbStatus := { st with numLk := !st.numLk } }
  else if scancode = capslock then { t with kbStatus := { st with capsLK := !st.capsLK } }
  else if scancode = scrollLock then { t with kbStatus := { st with scrollLk := !st.scrollLk } }
  else if scancode = cursorLeft then { t with vga := t.vga.vgaCursorLeft }
  else if scancode = cursorUp then { t with vga := t.vga.vgaCursorUp }
  else if scancode = cursorRight then { t with vga := t.vga.vgaCursorRight }
  else if scancode = cursorDown then { t with vga := t.vga.vgaCursorDown }
  else if scancode = backspace then { t with vga := t.vga.vgaDelete }
  else t

def kbPressHandle (r : Nat) : Terminal :=
  let t := { t with kbStatus := { t.kbStatus with e0 := false } }
  match kbKeyType r with
  | .charKey => { t with kbBuf := qAppend t.kbBuf r }
  | .metaKey => { t with kbStatus := kbMeta t.kbStatus r true }
  | .fnKey => t.kbFn r
  | _ => t

def kbReleaseHandle (r : Nat) : Terminal :=
  let t := { t with kbStatus := { t.kbStatus with e0 := false, f0 := false } }
  match kbKeyType r with
  | .metaKey => { t with kbStatus := kbMeta t.kbStatus r false }
  | _ => t

/-- What is behind the end of a table is not known. -/
def readTable (table : List Nat) (scancode : Nat) : Except Fault Nat :=
  match table[scancode]? with
  | some r => .ok r
  | none => .error .undefined

def kbScParse (scancode : Nat) : Except Fault Terminal :=
  let st := t.kbStatus
  if scancode = 0xe0 then .ok { t with kbStatus := { st with e0 := true } }
  else if scancode = 0xf0 then .ok { t with kbStatus := { st with f0 := true } }
  else if st.f0 = false then do
    let r ← readTable (if st.e0 then ascii2 else
      if st.lShift || st.rShift then asciiShift1 else asciiNonShift1) scancode
    assertk (r ≠ 0)
    .ok (t.kbPressHandle r)
  else do
    let r ← readTable (if st.e0 then ascii2 else asciiShift1) scancode
    assertk (r ≠ 0)
    .ok (t.kbReleaseHandle r)

end Terminal

/-! ### The reference -/

/-- A key, with the bytes that came before its code. -/
structure Key where
  e0 : Bool
  f0 : Bool
  code : Nat

/-- What a key stands for, or 0. -/
def keyValue (e0 shift : Bool) (code : Nat) : Nat :=
  (if e0 then ascii2 else if shift then asciiShift1 else asciiNonShift1)[code]?.getD 0

/-- The last key with the code was not a release; the keys stand with the last one first. -/
def held (code : Nat) (keys : List Key) : Bool :=
  (keys.find? fun k => !k.e0 && k.code == code).any fun k => !k.f0

/-- What was received: the bytes of a key that is not complete, the keys, and the characters that wait. -/
structure Typed where
  e0 : Bool
  f0 : Bool
  keys : List Key
  waiting : List Nat

namespace Typed

variable (s : Typed)

def shift : Bool := held 0x12 s.keys || held 0x59 s.keys

/-- A character has a value below `F1`, and those that wait are lost when they would be 256. -/
def receive (b : Nat) : Typed :=
  if b = 0xe0 then { s with e0 := true }
  else if b = 0xf0 then { s with f0 := true }
  else
    let c := keyValue s.e0 s.shift b
    ⟨false, false, ⟨s.e0, s.f0, b⟩ :: s.keys,
      if s.f0 = false ∧ c < f1 then RingBuffer.push kbBufferSize s.waiting c else s.waiting⟩

end Typed

/-- What the handler remembers of it. The screen keeps its memory behind the cells. -/
structure Types (a : Bytes.Area) (s : Typed) (t : Terminal) : Prop where
  e0 : t.kbStatus.e0 = s.e0
  f0 : t.kbStatus.f0 = s.f0
  lShift : t.kbStatus.lShift = held 0x12 s.keys
  rShift : t.kbStatus.rShift = held 0x59 s.keys
  buf : RingBuffer.Holds kbBufferSize t.kbBuf s.waiting
  screen : OnScreen a t.vga

/-- Interrupts and the calls of `getchar`, in any order. -/
inductive KbRun (v : Vga) : Typed → Terminal → Prop
  | start : KbRun v ⟨false, false, [], []⟩ { vga := v.vgaInit }
  | kbIsr {s t t' b} : KbRun v s t → t.kbScParse b = .ok t' → KbRun v (s.receive b) t'
  | qPop {s t} : KbRun v s t →
      KbRun v { s with waiting := s.waiting.tail } { t with kbBuf := (qPop t.kbBuf).2 }
  | kbClear {s t} : KbRun v s t → KbRun v { s with waiting := [] } { t with kbBuf := kbClear t.kbBuf }

variable {a : Bytes.Area} {s : Typed} {t t' : Terminal} {v : Vga} {k : Key} {keys : List Key}
  {b r : Nat}

/-! ### One byte -/

theorem held_cons (code : Nat) : held code (k :: keys) =
    if k.e0 = false ∧ k.code = code then !k.f0 else held code keys := by
  by_cases he : k.e0 <;> by_cases hcode : k.code = code <;> simp [held, he, hcode]

/-- The tables have the shift keys at one place, and a key is in both of the first two or in none. -/
theorem keyValue_spec (e0 shift : Bool) (code : Nat) :
    (keyValue e0 shift code = leftShift ↔ e0 = false ∧ code = 0x12) ∧
    (keyValue e0 shift code = rightShift ↔ e0 = false ∧ code = 0x59) ∧
    (keyValue e0 shift code = 0 ↔ keyValue e0 true code = 0) := by
  by_cases hcode : code < 132
  · revert e0 shift code
    decide +kernel
  · have hlength : ∀ e0 shift : Bool,
        (if e0 then ascii2 else if shift then asciiShift1 else asciiNonShift1).length ≤ 132 := by
      decide +kernel
    have hnone : ∀ shift, keyValue e0 shift code = 0 := by
      intro shift
      rw [keyValue, List.getElem?_eq_none ((hlength e0 shift).trans (Nat.not_lt.1 hcode)), Option.getD_none]
    simp only [hnone, leftShift, rightShift]
    simp
    exact ⟨fun _ => by omega, fun _ => by omega⟩

theorem readTable_bind {table : List Nat} {f : Nat → Terminal} :
    (do let r ← Terminal.readTable table b; assertk (r ≠ 0); .ok (f r) : Except Fault Terminal) = .ok t' ↔
      table[b]?.getD 0 ≠ 0 ∧ f (table[b]?.getD 0) = t' := by
  unfold Terminal.readTable
  cases table[b]? with
  | none => simp [error_bind]
  | some r =>
    by_cases hr : r = 0 <;> simp [hr, ok_bind, assertk]

theorem kbMeta_spec (st : KbStatus) (type : Nat) (b : Bool) :
    (kbMeta st type b).e0 = st.e0 ∧ (kbMeta st type b).f0 = st.f0 ∧
    (kbMeta st type b).lShift = (if type = leftShift then b else st.lShift) ∧
    (kbMeta st type b).rShift = (if type = rightShift then b else st.rShift) := by
  unfold kbMeta
  split_ifs <;> simp_all [leftAlt, leftCtrl, leftShift, rightAlt, rightCtrl, rightShift, leftGui]

theorem kbFn_spec (a : Bytes.Area) (t : Terminal) (r : Nat) : (∃ numLk capsLK scrollLk,
      (t.kbFn r).kbStatus = { t.kbStatus with numLk, capsLK, scrollLk }) ∧
    (t.kbFn r).kbBuf = t.kbBuf ∧ (OnScreen a t.vga → OnScreen a (t.kbFn r).vga) := by
  unfold Terminal.kbFn
  dsimp only
  split_ifs
  all_goals refine ⟨⟨_, _, _, rfl⟩, rfl, ?_⟩
  exacts [id, id, id, .decCol, .vgaCursorUp, .incCol, .vgaCursorDown, .vgaDelete, id]

/-- What both handlers do, for a key that goes down or up. -/
structure Handled (a : Bytes.Area) (t : Terminal) (r : Nat) (down : Bool) (t' : Terminal) : Prop where
  e0 : t'.kbStatus.e0 = false
  f0 : t'.kbStatus.f0 = false
  lShift : t'.kbStatus.lShift = if r = leftShift then down else t.kbStatus.lShift
  rShift : t'.kbStatus.rShift = if r = rightShift then down else t.kbStatus.rShift
  buf : t'.kbBuf = if down = true ∧ r < f1 then qAppend t.kbBuf r else t.kbBuf
  screen : OnScreen a t.vga → OnScreen a t'.vga

theorem kbKeyType_spec (r : Nat) : (r < f1 ↔ kbKeyType r = .charKey) ∧
    (kbKeyType r ≠ .metaKey → r ≠ leftShift ∧ r ≠ rightShift) := by
  refine ⟨?_, fun h => ⟨fun hl => h (hl ▸ rfl), fun hr => h (hr ▸ rfl)⟩⟩
  unfold kbKeyType
  split_ifs <;> simp_all

theorem kbPressHandle_handled (hf : t.kbStatus.f0 = false) : Handled a t r true (t.kbPressHandle r) := by
  obtain ⟨hchar, hshift⟩ := kbKeyType_spec r
  have hmeta := kbMeta_spec { t.kbStatus with e0 := false } r true
  obtain ⟨⟨_, _, _, hst⟩, hfn⟩ := kbFn_spec a { t with kbStatus := { t.kbStatus with e0 := false } } r
  unfold Terminal.kbPressHandle
  cases hk : kbKeyType r <;> constructor <;> simp_all

theorem kbReleaseHandle_handled : Handled a t r false (t.kbReleaseHandle r) := by
  obtain ⟨-, hshift⟩ := kbKeyType_spec r
  have hmeta := kbMeta_spec { t.kbStatus with e0 := false, f0 := false } r false
  unfold Terminal.kbReleaseHandle
  cases hk : kbKeyType r <;> constructor <;> simp_all

theorem Types.handled (down shift : Bool) (h : Types a s t) (hb : ¬b = 0xe0 ∧ ¬b = 0xf0)
    (hdown : s.f0 = !down) (hshift : down = true → shift = s.shift)
    (ht : Handled a t (keyValue s.e0 shift b) down t') : Types a (s.receive b) t' := by
  obtain ⟨hl, hr, -⟩ := keyValue_spec s.e0 shift b
  rw [Typed.receive, if_neg hb.1, if_neg hb.2]
  refine ⟨ht.e0, ht.f0, ?_, ?_, ?_, ht.screen h.screen⟩
  · simp only [ht.lShift, h.lShift, hl, held_cons, hdown, Bool.not_not]
  · simp only [ht.rShift, h.rShift, hr, held_cons, hdown, Bool.not_not]
  · rw [ht.buf, hdown]
    cases down with
    | false => exact h.buf
    | true =>
      rw [hshift rfl]
      by_cases hchar : keyValue s.e0 s.shift b < f1
      · simp only [hchar, Bool.not_true, and_self, if_true]
        exact h.buf.append _
      · simp only [hchar, and_false, if_false]
        exact h.buf

theorem Types.kbScParse (h : Types a s t) (b : Nat) :
    (∀ t', t.kbScParse b = .ok t' → Types a (s.receive b) t') ∧
    ((∃ t', t.kbScParse b = .ok t') ↔ b = 0xe0 ∨ b = 0xf0 ∨ keyValue s.e0 true b ≠ 0) := by
  unfold Terminal.kbScParse
  dsimp only
  by_cases he : b = 0xe0
  · rw [if_pos he, Typed.receive, if_pos he]
    refine ⟨fun t' ht => ?_, ⟨fun _ => Or.inl he, fun _ => ⟨_, rfl⟩⟩⟩
    cases ht
    exact ⟨rfl, h.f0, h.lShift, h.rShift, h.buf, h.screen⟩
  by_cases hf : b = 0xf0
  · rw [if_neg he, if_pos hf, Typed.receive, if_neg he, if_pos hf]
    refine ⟨fun t' ht => ?_, ⟨fun _ => Or.inr (Or.inl hf), fun _ => ⟨_, rfl⟩⟩⟩
    cases ht
    exact ⟨h.e0, rfl, h.lShift, h.rShift, h.buf, h.screen⟩
  rw [if_neg he, if_neg hf, h.e0, h.lShift, h.rShift, or_iff_right he, or_iff_right hf]
  split
  · rename_i hup
    have hknown := (keyValue_spec s.e0 s.shift b).2.2
    simp only [readTable_bind, exists_and_left, exists_eq', and_true]
    refine ⟨fun t' ht => ?_, not_congr hknown⟩
    obtain ⟨-, rfl⟩ := ht
    exact h.handled true _ ⟨he, hf⟩ (h.f0.symm.trans hup) (fun _ => rfl) (kbPressHandle_handled hup)
  · rename_i hup
    simp only [readTable_bind, exists_and_left, exists_eq', and_true]
    refine ⟨fun t' ht => ?_, Iff.rfl⟩
    obtain ⟨-, rfl⟩ := ht
    have hdown := h.f0.symm.trans (Bool.eq_true_of_not_eq_false hup)
    exact h.handled false true ⟨he, hf⟩ hdown (by simp) kbReleaseHandle_handled

/-- However interrupts and reads come, the handler knows which keys are held and which characters wait, and
it keeps to the screen. It fails at a key that has no value, and at no other byte. -/
theorem kbRun_types (hrun : KbRun v s t) : Types v.buffer s t ∧ (qPop t.kbBuf).1 = s.waiting.headD 0 ∧
    ∀ b, (∃ t', t.kbScParse b = .ok t') ↔ b = 0xe0 ∨ b = 0xf0 ∨ keyValue s.e0 true b ≠ 0 := by
  have htypes : Types v.buffer s t := by
    induction hrun with
    | start =>
      have hinit := Shows.vgaInit v
      exact ⟨rfl, rfl, rfl, rfl, ⟨Nat.succ_pos _, rfl, Nat.succ_pos _, by simp⟩,
        ⟨Nat.succ_pos _, Nat.succ_pos _, hinit.frame⟩⟩
    | kbIsr _ hparse ih => exact (ih.kbScParse _).1 _ hparse
    | qPop _ ih => exact ⟨ih.e0, ih.f0, ih.lShift, ih.rShift, ih.buf.pop.2, ih.screen⟩
    | kbClear _ ih =>
      refine ⟨ih.e0, ih.f0, ih.lShift, ih.rShift, ?_, ih.screen⟩
      exact ⟨ih.buf.header, (Nat.mod_eq_of_lt ih.buf.header).symm, Nat.succ_pos _, by simp⟩
  refine ⟨htypes, ?_, fun b => (htypes.kbScParse b).2⟩
  rw [qPop, htypes.buf.pop.1]
  cases s.waiting <;> rfl

theorem kbRun_types_a : ∃ s t, KbRun ⟨0, 0, 7, fun _ => 0⟩ s t ∧ (qPop t.kbBuf).1 = 97 := by
  obtain ⟨t, hparse⟩ :=
    exists_ok (x := Terminal.kbScParse { vga := Vga.vgaInit ⟨0, 0, 7, fun _ => 0⟩ } 0x1c) (by decide +kernel)
  exact ⟨_, t, .kbIsr .start hparse, (kbRun_types (.kbIsr .start hparse)).2.1.trans (by decide +kernel)⟩

end QuarkOS
