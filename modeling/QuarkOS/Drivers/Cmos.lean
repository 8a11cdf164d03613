import Mathlib.Algebra.BigOperators.Intervals
import Mathlib.Algebra.Order.BigOperators.Group.Finset
import Mathlib.Tactic.IntervalCases
import QuarkOS.Base.Prelude

/-!
# Time stamps

`utc2stamp` with its 32-bit days and seconds, and the number of seconds since the start of 1970 in the
Gregorian calendar. The number of leap years is computed with the current year in it, whose 29th of February
is counted by its month once more: in a leap year every time stamp is a day late.
-/

namespace QuarkOS

/-- A `struct cmos_time`. -/
structure CmosTime where
  second : Nat
  minute : Nat
  hour : Nat
  day : Nat
  month : Nat
  year : Int

namespace CmosTime

/-- `month_days`, whose second entry each call sets before it reads the table. -/
def monthDays (isLeap : Bool) : List Nat :=
  [31, if isLeap then 29 else 28, 31, 30, 31, 30, 31, 31, 30, 31, 30, 31]

/-- A round of the loop over the months. -/
def addMonth (table : List Nat) (days mon : Nat) : Except Fault Nat :=
  match table[mon]? with
  | some d => .ok ((days + d) % 2 ^ 32)
  | none => .error .undefined

def utc2stamp (time : CmosTime) : Except Fault Nat :=
  let years := (time.year - 1970) % 2 ^ 32
  let leapYear :=
    ((time.year - 1968) >>> (2 : Nat) - (time.year - 1900).tdiv 100 + (time.year - 1600).tdiv 400) % 2 ^ 32
  let days := ((leapYear * 366 + (years - leapYear) * 365) % 2 ^ 32).toNat
  let isLeap := (time.year.tmod 100 ≠ 0 ∧ time.year % 4 = 0) ∨ time.year.tmod 400 = 0
  do
    let days ← (List.range (time.month - 1)).foldlM (addMonth (monthDays isLeap)) days
    let days := (days + time.day + 2 ^ 32 - 1) % 2 ^ 32
    .ok ((days * 24 * 60 * 60 + time.hour * 60 * 60 + time.minute * 60 + time.second) % 2 ^ 32)

def Leap (year : Nat) : Prop := (4 ∣ year ∧ ¬ 100 ∣ year) ∨ 400 ∣ year

instance (year : Nat) : Decidable (Leap year) := inferInstanceAs (Decidable (_ ∨ _))

def yearLength (year : Nat) : Nat := if Leap year then 366 else 365

def monthLength (year month : Nat) : Nat :=
  if month = 2 then if Leap year then 29 else 28
  else if month = 4 ∨ month = 6 ∨ month = 9 ∨ month = 11 then 30
  else 31

/-- The whole days between the start of 1970 and a date. -/
def dayNumber (year month day : Nat) : Nat :=
  ∑ y ∈ Finset.Ico 1970 year, yearLength y + ∑ m ∈ Finset.Ico 1 month, monthLength year m + (day - 1)

/-- A date and time that exists, from 1970 to 2105. -/
structure Valid (time : CmosTime) (year : Nat) : Prop where
  eq : time.year = year
  first : 1970 ≤ year
  last : year ≤ 2105
  month : 1 ≤ time.month ∧ time.month ≤ 12
  day : 1 ≤ time.day ∧ time.day ≤ monthLength year time.month
  hour : time.hour < 24
  minute : time.minute < 60
  second : time.second < 60

/-- The seconds since the start of 1970. -/
def seconds (time : CmosTime) (year : Nat) : Nat :=
  dayNumber year time.month time.day * 86400 + time.hour * 3600 + time.minute * 60 + time.second

variable {time : CmosTime} {year : Nat}

theorem leap_iff (year : Nat) : Leap year ↔ (year % 4 = 0 ∧ year % 100 ≠ 0) ∨ year % 400 = 0 := by
  simp [Leap, Nat.dvd_iff_mod_eq_zero]

/-- The year that is added to the count is the current one. -/
theorem leap_count (n : Nat) : (n + 2) / 4 + (n + 69) / 100 + (n + 370) / 400 =
    (n + 1) / 4 + (n + 70) / 100 + (n + 369) / 400 + if Leap (1970 + n) then 1 else 0 := by
  have h4 : (n + 2) / 4 = (n + 1) / 4 + if (1970 + n) % 4 = 0 then 1 else 0 := by
    split_ifs <;> omega
  have h100 : (n + 70) / 100 = (n + 69) / 100 + if (1970 + n) % 100 = 0 then 1 else 0 := by
    split_ifs <;> omega
  have h400 : (n + 370) / 400 = (n + 369) / 400 + if (1970 + n) % 400 = 0 then 1 else 0 := by
    split_ifs <;> omega
  have hdvd : (1970 + n) % 100 = 0 → (1970 + n) % 4 = 0 := by omega
  have hdvd' : (1970 + n) % 400 = 0 → (1970 + n) % 100 = 0 := by omega
  rw [h4, h100, h400]
  simp only [leap_iff]
  split_ifs <;> omega

theorem sum_yearLength (n : Nat) : ∑ y ∈ Finset.Ico 1970 (1970 + n), yearLength y + (n + 69) / 100 =
    365 * n + (n + 1) / 4 + (n + 369) / 400 := by
  induction n with
  | zero => simp
  | succ n ih =>
    have hcount := leap_count n
    have hstep : ∑ y ∈ Finset.Ico 1970 (1970 + (n + 1)), yearLength y =
        ∑ y ∈ Finset.Ico 1970 (1970 + n), yearLength y + yearLength (1970 + n) :=
      Finset.sum_Ico_succ_top (Nat.le_add_right 1970 n) _
    change _ + (n + 70) / 100 = 365 * (n + 1) + (n + 2) / 4 + (n + 370) / 400
    rw [hstep, yearLength]
    generalize (n + 2) / 4 = a, (n + 1) / 4 = a', (n + 70) / 100 = b, (n + 69) / 100 = b',
      (n + 370) / 400 = c, (n + 369) / 400 = c',
      ∑ y ∈ Finset.Ico 1970 (1970 + n), yearLength y = days at *
    split_ifs at hcount ⊢ <;> omega

theorem sum_yearLength_le {n : Nat} (hn : n ≤ 135) :
    ∑ y ∈ Finset.Ico 1970 (1970 + n), yearLength y ≤ 49310 := by
  have hsum := sum_yearLength n
  have hfour : (n + 1) / 4 ≤ 34 := by omega
  have hcentury : (n + 369) / 400 ≤ 1 := by omega
  generalize (n + 1) / 4 = a, (n + 69) / 100 = b, (n + 369) / 400 = c at *
  omega

theorem foldlM_addMonth {table : List Nat} {days k : Nat} (hdays : days < 2 ^ 32) (hk : k ≤ table.length) :
    (List.range k).foldlM (addMonth table) days = .ok ((days + (table.take k).sum) % 2 ^ 32) := by
  induction k with
  | zero =>
    rw [List.take_zero, List.sum_nil, Nat.add_zero, Nat.mod_eq_of_lt hdays]
    rfl
  | succ k ih =>
    have hget : table[k]? = some table[k] := List.getElem?_eq_getElem hk
    rw [List.range_succ, List.foldlM_append, ih (by omega), List.take_add_one, hget, ok_bind]
    change (do addMonth table _ k >>= pure) = _
    rw [addMonth, hget, ok_bind, Nat.mod_add_mod, Option.toList_some, List.sum_append, List.sum_singleton,
      Nat.add_assoc]
    rfl

theorem monthDays_getElem (year : Nat) {k : Nat} (hk : k < 12) :
    (monthDays (Leap year))[k]? = some (monthLength year (k + 1)) := by
  interval_cases k
  all_goals simp [monthDays, monthLength]

theorem sum_monthLength (year : Nat) {k : Nat} (hk : k < 12) :
    ((monthDays (Leap year)).take k).sum = ∑ m ∈ Finset.Ico 1 (k + 1), monthLength year m := by
  induction k with
  | zero => rfl
  | succ k ih =>
    rw [List.take_add_one, monthDays_getElem year (by omega), Option.toList_some, List.sum_append,
      List.sum_singleton, ih (by omega), Finset.sum_Ico_succ_top (by omega : 1 ≤ k + 1)]

theorem monthLength_le (year month : Nat) : monthLength year month ≤ 31 := by
  rw [monthLength]
  split_ifs <;> decide

/-- The days before the year, and one more in a leap year. -/
theorem days_eq {n : Nat} (hlast : n ≤ 135) : let year : Int := (1970 + n : Nat)
    let years := (year - 1970) % 2 ^ 32
    let leapYear :=
      ((year - 1968) >>> (2 : Nat) - (year - 1900).tdiv 100 + (year - 1600).tdiv 400) % 2 ^ 32
    ((leapYear * 366 + (years - leapYear) * 365) % 2 ^ 32).toNat =
      ∑ y ∈ Finset.Ico 1970 (1970 + n), yearLength y + if Leap (1970 + n) then 1 else 0 := by
  have h4 : (((1970 + n : Nat) : Int) - 1968) >>> (2 : Nat) = ((n + 2) / 4 : Nat) := by
    rw [Int.shiftRight_eq_div_pow]
    omega
  have h100 : (((1970 + n : Nat) : Int) - 1900).tdiv 100 = ((n + 70) / 100 : Nat) := by
    rw [Int.tdiv_eq_ediv_of_nonneg (by omega)]
    omega
  have h400 : (((1970 + n : Nat) : Int) - 1600).tdiv 400 = ((n + 370) / 400 : Nat) := by
    rw [Int.tdiv_eq_ediv_of_nonneg (by omega)]
    omega
  have hle : (n + 70) / 100 ≤ (n + 2) / 4 := by omega
  have hlt : (n + 2) / 4 + (n + 370) / 400 < 100 := by omega
  have hyears := sum_yearLength n
  have hcount := leap_count n
  dsimp only
  rw [h4, h100, h400, Nat.cast_add, Nat.cast_ofNat, add_sub_cancel_left]
  generalize (n + 2) / 4 = a, (n + 1) / 4 = a', (n + 70) / 100 = b, (n + 69) / 100 = b',
    (n + 370) / 400 = c, (n + 369) / 400 = c', ∑ y ∈ Finset.Ico 1970 (1970 + n), yearLength y = days,
    (if Leap (1970 + n) then 1 else 0) = e at *
  have hleap : ((a : Int) - b + c) % 2 ^ 32 = (a - b + c : Nat) := by omega
  have hyear : (n : Int) % 2 ^ 32 = n := by omega
  rw [hleap, hyear]
  omega

theorem isLeap_iff (year : Nat) :
    ((year : Int).tmod 100 ≠ 0 ∧ (year : Int) % 4 = 0) ∨ (year : Int).tmod 400 = 0 ↔ Leap year := by
  rw [leap_iff, Int.tmod_eq_emod_of_nonneg (by omega), Int.tmod_eq_emod_of_nonneg (by omega)]
  omega

theorem utc2stamp_eq (h : Valid time year) :
    time.utc2stamp = .ok (time.seconds year + if Leap year then 86400 else 0) := by
  obtain ⟨n, rfl⟩ := Nat.exists_eq_add_of_le h.first
  have hlast : n ≤ 135 := Nat.le_of_add_le_add_left h.last
  have hyears := sum_yearLength_le hlast
  have hmonth := h.month
  have hday := h.day
  have hday' := monthLength_le (1970 + n) time.month
  have hmonths : ∑ m ∈ Finset.Ico 1 time.month, monthLength (1970 + n) m ≤ 11 * 31 := by
    refine (Finset.sum_le_card_nsmul _ _ 31 fun m _ => monthLength_le _ m).trans ?_
    rw [Nat.card_Ico, nsmul_eq_mul, Nat.cast_id]
    omega
  have hdays := days_eq hlast
  rw [utc2stamp, h.eq]
  dsimp only at hdays ⊢
  rw [hdays, foldlM_addMonth (by split <;> omega) (by rw [monthDays]; simp; omega)]
  simp only [isLeap_iff]
  rw [sum_monthLength _ (by omega), Nat.sub_add_cancel hmonth.1, ok_bind, seconds, dayNumber]
  have hhour := h.hour
  have hminute := h.minute
  have hsecond := h.second
  congr 1
  clear hdays
  split <;> omega

/-- A time stamp is right exactly when its year is not a leap year. -/
theorem utc2stamp_iff (h : Valid time year) : time.utc2stamp = .ok (time.seconds year) ↔ ¬ Leap year := by
  rw [utc2stamp_eq h]
  split <;> simp [*]

theorem utc2stamp_iff_2021 : Valid ⟨0, 30, 12, 8, 5, 2021⟩ 2021 ∧
    utc2stamp ⟨0, 30, 12, 8, 5, 2021⟩ = .ok (seconds ⟨0, 30, 12, 8, 5, 2021⟩ 2021) := by
  have h : Valid ⟨0, 30, 12, 8, 5, 2021⟩ 2021 := by constructor <;> decide
  exact ⟨h, (utc2stamp_iff h).2 (by decide)⟩

/-- The first day of 1972 is 730 days after that of 1970. -/
theorem utc2stamp_1972 : Valid ⟨0, 0, 0, 1, 1, 1972⟩ 1972 ∧
    seconds ⟨0, 0, 0, 1, 1, 1972⟩ 1972 = 730 * 86400 ∧
    utc2stamp ⟨0, 0, 0, 1, 1, 1972⟩ = .ok (731 * 86400) :=
  ⟨by constructor <;> decide, by decide +kernel, by rfl⟩

end CmosTime

end QuarkOS
