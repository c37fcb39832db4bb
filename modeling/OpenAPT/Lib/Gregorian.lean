import Mathlib.Data.Int.Basic
import Mathlib.Data.List.Basic
import Mathlib.Logic.Function.Iterate
import Mathlib.Tactic.Common
import Mathlib.Tactic.IntervalCases

/-! The Gregorian calendar for all years: the day after a date, and the number of a date, by which
days are counted. -/
namespace Gregorian

def IsLeap (year : ℤ) : Prop := 4 ∣ year ∧ (¬ 100 ∣ year ∨ 400 ∣ year)

instance : DecidablePred IsLeap := fun _ => inferInstanceAs (Decidable (_ ∧ _))

def monthLength (year : ℤ) (month : ℕ) : ℕ :=
  if month = 2 then (if IsLeap year then 29 else 28)
  else if month = 4 ∨ month = 6 ∨ month = 9 ∨ month = 11 then 30
  else 31

@[ext] structure Date where
  year : ℤ
  month : ℕ
  day : ℕ
  month_pos : 1 ≤ month
  month_le : month ≤ 12
  day_pos : 1 ≤ day
  day_le : day ≤ monthLength year month

/-- A date whose fields are in their ranges. -/
def Date.ofFields (year : ℤ) (month day : ℕ)
    (h : 1 ≤ month ∧ month ≤ 12 ∧ 1 ≤ day ∧ day ≤ monthLength year month) : Date :=
  ⟨year, month, day, h.1, h.2.1, h.2.2.1, h.2.2.2⟩

theorem monthLength_pos (year : ℤ) (month : ℕ) : 1 ≤ monthLength year month := by
  unfold monthLength
  split_ifs <;> decide

/-- The day after. -/
def Date.next (d : Date) : Date :=
  if hday : d.day < monthLength d.year d.month then
    { d with day := d.day + 1, day_pos := Nat.le_add_left 1 d.day, day_le := hday }
  else if hmonth : d.month < 12 then
    { d with
      month := d.month + 1
      day := 1
      month_pos := Nat.le_add_left 1 d.month
      month_le := hmonth
      day_pos := Nat.le_refl 1
      day_le := monthLength_pos _ _ }
  else
    { d with
      year := d.year + 1
      month := 1
      day := 1
      month_pos := Nat.le_refl 1
      month_le := by decide
      day_pos := Nat.le_refl 1
      day_le := monthLength_pos _ _ }

/-- The days before the first day of a year, counted from a fixed day. -/
def daysBeforeYear (year : ℤ) : ℤ :=
  365 * year + (year - 1) / 4 - (year - 1) / 100 + (year - 1) / 400

/-- The days of the year before the first day of a month. -/
def daysBeforeMonth (year : ℤ) (month : ℕ) : ℕ :=
  ((List.range (month - 1)).map fun i => monthLength year (i + 1)).sum

def Date.dayNumber (d : Date) : ℤ :=
  daysBeforeYear d.year + daysBeforeMonth d.year d.month + d.day

theorem daysBeforeYear_succ (year : ℤ) : daysBeforeYear (year + 1) =
    daysBeforeYear year + 365 + (if IsLeap year then 1 else 0) := by
  unfold daysBeforeYear IsLeap
  split_ifs <;> omega

theorem daysBeforeMonth_succ (year : ℤ) {month : ℕ} (h : 1 ≤ month) :
    daysBeforeMonth year (month + 1) = daysBeforeMonth year month + monthLength year month := by
  have hindex : month + 1 - 1 = (month - 1) + 1 := by omega
  have hlast : month - 1 + 1 = month := by omega
  rw [daysBeforeMonth, hindex, List.range_succ, List.map_append, List.sum_append,
    List.map_singleton, List.sum_singleton, hlast]
  rfl

/-- From March on the lengths of the months follow one linear rule. -/
theorem monthLength_eq (year : ℤ) {month : ℕ} (hge : 3 ≤ month) (hle : month ≤ 12) :
    (153 * (month - 3) + 2) / 5 + monthLength year month = (153 * (month + 1 - 3) + 2) / 5 := by
  interval_cases month <;> rfl

theorem daysBeforeMonth_march (year : ℤ) :
    daysBeforeMonth year 3 = 59 + (if IsLeap year then 1 else 0) := by
  have hfebruary : daysBeforeMonth year 2 = 31 := rfl
  have hlength : monthLength year 2 = if IsLeap year then 29 else 28 := if_pos rfl
  rw [daysBeforeMonth_succ year (by decide), hfebruary, hlength]
  split_ifs <;> rfl

/-- Only the leap day is extra. -/
theorem daysBeforeMonth_eq (year : ℤ) {month : ℕ} (hge : 3 ≤ month) (hle : month ≤ 13) :
    daysBeforeMonth year month =
      59 + (if IsLeap year then 1 else 0) + (153 * (month - 3) + 2) / 5 := by
  induction month, hge using Nat.le_induction with
  | base => exact daysBeforeMonth_march year
  | succ month hge ih =>
    have hlength := monthLength_eq year hge (by omega)
    rw [daysBeforeMonth_succ year (by omega), ih (by omega), Nat.add_assoc, hlength]

theorem daysBeforeMonth_end (year : ℤ) :
    daysBeforeMonth year 12 + 31 = 365 + (if IsLeap year then 1 else 0) := by
  rw [daysBeforeMonth_eq year (by decide) (by decide)]
  split_ifs <;> rfl

theorem Date.dayNumber_next (d : Date) : d.next.dayNumber = d.dayNumber + 1 := by
  have hday := d.day_le
  have hmonth := d.month_le
  unfold Date.next
  split_ifs with hlt hnotLast
  · -- a day of the same month
    simp only [dayNumber, Nat.cast_add, Nat.cast_one]
    omega
  · -- the first day of a month
    have hlength : d.day = monthLength d.year d.month := by omega
    simp only [dayNumber, daysBeforeMonth_succ d.year d.month_pos, hlength, Nat.cast_add,
      Nat.cast_one]
    omega
  · -- the first day of a year
    have hlast : d.month = 12 := by omega
    have hdecember : monthLength d.year 12 = 31 := rfl
    have hlength : d.day = 31 := by
      rw [hlast, hdecember] at hday hlt
      omega
    have hjanuary : daysBeforeMonth (d.year + 1) 1 = 0 := rfl
    have hend := daysBeforeMonth_end d.year
    simp only [dayNumber, daysBeforeYear_succ, hjanuary, hlast, hlength]
    split_ifs at hend ⊢ <;> omega

/-- Days are counted by the numbers of their dates. -/
theorem Date.dayNumber_iterate_next (n : ℕ) (d : Date) :
    (next^[n] d).dayNumber = d.dayNumber + n := by
  induction n with
  | zero => exact (Int.add_zero _).symm
  | succ n ih =>
    rw [Function.iterate_succ_apply', dayNumber_next, ih, Nat.cast_add, Nat.cast_one, add_assoc]

end Gregorian
