import Mathlib.Data.Rat.Floor
import Mathlib.Tactic.IntervalCases
import Mathlib.Tactic.Linarith
import Mathlib.Tactic.NormNum
import Mathlib.Tactic.Ring
import OpenAPT.Lib.Gregorian

/-! `utc2jd`, which makes a Julian day of an instant, with `float` taken as exact. -/
namespace OpenAPT.JulianDay

/-- An instant as the tuple of a `Date`. -/
structure Instant where
  date : Gregorian.Date
  hour : ℕ
  minute : ℕ
  second : ℚ
  hour_lt : hour < 24
  minute_lt : minute < 60
  second_nonneg : 0 ≤ second
  second_lt : second < 60

/-- `int` of Python, which drops what is after the point. -/
def int (x : ℚ) : ℤ := if 0 ≤ x then ⌊x⌋ else ⌈x⌉

/-- `y` and `m` of `utc2jd`, where a year begins with March. -/
def shifted (d : Gregorian.Date) : ℤ × ℕ :=
  if d.month ≤ 2 then (d.year - 1, d.month + 12) else (d.year, d.month)

def utc2jd (t : Instant) : ℚ :=
  let dh : ℚ := t.hour + t.minute / 60 + t.second / 3600
  let (y, m) := shifted t.date
  let day_num : ℤ := int (36525 / 100 * y) + int (306001 / 10000 * (m + 1)) + t.date.day +
    int (dh / 24 + 17209815 / 10)
  let hour_num := (t.hour + 12) % 24
  day_num + hour_num / 24 + t.minute / 1440 + t.second / 86400

/-- The part of the day that is over. -/
def timeOfDay (t : Instant) : ℚ := t.hour / 24 + t.minute / 1440 + t.second / 86400

/-- The days from one instant to another. -/
def elapsedDays (t u : Instant) : ℚ :=
  (u.date.dayNumber + timeOfDay u) - (t.date.dayNumber + timeOfDay t)

/-- The difference of the Julian days is the elapsed time. -/
def CountsDays (t u : Instant) : Prop := utc2jd u - utc2jd t = elapsedDays t u

/-- The days that `utc2jd` counts before the year and the calendar does not have: the leap day of
every century that has none, and one where `int` rounds up the days of a negative year. -/
def extraDays (y : ℤ) : ℤ := y / 100 - y / 400 + (if y < 0 ∧ ¬ 4 ∣ y then 1 else 0)

/-! ### The terms with `int` -/

theorem int_of_le_of_lt {x : ℚ} {n : ℕ} (hle : n ≤ x) (hlt : x < n + 1) : int x = n := by
  have hnonneg : 0 ≤ x := (Nat.cast_nonneg n).trans hle
  rw [int, if_pos hnonneg]
  exact Int.floor_eq_iff.mpr ⟨hle, hlt⟩

theorem int_div (n : ℤ) {d : ℕ} (hd : 0 < d) :
    int (n / d) = if 0 ≤ n then n / d else -(-n / d) := by
  have hpos : (0 : ℚ) < d := Nat.cast_pos.mpr hd
  have hsign : 0 ≤ (n : ℚ) / d ↔ 0 ≤ n := by
    rw [le_div_iff₀ hpos, zero_mul, Int.cast_nonneg_iff]
  rw [int, Rat.floor_intCast_div_natCast, Rat.ceil_intCast_div_natCast]
  simp only [hsign]

/-- The days of the years, with a leap day in every fourth one. -/
theorem int_years (y : ℤ) : int (36525 / 100 * y) =
    365 * y + y / 4 + (if y < 0 ∧ ¬ 4 ∣ y then 1 else 0) := by
  have hdiv : (36525 / 100 * y : ℚ) = ((36525 * y : ℤ) : ℚ) / (100 : ℕ) := by
    push_cast
    ring
  rw [hdiv, int_div _ (by decide)]
  split_ifs <;> omega

/-- The days of the months since March, and 122 that are taken off again by the constant. -/
theorem int_months {m : ℕ} (hge : 3 ≤ m) (hle : m ≤ 14) :
    int (306001 / 10000 * (m + 1)) = 122 + ((153 * (m - 3) + 2) / 5 : ℕ) := by
  have hdiv : (306001 / 10000 * (m + 1) : ℚ) = ((306001 * (m + 1) : ℤ) : ℚ) / (10000 : ℕ) := by
    push_cast
    ring
  rw [hdiv, int_div _ (by decide), if_pos (by omega)]
  interval_cases m <;> rfl

/-- The minutes and the seconds do not fill an hour. -/
theorem hours_bounds (t : Instant) :
    (t.hour : ℚ) ≤ t.hour + t.minute / 60 + t.second / 3600 ∧
      (t.hour + t.minute / 60 + t.second / 3600 : ℚ) < t.hour + 1 := by
  have hminute : (t.minute : ℚ) ≤ 59 := by exact_mod_cast Nat.le_of_lt_succ t.minute_lt
  have hminute_nonneg : (0 : ℚ) ≤ t.minute := Nat.cast_nonneg _
  have hsecond := t.second_nonneg
  have hsecond_lt := t.second_lt
  constructor <;> linarith

/-- The half day of the constant changes the day at noon, and there the hour starts again. -/
theorem int_noon (t : Instant) :
    (int ((t.hour + t.minute / 60 + t.second / 3600 : ℚ) / 24 + 17209815 / 10) : ℚ) +
        ((t.hour + 12) % 24 : ℕ) / 24 = 1720981 + 1 / 2 + t.hour / 24 := by
  obtain ⟨hle, hlt⟩ := hours_bounds t
  have hnonneg : (0 : ℚ) ≤ t.hour := Nat.cast_nonneg _
  have hhour := t.hour_lt
  have hlast : (t.hour : ℚ) ≤ 23 := by exact_mod_cast Nat.le_of_lt_succ hhour
  rcases Nat.lt_or_ge t.hour 12 with hmorning | hafternoon
  · -- the half day does not fill the day, and the hour counts from the noon before
    have hbefore : (t.hour : ℚ) ≤ 11 := by exact_mod_cast Nat.le_of_lt_succ hmorning
    have hmod : (t.hour + 12) % 24 = t.hour + 12 := Nat.mod_eq_of_lt (by omega)
    have hint : int ((t.hour + t.minute / 60 + t.second / 3600 : ℚ) / 24 + 17209815 / 10) =
        (1720981 : ℕ) :=
      int_of_le_of_lt (by push_cast; linarith) (by push_cast; linarith)
    rw [hint, hmod]
    push_cast
    ring
  · -- it fills the day, and the hour begins at 0 again
    have hafter : (12 : ℚ) ≤ t.hour := by exact_mod_cast hafternoon
    have hmod : (t.hour + 12) % 24 + 12 = t.hour := by omega
    have hcast : (((t.hour + 12) % 24 : ℕ) : ℚ) + 12 = t.hour := by exact_mod_cast hmod
    have hint : int ((t.hour + t.minute / 60 + t.second / 3600 : ℚ) / 24 + 17209815 / 10) =
        (1720982 : ℕ) :=
      int_of_le_of_lt (by push_cast; linarith) (by push_cast; linarith)
    rw [hint, ← hcast]
    push_cast
    ring

/-! ### Days -/

theorem shifted_month (d : Gregorian.Date) : 3 ≤ (shifted d).2 ∧ (shifted d).2 ≤ 14 := by
  have hpos := d.month_pos
  have hle := d.month_le
  unfold shifted
  split_ifs <;> constructor <;> simp only <;> omega

/-- With the year that begins in March the number of a date has one form. -/
theorem dayNumber_eq (d : Gregorian.Date) : d.dayNumber =
    365 * (shifted d).1 + (shifted d).1 / 4 - (shifted d).1 / 100 + (shifted d).1 / 400 + 59 +
      ((153 * ((shifted d).2 - 3) + 2) / 5 : ℕ) + d.day := by
  have hpos := d.month_pos
  have hle := d.month_le
  by_cases hwinter : d.month ≤ 2
  · -- January and February are the last months of the year before
    have hshifted : shifted d = (d.year - 1, d.month + 12) := if_pos hwinter
    have hmonth : Gregorian.daysBeforeMonth d.year d.month = 31 * (d.month - 1) := by
      interval_cases d.month <;> rfl
    rw [hshifted, Gregorian.Date.dayNumber, hmonth, Gregorian.daysBeforeYear]
    simp only
    interval_cases d.month <;> omega
  · -- from March on the leap day of the year is before the date
    have hshifted : shifted d = (d.year, d.month) := if_neg hwinter
    have hmonth := Gregorian.daysBeforeMonth_eq d.year (by omega : 3 ≤ d.month) (by omega)
    have hyear := Gregorian.daysBeforeYear_succ d.year
    rw [Gregorian.daysBeforeYear] at hyear
    rw [hshifted, Gregorian.Date.dayNumber, hmonth]
    simp only
    split_ifs at hyear ⊢ <;> omega

/-- `utc2jd` counts the days of the calendar and the extra ones from a fixed noon. -/
theorem utc2jd_eq (t : Instant) : utc2jd t =
    t.date.dayNumber + timeOfDay t + extraDays (shifted t.date).1 + (1721044 + 1 / 2) := by
  obtain ⟨hge, hle⟩ := shifted_month t.date
  have hnoon := int_noon t
  have hmonths := int_months hge hle
  have hyears := int_years (shifted t.date).1
  have hday := dayNumber_eq t.date
  have hdays : (int (36525 / 100 * (shifted t.date).1) : ℤ) +
      int (306001 / 10000 * ((shifted t.date).2 + 1)) + t.date.day =
        t.date.dayNumber + extraDays (shifted t.date).1 + 63 := by
    rw [hyears, hmonths, hday, extraDays]
    ring
  have hcast := congrArg (Int.cast : ℤ → ℚ) hdays
  push_cast at hcast
  rw [utc2jd, timeOfDay]
  push_cast
  linarith

/-- The year 2000 began half a day before the Julian day 2451545, which `sidereal_t` counts from. -/
example : utc2jd ⟨.ofFields 2000 1 1 (by decide), 12, 0, 0, by decide, by decide, le_rfl,
    by decide⟩ = 2451545 := by
  decide +kernel

/-! ### Elapsed days -/

/-- In the years from 0 on, only a century year without a leap day adds an extra one. -/
theorem extraDays_succ {y : ℤ} (hy : 0 ≤ y) : extraDays (y + 1) =
    extraDays y + (if 100 ∣ y + 1 ∧ ¬ 400 ∣ y + 1 then 1 else 0) := by
  unfold extraDays
  split_ifs <;> omega

theorem extraDays_le {y z : ℤ} (hy : 0 ≤ y) (hle : y ≤ z) : extraDays y ≤ extraDays z := by
  induction z, hle using Int.leInduction with
  | base => exact le_rfl
  | succ z hle ih =>
    rw [extraDays_succ (hy.trans hle)]
    split_ifs <;> omega

/-- So as many days are extra at two years exactly if no such century year is between them. -/
theorem extraDays_eq_iff {y z : ℤ} (hy : 0 ≤ y) (hle : y ≤ z) :
    extraDays y = extraDays z ↔ ∀ c, y < c → c ≤ z → 100 ∣ c → 400 ∣ c := by
  induction z, hle using Int.leInduction with
  | base =>
    refine iff_of_true rfl fun c hlt hc => ?_
    omega
  | succ z hle ih =>
    have hmono := extraDays_le hy hle
    rw [extraDays_succ (hy.trans hle)]
    constructor
    · intro h c hlt hc hcentury
      split_ifs at h with hextra
      · omega
      · rcases Int.lt_or_eq_of_le hc with hbefore | rfl
        · exact ih.mp (by omega) c hlt (by omega) hcentury
        · exact not_not.mp fun hnot => hextra ⟨hcentury, hnot⟩
    · intro h
      have hlast : ¬ (100 ∣ z + 1 ∧ ¬ 400 ∣ z + 1) := fun hextra =>
        hextra.2 (h (z + 1) (by omega) le_rfl hextra.1)
      rw [if_neg hlast, add_zero]
      exact ih.mpr fun c hlt hc => h c hlt (by omega)

/-- Between two instants `utc2jd` counts the elapsed time exactly if as many days are extra at one
as at the other. -/
theorem countsDays_iff (t u : Instant) :
    CountsDays t u ↔ extraDays (shifted t.date).1 = extraDays (shifted u.date).1 := by
  rw [CountsDays, elapsedDays, utc2jd_eq, utc2jd_eq]
  constructor
  · intro h
    have hcast : (extraDays (shifted t.date).1 : ℚ) = extraDays (shifted u.date).1 := by linarith
    exact Int.cast_injective hcast
  · intro h
    rw [h]
    ring

/-- The beginning of a day. -/
def midnight (date : Gregorian.Date) : Instant :=
  ⟨date, 0, 0, 0, by decide, by decide, le_rfl, by decide⟩

/-- Day after day `utc2jd` advances by one, and by one more where a day is extra. -/
theorem utc2jd_iterate_next (n : ℕ) (date : Gregorian.Date) :
    utc2jd (midnight (Gregorian.Date.next^[n] date)) = utc2jd (midnight date) + n +
      (extraDays (shifted (Gregorian.Date.next^[n] date)).1 - extraDays (shifted date).1) := by
  have hnumber := congrArg (Int.cast : ℤ → ℚ) (Gregorian.Date.dayNumber_iterate_next n date)
  have htime (d : Gregorian.Date) : timeOfDay (midnight d) = timeOfDay (midnight date) := rfl
  push_cast at hnumber
  rw [utc2jd_eq, utc2jd_eq, htime]
  have hdate (d : Gregorian.Date) : (midnight d).date = d := rfl
  rw [hdate, hdate, hnumber]
  ring

def february28 : Instant := midnight (.ofFields 1900 2 28 (by decide))

def march1 : Instant := midnight (.ofFields 1900 3 1 (by decide))

/-- The year 1900 had no leap day, and `utc2jd` counts one. -/
theorem not_countsDays_1900 : utc2jd march1 - utc2jd february28 = 2 ∧
    elapsedDays february28 march1 = 1 ∧ ¬ ∀ t u : Instant, CountsDays t u := by
  have htwo : utc2jd march1 - utc2jd february28 = 2 := by decide +kernel
  have hone : elapsedDays february28 march1 = 1 := by decide +kernel
  refine ⟨htwo, hone, fun hall => ?_⟩
  have h := hall february28 march1
  rw [CountsDays, htwo, hone] at h
  exact absurd h (by decide)

end OpenAPT.JulianDay
