import Mathlib.Algebra.Order.Group.Abs
import Mathlib.Algebra.Order.Group.Int
import Mathlib.Algebra.Order.Ring.Int
import Mathlib.Tactic.Common

/-! `SyncTimeFromRTC`, which moves the clock by its distance from the RTC. The distance is narrowed
to 32 bits before it is checked. -/
namespace OpenAPT.Time

/-- The numbers that are read from the file of the RTC. -/
structure RtcReading where
  year : Int32
  month : Int32
  day : Int32
  hour : Int32
  minute : Int32
  second : Int32

/-- The members of `struct tm` that are set. -/
structure Tm where
  tm_year : ℤ
  tm_mon : ℤ
  tm_mday : ℤ
  tm_hour : ℤ
  tm_min : ℤ
  tm_sec : ℤ

structure Timeval where
  tv_sec : ℤ
  tv_usec : ℤ
  deriving DecidableEq

/-- What `SyncTimeFromRTC` finds: whether the file of the RTC is there, is a regular one and can be
opened, what is read from it, `mktime`, the current time with its microseconds, and whether
`settimeofday` succeeds. -/
structure RtcEnv where
  rtc_stat : Bool
  S_ISREG : Bool
  is_open : Bool
  reading : RtcReading
  mktime : Tm → Int64
  now : Int64
  usec : Fin 1000000
  settimeofday : Bool

/-- An `int`, where it does not overflow. -/
def checkInt (z : ℤ) : Option ℤ := if -2 ^ 31 ≤ z ∧ z < 2 ^ 31 then some z else none

/-- A `long`, where it does not overflow. -/
def checkLong (z : ℤ) : Option ℤ := if -2 ^ 63 ≤ z ∧ z < 2 ^ 63 then some z else none

/-- `(int)` of a `long long`. -/
def narrowToInt (z : ℤ) : ℤ := z.bmod (2 ^ 32)

def rtc_tm (r : RtcReading) : Option Tm := do
  let tm_year ← checkInt (r.year.toInt - 1900)
  let tm_mon ← checkInt (r.month.toInt - 1)
  pure ⟨tm_year, tm_mon, r.day.toInt, r.hour.toInt, r.minute.toInt, r.second.toInt⟩

/-- The time `tv` moved by `us_offset`. A negative number of microseconds is left as it is. -/
def addOffset (tv : Timeval) (us_offset : ℤ) : Option Timeval := do
  let tv_sec ← checkLong (tv.tv_sec + us_offset.tdiv 1000000)
  let tv_usec := tv.tv_usec + us_offset.tmod 1000000
  if tv_usec ≥ 1000000 then do
    let tv_sec ← checkLong (tv_sec + 1)
    pure ⟨tv_sec, tv_usec - 1000000⟩
  else pure ⟨tv_sec, tv_usec⟩

namespace RtcEnv

def rtc_timestamp (e : RtcEnv) : Option Int64 := (rtc_tm e.reading).map e.mktime

/-- The result, and the time that was passed to `settimeofday`, if it was called. -/
def SyncTimeFromRTC (e : RtcEnv) : Option (Bool × Option Timeval) :=
  if !e.rtc_stat then some (false, none)
  else if !e.S_ISREG then some (false, none)
  else if !e.is_open then some (false, none)
  else do
    let rtc_timestamp ← e.rtc_timestamp
    let local_timestamp ← checkLong (e.now.toInt * 1000000)
    let rtc_us ← checkLong (rtc_timestamp.toInt * 1000000)
    let us_offset ← checkLong (local_timestamp - rtc_us)
    let tv ← addOffset ⟨e.now.toInt, e.usec⟩ (narrowToInt us_offset)
    let lo ← checkLong (e.now.toInt - 60)
    let hi ← checkLong (e.now.toInt + 60)
    if tv.tv_sec < lo ∨ tv.tv_sec > hi then some (false, none)
    else some (e.settimeofday, some tv)

def readable (e : RtcEnv) : Bool := e.rtc_stat && e.S_ISREG && e.is_open

/-- The result is defined, and where it is `true` the time that was set is within one second of the
RTC. -/
def SetsRtcTime (e : RtcEnv) : Prop :=
  ∃ result, e.SyncTimeFromRTC = some result ∧ (result.1 = true → ∃ tv rtc, result.2 = some tv ∧
    e.rtc_timestamp = some rtc ∧
      |tv.tv_sec * 1000000 + tv.tv_usec - rtc.toInt * 1000000| ≤ 1000000)

/-- The result is defined, and `settimeofday` is only reached if the RTC is at most `60` seconds
away from the current time, and with a proper number of microseconds. -/
def Guarded (e : RtcEnv) : Prop :=
  ∃ result, e.SyncTimeFromRTC = some result ∧ ∀ tv, result.2 = some tv → ∃ rtc,
    e.rtc_timestamp = some rtc ∧
      |e.now.toInt * 1000000 + e.usec - rtc.toInt * 1000000| ≤ 60 * 1000000 + e.usec ∧
      0 ≤ tv.tv_usec ∧ tv.tv_usec ≤ 999999

/-- In microseconds both times and their difference are `long`s. -/
def Fits (now rtc : Int64) : Prop :=
  (-2 ^ 63 ≤ now.toInt * 1000000 ∧ now.toInt * 1000000 < 2 ^ 63) ∧
  (-2 ^ 63 ≤ rtc.toInt * 1000000 ∧ rtc.toInt * 1000000 < 2 ^ 63) ∧
  -2 ^ 63 ≤ (now.toInt - rtc.toInt) * 1000000 ∧ (now.toInt - rtc.toInt) * 1000000 < 2 ^ 63

/-- The difference of the times is near the multiple `k` of what fits into 32 bits. -/
def Near (e : RtcEnv) (rtc : Int64) (k : ℤ) : Prop :=
  -61000000 < (e.now.toInt - rtc.toInt) * 1000000 - k * 2 ^ 32 ∧
    (e.now.toInt - rtc.toInt) * 1000000 - k * 2 ^ 32 + e.usec < 61000000

/-- The RTC shows the current second, or is so far away that also the narrowed difference is. -/
def SameOrFar (e : RtcEnv) : Prop :=
  e.readable = true → ∃ rtc, e.rtc_timestamp = some rtc ∧ Fits e.now rtc ∧
    (rtc = e.now ∨ ∀ k, ¬ e.Near rtc k)

/-- The narrowed difference is not near `0` by chance. -/
def NoWrap (e : RtcEnv) : Prop :=
  e.readable = true → ∃ rtc, e.rtc_timestamp = some rtc ∧ Fits e.now rtc ∧
    ∀ k, k ≠ 0 → ¬ e.Near rtc k

end RtcEnv

theorem checkLong_of_range {z : ℤ} (h : -2 ^ 63 ≤ z ∧ z < 2 ^ 63) : checkLong z = some z := if_pos h

theorem checkLong_eq_some_iff {z w : ℤ} :
    checkLong z = some w ↔ (-2 ^ 63 ≤ z ∧ z < 2 ^ 63) ∧ w = z := by
  unfold checkLong
  split_ifs with h
  · rw [Option.some_inj, eq_comm, and_iff_right h]
  · exact iff_of_false nofun fun h' => h h'.1

/-- The narrowed difference is the one modulo `2 ^ 32` that is an `int`. -/
theorem narrowToInt_spec (z : ℤ) : ∃ k, narrowToInt z = z - k * 2 ^ 32 ∧
    -2 ^ 31 ≤ narrowToInt z ∧ narrowToInt z < 2 ^ 31 := by
  have hsum := Int.bmod_add_bdiv z (2 ^ 32)
  have hlower := Int.le_bmod (x := z) (m := 2 ^ 32) (by decide)
  have hupper := Int.bmod_lt (x := z) (m := 2 ^ 32) (by decide)
  refine ⟨z.bdiv (2 ^ 32), ?_⟩
  unfold narrowToInt
  omega

/-- The quotient and the remainder of C++ have the sign of the dividend. -/
theorem tdiv_tmod_spec (d : ℤ) :
    d = d.tdiv 1000000 * 1000000 + d.tmod 1000000 ∧
      (0 ≤ d → 0 ≤ d.tmod 1000000 ∧ d.tmod 1000000 < 1000000) ∧
      (d ≤ 0 → -1000000 < d.tmod 1000000 ∧ d.tmod 1000000 ≤ 0) := by
  have hsum := Int.mul_tdiv_add_tmod d 1000000
  refine ⟨by omega, fun hd => ?_, fun hd => ?_⟩
  · exact ⟨Int.tmod_nonneg _ hd, Int.tmod_lt_of_pos d (by decide)⟩
  · have hneg : 0 ≤ (-d).tmod 1000000 := Int.tmod_nonneg _ (by omega)
    rw [Int.neg_tmod] at hneg
    exact ⟨Int.lt_tmod_of_pos d (by decide), by omega⟩

/-- Away from the limits of a `long` the time is moved by the offset, and it is out of the range of
the guard exactly if the offset is. -/
theorem addOffset_spec {sec usec d : ℤ} (hsec : -2 ^ 62 ≤ sec ∧ sec < 2 ^ 62)
    (husec : 0 ≤ usec ∧ usec < 1000000) (hd : -2 ^ 31 ≤ d ∧ d < 2 ^ 31) :
    ∃ tv, addOffset ⟨sec, usec⟩ d = some tv ∧
      tv.tv_sec * 1000000 + tv.tv_usec = sec * 1000000 + usec + d ∧
      (d.tmod 1000000 = 0 → tv.tv_usec = usec) ∧
      (tv.tv_sec < sec - 60 ∨ tv.tv_sec > sec + 60 ↔
        ¬(-61000000 < d ∧ d + usec < 61000000)) := by
  obtain ⟨hsum, hpos, hneg⟩ := tdiv_tmod_spec d
  have hmoved : checkLong (sec + d.tdiv 1000000) = some (sec + d.tdiv 1000000) :=
    checkLong_of_range (by omega)
  simp only [addOffset, hmoved, Option.bind_eq_bind, Option.bind_some]
  by_cases hcarry : usec + d.tmod 1000000 ≥ 1000000
  · have hcarried : checkLong (sec + d.tdiv 1000000 + 1) = some (sec + d.tdiv 1000000 + 1) :=
      checkLong_of_range (by omega)
    rw [if_pos hcarry, hcarried]
    refine ⟨_, rfl, ?_⟩
    dsimp only
    omega
  · rw [if_neg hcarry]
    refine ⟨_, rfl, ?_⟩
    dsimp only
    omega

section

variable {e : RtcEnv} {rtc : Int64}

/-- Where all values fit, one multiple `k` is taken off the difference, and `settimeofday` is
reached exactly if what is left is small. -/
theorem sync_of_fits (hreadable : e.readable = true) (hrtc : e.rtc_timestamp = some rtc)
    (hfits : RtcEnv.Fits e.now rtc) : ∃ (k : ℤ) (tv : Timeval),
      (∀ k', e.Near rtc k' → k' = k) ∧
      tv.tv_sec * 1000000 + tv.tv_usec = e.now.toInt * 1000000 + e.usec +
        ((e.now.toInt - rtc.toInt) * 1000000 - k * 2 ^ 32) ∧
      (k = 0 → tv.tv_usec = e.usec) ∧
      (e.Near rtc k → e.SyncTimeFromRTC = some (e.settimeofday, some tv)) ∧
      (¬ e.Near rtc k → e.SyncTimeFromRTC = some (false, none)) := by
  obtain ⟨hnow, hrtc_us, hoffset⟩ := hfits
  have hdist : e.now.toInt * 1000000 - rtc.toInt * 1000000 =
      (e.now.toInt - rtc.toInt) * 1000000 := (Int.sub_mul _ _ _).symm
  obtain ⟨k, hnarrow, hint⟩ := narrowToInt_spec ((e.now.toInt - rtc.toInt) * 1000000)
  have husec : 0 ≤ (e.usec : ℤ) ∧ (e.usec : ℤ) < 1000000 := by omega
  have hsec : -2 ^ 62 ≤ e.now.toInt ∧ e.now.toInt < 2 ^ 62 := by omega
  obtain ⟨tv, htv, htotal, hexact, hguard⟩ := addOffset_spec hsec husec hint
  rw [hnarrow] at htotal hguard
  -- no value overflows, so all that is left is the guard
  have hsync : e.SyncTimeFromRTC =
      if tv.tv_sec < e.now.toInt - 60 ∨ tv.tv_sec > e.now.toInt + 60 then some (false, none)
      else some (e.settimeofday, some tv) := by
    have hlo : checkLong (e.now.toInt - 60) = some (e.now.toInt - 60) :=
      checkLong_of_range (by omega)
    have hhi : checkLong (e.now.toInt + 60) = some (e.now.toInt + 60) :=
      checkLong_of_range (by omega)
    simp only [RtcEnv.readable, Bool.and_eq_true] at hreadable
    simp only [RtcEnv.SyncTimeFromRTC, hreadable, hrtc, checkLong_of_range hnow,
      checkLong_of_range hrtc_us, hdist, checkLong_of_range hoffset, htv, hlo, hhi,
      Option.bind_eq_bind, Option.bind_some, Bool.not_true, Bool.false_eq_true, ↓reduceIte]
  refine ⟨k, tv, fun k' hk' => ?_, htotal, fun hk => ?_, fun hnear => ?_, fun hfar => ?_⟩
  · unfold RtcEnv.Near at hk'
    omega
  · -- the offset is a number of whole seconds
    rw [hk, Int.zero_mul, Int.sub_zero] at hnarrow
    apply hexact
    rw [hnarrow]
    exact Int.mul_tmod_left _ _
  · rw [hsync, if_neg fun h => hguard.mp h hnear]
  · rw [hsync, if_pos (hguard.mpr hfar)]

/-- A difference that is small up to a multiple `k` of `2 ^ 32` passes the guard, and the time is
moved by what is left of it. -/
theorem sync_of_near {k : ℤ} (hreadable : e.readable = true) (hrtc : e.rtc_timestamp = some rtc)
    (hfits : RtcEnv.Fits e.now rtc) (hnear : e.Near rtc k) :
    ∃ tv, e.SyncTimeFromRTC = some (e.settimeofday, some tv) ∧
      tv.tv_sec * 1000000 + tv.tv_usec = e.now.toInt * 1000000 + e.usec +
        ((e.now.toInt - rtc.toInt) * 1000000 - k * 2 ^ 32) ∧
      (k = 0 → tv.tv_usec = e.usec) := by
  obtain ⟨k', tv, hunique, htotal, hexact, hreached, -⟩ := sync_of_fits hreadable hrtc hfits
  obtain rfl := hunique k hnear
  exact ⟨tv, hreached hnear, htotal, hexact⟩

theorem sync_of_far (hreadable : e.readable = true) (hrtc : e.rtc_timestamp = some rtc)
    (hfits : RtcEnv.Fits e.now rtc) (hfar : ∀ k, ¬ e.Near rtc k) :
    e.SyncTimeFromRTC = some (false, none) := by
  obtain ⟨k, tv, -, -, -, -, hnone⟩ := sync_of_fits hreadable hrtc hfits
  exact hnone (hfar k)

theorem sync_of_not_readable (h : e.readable = false) :
    e.SyncTimeFromRTC = some (false, none) := by
  simp only [RtcEnv.readable, Bool.and_eq_false_iff] at h
  unfold RtcEnv.SyncTimeFromRTC
  rcases h with (h | h) | h <;> simp only [h, Bool.not_false, ↓reduceIte, ite_self]

/-- Only where all values fit, the result is defined. -/
theorem fits_of_sync {result : Bool × Option Timeval} (hreadable : e.readable = true)
    (h : e.SyncTimeFromRTC = some result) :
    ∃ rtc, e.rtc_timestamp = some rtc ∧ RtcEnv.Fits e.now rtc := by
  simp only [RtcEnv.readable, Bool.and_eq_true] at hreadable
  simp only [RtcEnv.SyncTimeFromRTC, hreadable, Option.bind_eq_bind, Bool.not_true,
    Bool.false_eq_true, ↓reduceIte] at h
  obtain ⟨rtc, hrtc, h⟩ := Option.bind_eq_some_iff.mp h
  obtain ⟨local_timestamp, hlocal, h⟩ := Option.bind_eq_some_iff.mp h
  obtain ⟨rtc_us, hrtc_us, h⟩ := Option.bind_eq_some_iff.mp h
  obtain ⟨us_offset, hoffset, -⟩ := Option.bind_eq_some_iff.mp h
  obtain ⟨hnow, rfl⟩ := checkLong_eq_some_iff.mp hlocal
  obtain ⟨hrtc_range, rfl⟩ := checkLong_eq_some_iff.mp hrtc_us
  obtain ⟨hoffset, -⟩ := checkLong_eq_some_iff.mp hoffset
  rw [← Int.sub_mul] at hoffset
  exact ⟨rtc, hrtc, hnow, hrtc_range, hoffset⟩

theorem toInt_ne {now rtc : Int64} (h : rtc ≠ now) : now.toInt ≠ rtc.toInt :=
  fun heq => h (Int64.toInt_inj.mp heq).symm

end

/-- The RTC is at the start of 1970, and the clock `now` seconds later. -/
def rtcBehind (now : Int64) : RtcEnv where
  rtc_stat := true
  S_ISREG := true
  is_open := true
  reading := ⟨1970, 1, 1, 0, 0, 0⟩
  mktime _ := 0
  now := now
  usec := 0
  settimeofday := true

end OpenAPT.Time
