import Mathlib.Algebra.Order.Floor.Ring
import Mathlib.Algebra.Order.Field.Rat
import Mathlib.Data.Rat.Floor
import Mathlib.Tactic.Linarith
import Mathlib.Tactic.FieldSimp
import Mathlib.Tactic.NormNum

/-! The conversion of a number to an integer that drops the fraction, towards zero. -/
namespace Truncation

def truncate (x : ℚ) : ℤ := if 0 ≤ x then ⌊x⌋ else ⌈x⌉

variable {x : ℚ}

theorem truncate_of_nonneg (h : 0 ≤ x) : truncate x = ⌊x⌋ := if_pos h

theorem truncate_of_neg (h : x < 0) : truncate x = ⌈x⌉ := if_neg h.not_ge

@[simp] theorem truncate_intCast (n : ℤ) : truncate (n : ℚ) = n := by
  rw [truncate, Int.floor_intCast, Int.ceil_intCast, ite_self]

/-- Truncation does not go past an integer. -/
theorem truncate_le {n : ℤ} (h : x ≤ n) : truncate x ≤ n := by
  by_cases hx : 0 ≤ x
  · rw [truncate_of_nonneg hx]
    exact_mod_cast (Int.floor_le x).trans h
  · rw [truncate_of_neg (not_le.mp hx)]
    exact Int.ceil_le.mpr h

theorem le_truncate {n : ℤ} (h : (n : ℚ) ≤ x) : n ≤ truncate x := by
  by_cases hx : 0 ≤ x
  · rw [truncate_of_nonneg hx]
    exact Int.le_floor.mpr h
  · rw [truncate_of_neg (not_le.mp hx)]
    exact_mod_cast h.trans (Int.le_ceil x)

/-- What is dropped of half an integer. -/
theorem sub_truncate_half (n : ℤ) :
    (n : ℚ) / 2 - truncate ((n : ℚ) / 2) =
      if n % 2 = 0 then 0 else if 0 < n then 1 / 2 else -(1 / 2) := by
  obtain ⟨k, rfl | rfl⟩ := Int.even_or_odd' n
  · have hhalf : ((2 * k : ℤ) : ℚ) / 2 = k := by
      push_cast
      ring
    have hmod : 2 * k % 2 = 0 := by omega
    rw [hhalf, truncate_intCast, sub_self, if_pos hmod]
  · have hhalf : ((2 * k + 1 : ℤ) : ℚ) / 2 = k + 1 / 2 := by
      push_cast
      ring
    have hmod : ¬(2 * k + 1) % 2 = 0 := by omega
    rw [hhalf, if_neg hmod]
    by_cases hk : 0 ≤ k
    · have hcast : (0 : ℚ) ≤ k := Int.cast_nonneg hk
      have hfloor : ⌊(k : ℚ) + 1 / 2⌋ = k := by
        apply Int.floor_eq_iff.mpr
        constructor
        · linarith
        · linarith
      rw [truncate_of_nonneg (by linarith), hfloor, if_pos (by omega)]
      ring
    · have hle : k ≤ -1 := by omega
      have hcast : (k : ℚ) ≤ -1 := by exact_mod_cast hle
      have hceil : ⌈(k : ℚ) + 1 / 2⌉ = k + 1 := by
        apply Int.ceil_eq_iff.mpr
        push_cast
        constructor
        · linarith
        · linarith
      rw [truncate_of_neg (by linarith), hceil, if_neg (by omega)]
      push_cast
      ring

/-- Around a number that is not far below zero: the end of an interval of half width `r`, and the
middle of its integer points, rounded up. -/
theorem truncate_middle {r : ℕ} (h : 0 ≤ x + r) :
    truncate (x - r) + (truncate (x + r) - truncate (x - r) + 2) / 2 = ⌊x⌋ + 1 ∧
      truncate (x - r) ≤ truncate (x + r) := by
  have hlast : truncate (x + r) = ⌊x⌋ + r := by
    rw [truncate_of_nonneg h, Int.floor_add_natCast]
  have hle : ⌈x⌉ ≤ ⌊x⌋ + 1 := Int.ceil_le_floor_add_one x
  have hle' : ⌊x⌋ ≤ ⌈x⌉ := Int.floor_le_ceil x
  by_cases hx : 0 ≤ x - r
  · have hfirst : truncate (x - r) = ⌊x⌋ - r := by
      rw [truncate_of_nonneg hx, Int.floor_sub_natCast]
    omega
  · have hfirst : truncate (x - r) = ⌈x⌉ - r := by
      rw [truncate_of_neg (not_le.mp hx), Int.ceil_sub_natCast]
    have hr : 0 < r := by
      apply Nat.pos_of_ne_zero
      intro hzero
      rw [hzero, Nat.cast_zero] at h hx
      linarith
    omega

end Truncation
