import Mathlib.Tactic.Ring
import Mathlib.Tactic.Linarith
import Mathlib.Order.Monotone.Basic
import Mathlib.Algebra.Order.Ring.Nat

/-! Rounding an integer to a given number of significant bits, to nearest with ties to even, as a
conversion to a binary floating point format does where its exponent range is not the limit. -/
namespace Rounding

/-- `n / 2 ^ e` to the nearest integer. -/
def roundShift (e n : ℕ) : ℕ :=
  if 2 * (n % 2 ^ e) < 2 ^ e ∨ 2 * (n % 2 ^ e) = 2 ^ e ∧ n / 2 ^ e % 2 = 0 then n / 2 ^ e
  else n / 2 ^ e + 1

/-- How many low bits of `n` do not fit into `p` bits. -/
def excess (p n : ℕ) : ℕ := n.log2 + 1 - p

def roundBits (p n : ℕ) : ℕ := roundShift (excess p n) n * 2 ^ excess p n

/-- The sign is kept apart. -/
def roundInt (p : ℕ) : ℤ → ℤ
  | .ofNat n => roundBits p n
  | .negSucc n => -roundBits p (n + 1)

theorem div_le_roundShift (e n : ℕ) : n / 2 ^ e ≤ roundShift e n := by
  unfold roundShift
  split <;> omega

theorem roundShift_le (e n : ℕ) : roundShift e n ≤ n / 2 ^ e + 1 := by
  unfold roundShift
  split <;> omega

theorem roundShift_zero (n : ℕ) : roundShift 0 n = n := by
  have hmod : n % 2 ^ 0 = 0 := by rw [pow_zero, Nat.mod_one]
  rw [roundShift, hmod, if_pos (Or.inl (by decide)), pow_zero, Nat.div_one]

theorem roundShift_mono (e : ℕ) : Monotone (roundShift e) := by
  intro n m hnm
  have hdiv : n / 2 ^ e ≤ m / 2 ^ e := Nat.div_le_div_right hnm
  rcases Nat.lt_or_eq_of_le hdiv with hlt | heq
  · have hn := roundShift_le e n
    have hm := div_le_roundShift e m
    omega
  · -- the same integral part: the larger remainder decides
    have hn := Nat.div_add_mod n (2 ^ e)
    have hm := Nat.div_add_mod m (2 ^ e)
    rw [heq] at hn
    have hmod : n % 2 ^ e ≤ m % 2 ^ e := by omega
    unfold roundShift
    rw [heq]
    split <;> split <;> omega

theorem excess_mono (p : ℕ) : Monotone (excess p) := by
  intro n m hnm
  have hlog : n.log2 ≤ m.log2 := by
    by_cases hn : n = 0
    · rw [hn, Nat.log2_zero]
      exact Nat.zero_le _
    · exact (Nat.le_log2 (by omega)).mpr ((Nat.log2_self_le hn).trans hnm)
  unfold excess
  omega

theorem excess_of_lt {p n : ℕ} (hp : 0 < p) (h : n < 2 ^ p) : excess p n = 0 := by
  by_cases hn : n = 0
  · rw [hn, excess, Nat.log2_zero]
    omega
  · have := (Nat.log2_lt hn).mpr h
    unfold excess
    omega

theorem roundBits_of_lt {p n : ℕ} (hp : 0 < p) (h : n < 2 ^ p) : roundBits p n = n := by
  rw [roundBits, excess_of_lt hp h, roundShift_zero, pow_zero, Nat.mul_one]

/-- Where bits are lost, the bits that are kept are `p`. -/
theorem pow_le_of_excess_pos {p n : ℕ} (hp : 0 < p) (h : 0 < excess p n) :
    2 ^ (p - 1 + excess p n) ≤ n := by
  have hn : n ≠ 0 := by
    rintro rfl
    rw [excess, Nat.log2_zero] at h
    omega
  have hlog : p - 1 + excess p n = n.log2 := by
    unfold excess at h ⊢
    omega
  rw [hlog]
  exact Nat.log2_self_le hn

theorem lt_pow_excess (p n : ℕ) : n < 2 ^ (p + excess p n) := by
  refine Nat.lt_of_lt_of_le Nat.lt_log2_self (Nat.pow_le_pow_right (by decide) ?_)
  unfold excess
  omega

theorem roundBits_le (p n : ℕ) : roundBits p n ≤ 2 ^ (p + excess p n) := by
  have hlt := lt_pow_excess p n
  rw [pow_add] at hlt ⊢
  have hdiv : n / 2 ^ excess p n < 2 ^ p := Nat.div_lt_of_lt_mul (by rwa [Nat.mul_comm])
  exact Nat.mul_le_mul_right _ ((roundShift_le _ n).trans hdiv)

theorem le_roundBits {p n : ℕ} (hp : 0 < p) (h : 0 < excess p n) :
    2 ^ (p - 1 + excess p n) ≤ roundBits p n := by
  have hle := pow_le_of_excess_pos hp h
  rw [pow_add] at hle ⊢
  have hdiv : 2 ^ (p - 1) ≤ n / 2 ^ excess p n :=
    (Nat.le_div_iff_mul_le (Nat.two_pow_pos _)).mpr hle
  exact Nat.mul_le_mul_right _ (hdiv.trans (div_le_roundShift _ n))

theorem roundBits_mono {p : ℕ} (hp : 0 < p) : Monotone (roundBits p) := by
  intro n m hnm
  rcases Nat.lt_or_eq_of_le (excess_mono p hnm) with hlt | heq
  · -- a power of two lies between the two
    have hbetween : 2 ^ (p + excess p n) ≤ 2 ^ (p - 1 + excess p m) :=
      Nat.pow_le_pow_right (by decide) (by omega)
    calc
      roundBits p n ≤ 2 ^ (p + excess p n) := roundBits_le p n
      _ ≤ 2 ^ (p - 1 + excess p m) := hbetween
      _ ≤ roundBits p m := le_roundBits hp (by omega)
  · rw [roundBits, roundBits, heq]
    exact Nat.mul_le_mul_right _ (roundShift_mono _ hnm)

/-- The first power of two that does not fit is exact too. -/
theorem roundBits_of_le {p n : ℕ} (hp : 0 < p) (h : n ≤ 2 ^ p) : roundBits p n = n := by
  rcases Nat.lt_or_eq_of_le h with hlt | rfl
  · exact roundBits_of_lt hp hlt
  · have hexcess : excess p (2 ^ p) = 1 := by
      rw [excess, Nat.log2_two_pow]
      omega
    have hdvd : 2 ^ p % 2 = 0 := Nat.mod_eq_zero_of_dvd (dvd_pow_self 2 (by omega))
    have hround : roundShift 1 (2 ^ p) = 2 ^ p / 2 := by
      rw [roundShift, pow_one, hdvd, if_pos (Or.inl (by decide))]
    rw [roundBits, hexcess, hround, pow_one]
    omega

theorem roundInt_mono {p : ℕ} (hp : 0 < p) {a b : ℤ} (hab : a ≤ b) :
    roundInt p a ≤ roundInt p b := by
  cases a with
  | ofNat n =>
    cases b with
    | ofNat m => exact Int.ofNat_le.mpr (roundBits_mono hp (Int.ofNat_le.mp hab))
    | negSucc m =>
      rw [Int.ofNat_eq_natCast] at hab
      omega
  | negSucc n =>
    cases b with
    | ofNat m =>
      have hn : -(roundBits p (n + 1) : ℤ) ≤ 0 := by omega
      exact hn.trans (Int.natCast_nonneg _)
    | negSucc m =>
      have hmn : m + 1 ≤ n + 1 := by omega
      exact Int.neg_le_neg (Int.ofNat_le.mpr (roundBits_mono hp hmn))

theorem roundInt_of_nonneg_of_le {p : ℕ} (hp : 0 < p) {a : ℤ} (h₀ : 0 ≤ a) (h : a ≤ 2 ^ p) :
    roundInt p a = a := by
  obtain ⟨n, rfl⟩ := Int.eq_ofNat_of_zero_le h₀
  have hn : n ≤ 2 ^ p := by exact_mod_cast h
  exact congrArg Int.ofNat (roundBits_of_le hp hn)

end Rounding
