import Mathlib.Algebra.Order.BigOperators.Ring.Finset
import Mathlib.Algebra.Order.Field.Rat
import Mathlib.Data.Rat.Floor
import Mathlib.Tactic.FieldSimp
import OpenAPT.Lib.RunningMax

/-! `thresholdOtsu`, up to the threshold that it finds for a histogram, with `float` taken as
exact. -/
namespace OpenAPT.Draw

open Finset RunningMax

/-- The histogram of an image of one channel: the number of its pixels in each bin. -/
structure Histogram where
  width : ℕ
  value : ℕ → ℕ

/-- The variables of the loop of `thresholdOtsu`. -/
structure OtsuState where
  sumB : ℚ
  wB : ℚ
  max : ℚ
  threshold1 : ℕ
  threshold2 : ℕ

namespace Histogram

variable (hist : Histogram)

/-- `numPixels`. All pixels are in the histogram. -/
def numPixels : ℚ := ∑ pos ∈ range hist.width, (hist.value pos : ℚ)

/-- `sum` -/
def sum : ℚ := ∑ pos ∈ range hist.width, (pos : ℚ) * hist.value pos

/-- The largest variance and its places after the one of the bin `i`. -/
def keepMax (i : ℕ) (bw : ℚ) (s : OtsuState) : OtsuState :=
  if bw ≥ s.max then
    { s with threshold1 := i, threshold2 := if bw > s.max then i else s.threshold2, max := bw }
  else s

/-- The loop from the bin `i` on, with the number of the bins that are left. -/
def otsuLoop : ℕ → ℕ → OtsuState → OtsuState
  | 0, _, s => s
  | left + 1, i, s =>
    let wB := s.wB + hist.value i
    if wB = 0 then otsuLoop left (i + 1) { s with wB }
    else
      let wF := hist.numPixels - wB
      if wF = 0 then { s with wB }
      else
        let sumB := s.sumB + i * hist.value i
        let mF := (hist.sum - sumB) / wF
        let mB := sumB / wB
        let bw := wB * wF * (mB - mF) ^ 2
        otsuLoop left (i + 1) (keepMax i bw { s with wB, sumB })

/-- The loop at its end. -/
def otsu : OtsuState := hist.otsuLoop hist.width 0 ⟨0, 0, 0, 0, 0⟩

/-- `th` -/
def thresholdOtsu : ℚ := ((hist.otsu.threshold1 : ℚ) + hist.otsu.threshold2) / 2

/-! ### Between-class variance -/

/-- The number of the pixels in some bins. -/
def weight (bins : Finset ℕ) : ℚ := ∑ j ∈ bins, (hist.value j : ℚ)

def moment (bins : Finset ℕ) : ℚ := ∑ j ∈ bins, (j : ℚ) * hist.value j

/-- The mean of some bins, `0` if they are empty. -/
def mean (bins : Finset ℕ) : ℚ := hist.moment bins / hist.weight bins

/-- The variance between the bins of a lower part and all others; it is `0` if one of the two is
empty. -/
def betweenVariance (lower : Finset ℕ) : ℚ :=
  hist.weight lower * hist.weight (range hist.width \ lower) *
    (hist.mean lower - hist.mean (range hist.width \ lower)) ^ 2

/-- No split of the bins into a lower and an upper part has a larger variance. -/
def Maximal (lower : Finset ℕ) : Prop :=
  ∀ c ≤ hist.width, hist.betweenVariance (range c) ≤ hist.betweenVariance lower

/-- The bins at most `th`. -/
def binsAtMost (th : ℚ) : Finset ℕ := (range hist.width).filter fun j => (j : ℚ) ≤ th

def TwoBins : Prop :=
  ∃ i j, i < j ∧ j < hist.width ∧ hist.value i ≠ 0 ∧ hist.value j ≠ 0

variable {hist : Histogram} {c : ℕ}

theorem weight_nonneg (bins : Finset ℕ) : 0 ≤ hist.weight bins :=
  Finset.sum_nonneg fun _ _ => Nat.cast_nonneg _

theorem weight_mono {bins bins' : Finset ℕ} (h : bins ⊆ bins') :
    hist.weight bins ≤ hist.weight bins' :=
  Finset.sum_le_sum_of_subset_of_nonneg h fun _ _ _ => Nat.cast_nonneg _

theorem range_subset (hc : c ≤ hist.width) : range c ⊆ range hist.width := range_mono hc

/-- The pixels and the moment of the upper part are what is left of all. -/
theorem weight_upper (hc : c ≤ hist.width) :
    hist.weight (range hist.width \ range c) = hist.numPixels - hist.weight (range c) := by
  rw [eq_sub_iff_add_eq]
  exact Finset.sum_sdiff (range_subset hc)

theorem moment_upper (hc : c ≤ hist.width) :
    hist.moment (range hist.width \ range c) = hist.sum - hist.moment (range c) := by
  rw [eq_sub_iff_add_eq]
  exact Finset.sum_sdiff (range_subset hc)

theorem betweenVariance_range (hc : c ≤ hist.width) : hist.betweenVariance (range c) =
    hist.weight (range c) * (hist.numPixels - hist.weight (range c)) *
      (hist.moment (range c) / hist.weight (range c) -
        (hist.sum - hist.moment (range c)) / (hist.numPixels - hist.weight (range c))) ^ 2 := by
  rw [betweenVariance, mean, mean, weight_upper hc, moment_upper hc]

/-- An empty lower part, or an empty upper one. -/
theorem betweenVariance_of_weight (hc : c ≤ hist.width)
    (h : hist.weight (range c) = 0 ∨ hist.numPixels - hist.weight (range c) = 0) :
    hist.betweenVariance (range c) = 0 := by
  rw [betweenVariance_range hc]
  rcases h with hlower | hupper
  · rw [hlower, zero_mul, zero_mul]
  · rw [hupper, mul_zero, zero_mul]

/-- Where the classes have no pixels, they have no moment. -/
theorem moment_of_weight {bins : Finset ℕ} (h : hist.weight bins = 0) : hist.moment bins = 0 := by
  have hzero := (Finset.sum_eq_zero_iff_of_nonneg fun _ _ => Nat.cast_nonneg _).mp h
  apply Finset.sum_eq_zero
  intro j hj
  rw [hzero j hj, mul_zero]

/-! ### The loop -/

/-- The variance of the split after the bin `j`. -/
def variance (hist : Histogram) (j : ℕ) : ℚ := hist.betweenVariance (range (j + 1))

/-- The invariant of the loop before the bin `i`. -/
structure Summed (hist : Histogram) (i : ℕ) (s : OtsuState) : Prop where
  wB : s.wB = hist.weight (range i)
  sumB : s.sumB = hist.moment (range i)
  record : Record hist.variance i s.max s.threshold2 s.threshold1

theorem keepMax_wB (i : ℕ) (bw : ℚ) (s : OtsuState) : (keepMax i bw s).wB = s.wB := by
  unfold keepMax
  split_ifs <;> rfl

theorem keepMax_sumB (i : ℕ) (bw : ℚ) (s : OtsuState) : (keepMax i bw s).sumB = s.sumB := by
  unfold keepMax
  split_ifs <;> rfl

theorem record_keepMax {i : ℕ} {s : OtsuState}
    (h : Record hist.variance i s.max s.threshold2 s.threshold1) :
    Record hist.variance (i + 1) (keepMax i (hist.variance i) s).max
      (keepMax i (hist.variance i) s).threshold2 (keepMax i (hist.variance i) s).threshold1 := by
  unfold keepMax
  rcases lt_trichotomy (hist.variance i) s.max with hlt | heq | hgt
  · rw [if_neg hlt.not_ge]
    exact h.of_lt hlt
  · rw [if_pos heq.ge, if_neg heq.not_gt, heq]
    exact h.of_eq heq
  · rw [if_pos hgt.le, if_pos hgt]
    exact h.of_gt hgt

/-- After the break all further splits have an empty upper part. -/
theorem record_break {i : ℕ} {s : OtsuState}
    (h : Record hist.variance i s.max s.threshold2 s.threshold1) (hi : i < hist.width)
    (hwF : hist.numPixels - hist.weight (range (i + 1)) = 0) :
    Record hist.variance hist.width s.max s.threshold2 s.threshold1 := by
  apply h.pass hi.le
  intro j hij hj
  have hmono : hist.weight (range (i + 1)) ≤ hist.weight (range (j + 1)) :=
    weight_mono (range_mono (by omega))
  have hle : hist.weight (range (j + 1)) ≤ hist.numPixels := weight_mono (range_subset hj)
  have hzero : hist.numPixels - hist.weight (range (j + 1)) = 0 := by linarith
  exact (betweenVariance_of_weight hj (Or.inr hzero)).le

/-- At its end the loop has the largest variance of all splits, and its first and last place. -/
theorem record_otsuLoop (left i : ℕ) (s : OtsuState) (hleft : i + left = hist.width)
    (h : Summed hist i s) : Record hist.variance hist.width (hist.otsuLoop left i s).max
      (hist.otsuLoop left i s).threshold2 (hist.otsuLoop left i s).threshold1 := by
  induction left generalizing i s with
  | zero =>
    obtain rfl : i = hist.width := hleft
    exact h.record
  | succ left ih =>
    have hi : i < hist.width := by omega
    have hwB : s.wB + hist.value i = hist.weight (range (i + 1)) := by
      rw [h.wB]
      exact (Finset.sum_range_succ _ i).symm
    have hsumB : s.sumB + i * hist.value i = hist.moment (range (i + 1)) := by
      rw [h.sumB]
      exact (Finset.sum_range_succ _ i).symm
    simp only [otsuLoop, hwB, hsumB]
    split_ifs with hempty hall
    · -- `continue`: there is no pixel up to this bin
      apply ih (i + 1) _ (by omega)
      have hzero := (betweenVariance_of_weight hi (Or.inl hempty)).le
      have hmoment : s.sumB = hist.moment (range (i + 1)) := by
        have hprev : hist.weight (range i) = 0 :=
          le_antisymm (hempty ▸ weight_mono (range_mono (Nat.le_succ i))) (weight_nonneg _)
        rw [h.sumB, moment_of_weight hempty, moment_of_weight hprev]
      refine ⟨rfl, hmoment, h.record.pass (Nat.le_succ i) fun j hij hj => ?_⟩
      obtain rfl : j = i := by omega
      exact hzero
    · -- `break`: there is no pixel above this bin
      exact record_break h.record hi hall
    · -- `bw` is the variance of the split after this bin
      apply ih (i + 1) _ (by omega)
      have hbw : hist.variance i = _ := betweenVariance_range hi
      rw [← hbw]
      exact ⟨keepMax_wB .., keepMax_sumB .., record_keepMax h.record⟩

theorem record_otsu (hist : Histogram) : Record hist.variance hist.width hist.otsu.max
    hist.otsu.threshold2 hist.otsu.threshold1 := by
  apply record_otsuLoop hist.width 0 _ (Nat.zero_add _)
  exact ⟨Finset.sum_range_zero _ |>.symm, Finset.sum_range_zero _ |>.symm, record_zero ..⟩

/-! ### The thresholds -/

/-- The mean of bins up to `a` is at most `a`. -/
theorem mean_le {bins : Finset ℕ} {a : ℕ} (hle : ∀ j ∈ bins, j ≤ a)
    (hpos : 0 < hist.weight bins) : hist.mean bins ≤ a := by
  rw [mean, div_le_iff₀ hpos, weight, Finset.mul_sum]
  apply Finset.sum_le_sum
  intro j hj
  exact mul_le_mul_of_nonneg_right (Nat.cast_le.mpr (hle j hj)) (Nat.cast_nonneg _)

theorem le_mean {bins : Finset ℕ} {a : ℕ} (hle : ∀ j ∈ bins, a ≤ j)
    (hpos : 0 < hist.weight bins) : a ≤ hist.mean bins := by
  rw [mean, le_div_iff₀ hpos, weight, Finset.mul_sum]
  apply Finset.sum_le_sum
  intro j hj
  exact mul_le_mul_of_nonneg_right (Nat.cast_le.mpr (hle j hj)) (Nat.cast_nonneg _)

theorem weight_pos {bins : Finset ℕ} {j : ℕ} (hj : j ∈ bins) (hne : hist.value j ≠ 0) :
    0 < hist.weight bins := by
  apply Finset.sum_pos' fun _ _ => Nat.cast_nonneg _
  exact ⟨j, hj, Nat.cast_pos.mpr (Nat.pos_of_ne_zero hne)⟩

/-- Between two bins with pixels there is a split with a positive variance. -/
theorem exists_variance_pos (h : hist.TwoBins) : ∃ i < hist.width, 0 < hist.variance i := by
  obtain ⟨i, j, hij, hj, hi_ne, hj_ne⟩ := h
  refine ⟨i, hij.trans hj, ?_⟩
  have hlower : 0 < hist.weight (range (i + 1)) := weight_pos (self_mem_range_succ i) hi_ne
  have hupper : 0 < hist.weight (range hist.width \ range (i + 1)) := by
    apply weight_pos (j := j) _ hj_ne
    rw [mem_sdiff, mem_range, mem_range]
    omega
  have hle : hist.mean (range (i + 1)) ≤ i := by
    apply mean_le _ hlower
    intro k hk
    exact Nat.lt_succ_iff.mp (mem_range.mp hk)
  have hge : ((i + 1 : ℕ) : ℚ) ≤ hist.mean (range hist.width \ range (i + 1)) := by
    apply le_mean _ hupper
    intro k hk
    rw [mem_sdiff, mem_range, mem_range] at hk
    omega
  have hdiff : hist.mean (range (i + 1)) - hist.mean (range hist.width \ range (i + 1)) ≠ 0 := by
    push_cast at hge
    linarith
  exact mul_pos (mul_pos hlower hupper) (sq_pos_of_ne_zero hdiff)

theorem max_pos (h : hist.TwoBins) : 0 < hist.otsu.max := by
  obtain ⟨i, hi, hpos⟩ := exists_variance_pos h
  exact hpos.trans_le (hist.record_otsu.le i hi)

theorem thresholds_ordered (h : hist.TwoBins) :
    hist.otsu.threshold2 ≤ hist.otsu.threshold1 ∧ hist.otsu.threshold1 < hist.width := by
  have hrecord := hist.record_otsu
  have hlast := hrecord.last_lt (max_pos h)
  exact ⟨(hrecord.between (max_pos h) _ hlast (hrecord.last_eq (max_pos h))).1, hlast⟩

/-- The largest variance that the loop has seen is that of the best split. -/
theorem maximal_iff (h : hist.TwoBins) (lower : Finset ℕ) :
    hist.Maximal lower ↔ hist.otsu.max ≤ hist.betweenVariance lower := by
  have hrecord := hist.record_otsu
  constructor
  · intro hmaximal
    rw [← hrecord.last_eq (max_pos h)]
    exact hmaximal _ (thresholds_ordered h).2
  · intro hle c hc
    apply le_trans _ hle
    cases c with
    | zero =>
      have hempty : hist.weight (range 0) = 0 := Finset.sum_range_zero _
      rw [betweenVariance_of_weight hc (Or.inl hempty)]
      exact hrecord.nonneg
    | succ j => exact hrecord.le j hc

/-- Splits with equally many pixels in the lower part have the same variance. -/
theorem betweenVariance_congr {c c' : ℕ} (hcc' : c ≤ c') (hc' : c' ≤ hist.width)
    (h : hist.weight (range c) = hist.weight (range c')) :
    hist.betweenVariance (range c) = hist.betweenVariance (range c') := by
  have hsub : range c ⊆ range c' := range_mono hcc'
  have hweight : hist.weight (range c' \ range c) + hist.weight (range c) =
      hist.weight (range c') := Finset.sum_sdiff hsub
  have hmoment : hist.moment (range c' \ range c) + hist.moment (range c) =
      hist.moment (range c') := Finset.sum_sdiff hsub
  rw [h, add_eq_right] at hweight
  rw [moment_of_weight hweight, zero_add] at hmoment
  rw [betweenVariance_range (hcc'.trans hc'), betweenVariance_range hc', h, hmoment]

/-- The bins up to the final threshold. -/
theorem binsAtMost_thresholdOtsu (h : hist.TwoBins) : hist.binsAtMost hist.thresholdOtsu =
    range ((hist.otsu.threshold1 + hist.otsu.threshold2) / 2 + 1) := by
  have hlast := thresholds_ordered h
  ext j
  have hle : (j : ℚ) ≤ hist.thresholdOtsu ↔
      j * 2 ≤ hist.otsu.threshold1 + hist.otsu.threshold2 := by
    rw [thresholdOtsu, le_div_iff₀ two_pos]
    exact_mod_cast Iff.rfl
  rw [binsAtMost, mem_filter, mem_range, mem_range, hle]
  omega

/-- The thresholds are the last and the first bin after which a split has the largest variance, and
the final threshold is halfway between them. It is as good where no two different ways to divide the
pixels tie. -/
theorem thresholdOtsu_spec (hist : Histogram) (h : hist.TwoBins) :
    hist.Maximal (range (hist.otsu.threshold1 + 1)) ∧
      hist.Maximal (range (hist.otsu.threshold2 + 1)) ∧
      (∀ j < hist.width, hist.Maximal (range (j + 1)) →
        hist.otsu.threshold2 ≤ j ∧ j ≤ hist.otsu.threshold1) ∧
      hist.thresholdOtsu = ((hist.otsu.threshold1 : ℚ) + hist.otsu.threshold2) / 2 ∧
      ((∀ i < hist.width, ∀ j < hist.width, hist.Maximal (range (i + 1)) →
          hist.Maximal (range (j + 1)) →
          hist.weight (range (i + 1)) = hist.weight (range (j + 1))) →
        hist.Maximal (hist.binsAtMost hist.thresholdOtsu)) := by
  have hrecord := hist.record_otsu
  have hpos := max_pos h
  obtain ⟨hfirst, hlast⟩ := thresholds_ordered h
  have hmaximal1 : hist.Maximal (range (hist.otsu.threshold1 + 1)) :=
    (maximal_iff h _).mpr (hrecord.last_eq hpos).ge
  have hmaximal2 : hist.Maximal (range (hist.otsu.threshold2 + 1)) :=
    (maximal_iff h _).mpr (hrecord.first_eq hpos).ge
  refine ⟨hmaximal1, hmaximal2, fun j hj hj_maximal => ?_, rfl, fun hties => ?_⟩
  · have heq : hist.variance j = hist.otsu.max :=
      le_antisymm (hrecord.le j hj) ((maximal_iff h _).mp hj_maximal)
    exact hrecord.between hpos j hj heq
  · -- the middle lies between two splits with equally many pixels in their lower parts
    have hweight := hties _ (hfirst.trans_lt hlast) _ hlast hmaximal2 hmaximal1
    have hmiddle : hist.otsu.threshold2 ≤ (hist.otsu.threshold1 + hist.otsu.threshold2) / 2 ∧
        (hist.otsu.threshold1 + hist.otsu.threshold2) / 2 ≤ hist.otsu.threshold1 := by omega
    have hge : hist.weight (range (hist.otsu.threshold2 + 1)) ≤
        hist.weight (range ((hist.otsu.threshold1 + hist.otsu.threshold2) / 2 + 1)) :=
      weight_mono (range_mono (Nat.succ_le_succ hmiddle.1))
    have hle : hist.weight (range ((hist.otsu.threshold1 + hist.otsu.threshold2) / 2 + 1)) ≤
        hist.weight (range (hist.otsu.threshold1 + 1)) :=
      weight_mono (range_mono (Nat.succ_le_succ hmiddle.2))
    have hsame := betweenVariance_congr (Nat.succ_le_succ hmiddle.1)
      (Nat.succ_le_of_lt (hmiddle.2.trans_lt hlast)) (le_antisymm hge (hle.trans hweight.ge))
    rw [binsAtMost_thresholdOtsu h, maximal_iff h, ← hsame]
    exact (hrecord.first_eq hpos).ge

instance (hist : Histogram) (lower : Finset ℕ) : Decidable (hist.Maximal lower) :=
  inferInstanceAs (Decidable (∀ c ≤ hist.width, _))

/-- Two bins with two empty ones between them, after each of which the pixels are split in two. -/
def gap : Histogram := ⟨4, fun j => [1, 0, 0, 1].getD j 0⟩

theorem thresholdOtsu_gap : gap.Maximal (range (gap.otsu.threshold1 + 1)) ∧
    gap.Maximal (range (gap.otsu.threshold2 + 1)) ∧
    gap.Maximal (gap.binsAtMost gap.thresholdOtsu) := by
  have hspec := thresholdOtsu_spec gap ⟨0, 3, by decide⟩
  exact ⟨hspec.1, hspec.2.1, hspec.2.2.2.2 (by decide +kernel)⟩

/-- Two full bins in the middle and an almost empty one at each end. The splits next to the ends
tie, and the one in the middle has a smaller variance. -/
def twoEnds : Histogram :=
  ⟨16, fun j => [1, 0, 0, 0, 0, 0, 0, 10, 10, 0, 0, 0, 0, 0, 0, 1].getD j 0⟩

theorem thresholdOtsu_twoEnds :
    twoEnds.TwoBins ∧ ¬ twoEnds.Maximal (twoEnds.binsAtMost twoEnds.thresholdOtsu) := by
  refine ⟨⟨0, 15, by decide⟩, fun h => ?_⟩
  exact absurd (h 1 (by decide)) (by decide +kernel)

end Histogram

end OpenAPT.Draw
