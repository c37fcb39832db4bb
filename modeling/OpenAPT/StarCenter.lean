import Mathlib.Algebra.Order.BigOperators.Ring.Finset
import Mathlib.Algebra.Order.Field.Basic
import Mathlib.Algebra.Order.Field.Rat
import Mathlib.Tactic.FieldSimp
import OpenAPT.ClusterStars
import OpenAPT.Lib.Raster

/-! The intensity weighted center of a star. `float` is any ordered field. -/
namespace OpenAPT.Draw

open Raster

variable {K : Type*} [Field K]

def calcIx2 (img : CImg K) (x : ℕ) : K :=
  (List.range img.height).foldl (fun Ix y => Ix + img.value x y ^ 2 * x) 0

def calcJy2 (img : CImg K) (y : ℕ) : K :=
  (List.range img.width).foldl (fun Iy x => Iy + img.value x y ^ 2 * y) 0

/-- `*outX` and `*outY` -/
def calcIntensityWeightedCenter (inImg : CImg K) : K × K :=
  let sums : K × K := (List.range inImg.width).foldl (fun s i =>
    (s.1 + calcIx2 inImg i,
      (List.range inImg.height).foldl (fun Ixy2 y => Ixy2 + inImg.value i y ^ 2) s.2)) (0, 0)
  let Jmean2 : K := (List.range inImg.height).foldl (fun Jmean2 i => Jmean2 + calcJy2 inImg i) 0
  (sums.1 / sums.2, Jmean2 / sums.2)

/-- The image in a larger one that is zero elsewhere, with its first pixel at `(dx, dy)`. -/
def embed (img : CImg K) (width height dx dy : ℕ) : CImg K where
  width := width
  height := height
  value x y := if dx ≤ x ∧ x < dx + img.width ∧ dy ≤ y ∧ y < dy + img.height then
    img.value (x - dx) (y - dy) else 0

/-- The sum of a value over the pixels, weighted by the squares of the intensities. -/
def weightedSum (img : CImg K) (f : ℕ × ℕ → K) : K :=
  ∑ p ∈ Finset.range img.width ×ˢ Finset.range img.height, img.value p.1 p.2 ^ 2 * f p

theorem calcIx2_eq (img : CImg K) (x : ℕ) :
    calcIx2 img x = ∑ y ∈ Finset.range img.height, img.value x y ^ 2 * x := by
  rw [calcIx2, foldl_range_add, zero_add]

theorem calcJy2_eq (img : CImg K) (y : ℕ) :
    calcJy2 img y = ∑ x ∈ Finset.range img.width, img.value x y ^ 2 * y := by
  rw [calcJy2, foldl_range_add, zero_add]

/-- The loops along both axes weight a pixel in the same way. -/
theorem calcIntensityWeightedCenter_eq (img : CImg K) : calcIntensityWeightedCenter img =
    (weightedSum img (fun p => p.1) / weightedSum img (fun _ => 1),
      weightedSum img (fun p => p.2) / weightedSum img (fun _ => 1)) := by
  have hImean2 : ∑ i ∈ Finset.range img.width, calcIx2 img i = weightedSum img (fun p => p.1) := by
    rw [weightedSum, Finset.sum_product]
    exact Finset.sum_congr rfl fun x _ => calcIx2_eq img x
  have hIxy2 : ∑ i ∈ Finset.range img.width, ∑ y ∈ Finset.range img.height, img.value i y ^ 2 =
      weightedSum img (fun _ => 1) := by
    simp only [weightedSum, mul_one, Finset.sum_product]
  have hJmean2 : ∑ i ∈ Finset.range img.height, calcJy2 img i =
      weightedSum img (fun p => p.2) := by
    rw [weightedSum, Finset.sum_product_right]
    exact Finset.sum_congr rfl fun y _ => calcJy2_eq img y
  simp only [calcIntensityWeightedCenter, foldl_range_add, foldl_range_pair, zero_add, hImean2,
    hIxy2, hJmean2]

/-- A pixel of the embedded image counts as before, at its new place. -/
theorem weightedSum_embed (img : CImg K) {width height dx dy : ℕ} (hx : dx + img.width ≤ width)
    (hy : dy + img.height ≤ height) (f : ℕ × ℕ → K) :
    weightedSum (embed img width height dx dy) f =
      weightedSum img (fun p => f (p.1 + dx, p.2 + dy)) := by
  let shifted (p : ℕ × ℕ) : ℕ × ℕ := (p.1 + dx, p.2 + dy)
  have hinj : Function.Injective shifted := by
    intro p q h
    have h1 : p.1 + dx = q.1 + dx := congrArg Prod.fst h
    have h2 : p.2 + dy = q.2 + dy := congrArg Prod.snd h
    exact Prod.ext (Nat.add_right_cancel h1) (Nat.add_right_cancel h2)
  have hvalue (p : ℕ × ℕ) (hp : p ∈ Finset.range img.width ×ˢ Finset.range img.height) :
      (embed img width height dx dy).value (p.1 + dx) (p.2 + dy) = img.value p.1 p.2 := by
    rw [Finset.mem_product, Finset.mem_range, Finset.mem_range] at hp
    have hin : dx ≤ p.1 + dx ∧ p.1 + dx < dx + img.width ∧ dy ≤ p.2 + dy ∧
        p.2 + dy < dy + img.height := by omega
    have hplace : (embed img width height dx dy).value (p.1 + dx) (p.2 + dy) =
        img.value (p.1 + dx - dx) (p.2 + dy - dy) := if_pos hin
    rw [hplace, Nat.add_sub_cancel, Nat.add_sub_cancel]
  have hzero (q : ℕ × ℕ)
      (hq : q ∉ (Finset.range img.width ×ˢ Finset.range img.height).image shifted) :
      (embed img width height dx dy).value q.1 q.2 = 0 := by
    refine if_neg fun hin => hq (Finset.mem_image.mpr ⟨(q.1 - dx, q.2 - dy), ?_, ?_⟩)
    · rw [Finset.mem_product, Finset.mem_range, Finset.mem_range]
      omega
    · apply Prod.ext
      · exact Nat.sub_add_cancel hin.1
      · exact Nat.sub_add_cancel hin.2.2.1
  have hsub : (Finset.range img.width ×ˢ Finset.range img.height).image shifted ⊆
      Finset.range width ×ˢ Finset.range height := by
    intro q hq
    obtain ⟨p, hp, rfl⟩ := Finset.mem_image.mp hq
    rw [Finset.mem_product, Finset.mem_range, Finset.mem_range] at hp ⊢
    exact ⟨(Nat.add_comm p.1 dx ▸ Nat.add_lt_add_left hp.1 dx).trans_le hx,
      (Nat.add_comm p.2 dy ▸ Nat.add_lt_add_left hp.2 dy).trans_le hy⟩
  calc weightedSum (embed img width height dx dy) f
      = ∑ q ∈ (Finset.range img.width ×ˢ Finset.range img.height).image shifted,
          (embed img width height dx dy).value q.1 q.2 ^ 2 * f q := by
        -- the pixels around the embedded image are zero
        symm
        apply Finset.sum_subset hsub
        intro q _ hq
        rw [hzero q hq, zero_pow two_ne_zero, zero_mul]
    _ = ∑ p ∈ Finset.range img.width ×ˢ Finset.range img.height,
          (embed img width height dx dy).value (p.1 + dx) (p.2 + dy) ^ 2 * f (shifted p) :=
        Finset.sum_image fun p _ q _ h => hinj h
    _ = weightedSum img (fun p => f (p.1 + dx, p.2 + dy)) := by
        apply Finset.sum_congr rfl
        intro p hp
        rw [hvalue p hp]

theorem weightedSum_add (img : CImg K) (f : ℕ × ℕ → K) (c : K) :
    weightedSum img (fun p => f p + c) = weightedSum img f + weightedSum img (fun _ => 1) * c := by
  simp only [weightedSum, mul_add, mul_one, Finset.sum_add_distrib, Finset.sum_mul]

section Order

variable [LinearOrder K] [IsStrictOrderedRing K]

theorem weightedSum_pos {img : CImg K}
    (hpixel : ∃ x < img.width, ∃ y < img.height, img.value x y ≠ 0) :
    0 < weightedSum img (fun _ => 1) := by
  obtain ⟨x, hx, y, hy, hne⟩ := hpixel
  simp only [weightedSum, mul_one]
  apply Finset.sum_pos' fun p _ => sq_nonneg _
  have hmem : (x, y) ∈ Finset.range img.width ×ˢ Finset.range img.height :=
    Finset.mem_product.mpr ⟨Finset.mem_range.mpr hx, Finset.mem_range.mpr hy⟩
  exact ⟨(x, y), hmem, sq_pos_of_ne_zero hne⟩

/-- A weighted mean of values in an interval is in it. -/
theorem weightedMean_mem {img : CImg K} {f : ℕ × ℕ → K} {b : K}
    (hpos : 0 < weightedSum img (fun _ => 1))
    (hf : ∀ x < img.width, ∀ y < img.height, 0 ≤ f (x, y) ∧ f (x, y) ≤ b) :
    0 ≤ weightedSum img f / weightedSum img (fun _ => 1) ∧
      weightedSum img f / weightedSum img (fun _ => 1) ≤ b := by
  have hbounds (p : ℕ × ℕ) (hp : p ∈ Finset.range img.width ×ˢ Finset.range img.height) :
      0 ≤ f p ∧ f p ≤ b := by
    rw [Finset.mem_product, Finset.mem_range, Finset.mem_range] at hp
    exact hf p.1 hp.1 p.2 hp.2
  constructor
  · apply div_nonneg _ hpos.le
    exact Finset.sum_nonneg fun p hp => mul_nonneg (sq_nonneg _) (hbounds p hp).1
  · rw [div_le_iff₀ hpos, weightedSum, weightedSum, Finset.mul_sum]
    apply Finset.sum_le_sum
    intro p hp
    rw [mul_one, mul_comm b]
    exact mul_le_mul_of_nonneg_left (hbounds p hp).2 (sq_nonneg _)

/-- The intensity weighted center is in the image, and moves with it in a larger one. -/
theorem calcIntensityWeightedCenter_spec (img : CImg K)
    (hpixel : ∃ x < img.width, ∃ y < img.height, img.value x y ≠ 0) :
    (0 ≤ (calcIntensityWeightedCenter img).1 ∧
      (calcIntensityWeightedCenter img).1 ≤ (img.width : K) - 1) ∧
    (0 ≤ (calcIntensityWeightedCenter img).2 ∧
      (calcIntensityWeightedCenter img).2 ≤ (img.height : K) - 1) ∧
    ∀ width height dx dy : ℕ, dx + img.width ≤ width → dy + img.height ≤ height →
      calcIntensityWeightedCenter (embed img width height dx dy) =
        ((calcIntensityWeightedCenter img).1 + dx, (calcIntensityWeightedCenter img).2 + dy) := by
  have hpos := weightedSum_pos hpixel
  have hbound {i n : ℕ} (hi : i < n) : (0 : K) ≤ i ∧ (i : K) ≤ (n : K) - 1 := by
    have hcast : ((i + 1 : ℕ) : K) ≤ n := Nat.cast_le.mpr hi
    push_cast at hcast
    exact ⟨Nat.cast_nonneg i, by linarith⟩
  rw [calcIntensityWeightedCenter_eq]
  refine ⟨weightedMean_mem hpos fun x hx _ _ => hbound hx,
    weightedMean_mem hpos fun _ _ y hy => hbound hy, fun width height dx dy hx hy => ?_⟩
  have hmoved (f : ℕ × ℕ → K) (c : K) :
      weightedSum img (fun p => f p + c) / weightedSum img (fun _ => 1) =
        weightedSum img f / weightedSum img (fun _ => 1) + c := by
    rw [weightedSum_add, add_div, mul_div_cancel_left₀ c hpos.ne']
  rw [calcIntensityWeightedCenter_eq, weightedSum_embed img hx hy, weightedSum_embed img hx hy,
    weightedSum_embed img hx hy]
  simp only [Nat.cast_add, hmoved]

end Order

/-- A star of two pixels. -/
def doubleStar : CImg ℚ := ⟨2, 1, fun x _ => if x = 0 then 3 else 1⟩

theorem calcIntensityWeightedCenter_doubleStar :
    0 ≤ (calcIntensityWeightedCenter doubleStar).1 ∧
      calcIntensityWeightedCenter (embed doubleStar 5 4 2 3) =
        ((calcIntensityWeightedCenter doubleStar).1 + 2,
          (calcIntensityWeightedCenter doubleStar).2 + 3) := by
  have hspec := calcIntensityWeightedCenter_spec doubleStar
    ⟨0, by decide, 0, by decide, by decide⟩
  exact ⟨hspec.1.1, hspec.2.2 5 4 2 3 (by decide) (by decide)⟩

end OpenAPT.Draw
