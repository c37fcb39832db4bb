import Mathlib.Algebra.Order.BigOperators.Ring.Finset
import Mathlib.Algebra.Order.Field.Rat
import Mathlib.Data.Rat.Floor
import Mathlib.Tactic.FieldSimp
import OpenAPT.Lib.Raster

/-! The functions of `image.cpp` that treat an image pixel by pixel: `flip`, `calibrate_image` and
`calc_similarity`, with `double` taken as exact. -/
namespace OpenAPT.Image

open Raster

/-- The place of `(x, y)` in the first channel. -/
def place (p : ℕ × ℕ) : ℕ × ℕ × ℕ := (p.1, p.2, 0)

/-- A `CImg<T>` of one slice. The value at `(x, y, c)` is the one of the pixel `(x, y)` in the
channel `c`. -/
structure CImg (T : Type*) where
  width : ℕ
  height : ℕ
  spectrum : ℕ
  value : ℕ × ℕ × ℕ → T

namespace CImg

variable {T : Type*}

/-- `img(x, y)`, which is in the first channel. -/
def pixel (img : CImg T) (p : ℕ × ℕ) : T := img.value (place p)

/-- `cimg_forXY` -/
def forXY (img : CImg T) : List (ℕ × ℕ) := pixels img.width img.height

def is_empty (img : CImg T) : Bool := img.width = 0 || img.height = 0 || img.spectrum = 0

/-- `mean`, over all channels. That of an empty image is no number; here it is `0`. -/
def mean (img : CImg UInt8) : ℚ :=
  (List.range img.spectrum).foldl (fun res c => img.forXY.foldl
    (fun res p => res + (img.value (p.1, p.2, c)).toNat) res) 0 /
      (img.width * img.height * img.spectrum)

end CImg

/-! ### flip -/

/-- `std::swap` of two values of the first channel. -/
def swap (p q : ℕ × ℕ) (v : ℕ × ℕ × ℕ → UInt8) : ℕ × ℕ × ℕ → UInt8 :=
  exchange (place p) (place q) v

def flip (img : CImg UInt8) (direction : ℤ) : CImg UInt8 :=
  if direction = 0 then
    { img with
      value := img.forXY.foldl (fun v p => swap p (img.width - 1 - p.1, p.2) v) img.value }
  else if direction = 1 then
    { img with
      value := img.forXY.foldl (fun v p => swap p (p.1, img.height - 1 - p.2) v) img.value }
  else img

/-- Where the value of a pixel comes from when the image is mirrored. -/
def mirror (img : CImg UInt8) (direction : ℤ) (x y : ℕ) : ℕ × ℕ :=
  if direction = 0 then (img.width - 1 - x, y)
  else if direction = 1 then (x, img.height - 1 - y)
  else (x, y)

/-- Every channel of `out` is that of `img` mirrored. -/
def Mirrors (img out : CImg UInt8) (direction : ℤ) : Prop :=
  ∀ x < img.width, ∀ y < img.height, ∀ c < img.spectrum, out.value (x, y, c) =
    img.value ((mirror img direction x y).1, (mirror img direction x y).2, c)

/-- The image is its own mirror image. -/
def Symmetric (img : CImg UInt8) (direction : ℤ) : Prop := Mirrors img img direction

/-- `flip` mirrors the image; a second flip undoes the first, and one that changes nothing is one of
a symmetric image. -/
def FlipMirrors (img : CImg UInt8) (direction : ℤ) : Prop :=
  Mirrors img (flip img direction) direction ∧ flip (flip img direction) direction = img ∧
    (flip img direction = img → Symmetric img direction)

theorem nodup_places (img : CImg UInt8) :
    (img.forXY.map place).Nodup := by
  apply (nodup_pixels img.width img.height).map
  intro p q h
  obtain ⟨hx, hrest⟩ := Prod.mk.inj h
  exact Prod.ext hx (Prod.mk.inj hrest).1

/-- The loop visits both pixels of every pair, and so exchanges each pair twice. -/
theorem foldl_swap (img : CImg UInt8) (partner : ℕ × ℕ → ℕ × ℕ) (σ : ℕ × ℕ × ℕ → ℕ × ℕ × ℕ)
    (hσ : Function.Involutive σ)
    (hpartner : ∀ p ∈ img.forXY, partner p ∈ img.forXY ∧
      σ (place p) = place (partner p)) :
    img.forXY.foldl (fun v p => swap p (partner p) v) img.value = img.value := by
  have hstep : img.forXY.foldl (fun v p => swap p (partner p) v) img.value =
      img.forXY.foldl (fun v p => exchange (place p) (σ (place p)) v) img.value := by
    apply List.foldl_ext
    intro v p hp
    rw [swap, (hpartner p hp).2]
  rw [hstep, ← List.foldl_map (f := place) (g := fun v i => exchange i (σ i) v)]
  apply foldl_exchange_of_closed hσ _ (nodup_places img)
  intro i hi
  obtain ⟨p, hp, rfl⟩ := List.mem_map.mp hi
  rw [(hpartner p hp).2]
  exact List.mem_map_of_mem (hpartner p hp).1

/-- `flip` leaves every image as it is. -/
theorem flip_eq_self (img : CImg UInt8) (direction : ℤ) : flip img direction = img := by
  unfold flip
  split_ifs
  · -- columns are mirrored
    rw [foldl_swap img _ (fun i => (reflect img.width i.1, i.2))]
    · intro i
      exact Prod.ext (reflect_involutive img.width i.1) rfl
    · intro p hp
      obtain ⟨hx, hy⟩ := mem_pixels.mp hp
      rw [← reflect_of_lt hx]
      exact ⟨mem_pixels.mpr ⟨reflect_lt hx, hy⟩, rfl⟩
  · -- rows are mirrored
    rw [foldl_swap img _ (fun i => (i.1, reflect img.height i.2.1, i.2.2))]
    · intro i
      exact Prod.ext rfl (Prod.ext (reflect_involutive img.height i.2.1) rfl)
    · intro p hp
      obtain ⟨hx, hy⟩ := mem_pixels.mp hp
      rw [← reflect_of_lt hy]
      exact ⟨mem_pixels.mpr ⟨hx, reflect_lt hy⟩, rfl⟩
  · rfl

/-- It mirrors the image exactly if the image is symmetric. -/
theorem flipMirrors_iff_symmetric (img : CImg UInt8) (direction : ℤ) :
    FlipMirrors img direction ↔ Symmetric img direction := by
  rw [FlipMirrors, flip_eq_self, flip_eq_self]
  constructor
  · exact fun h => h.1
  · exact fun h => ⟨h, rfl, fun _ => h⟩

/-- A black pixel and a bright one beside it. -/
def twoPixels : CImg UInt8 := ⟨2, 1, 1, fun p => if p.1 = 0 then 0 else 1⟩

theorem flip_twoPixels : ¬ FlipMirrors twoPixels 0 := by
  intro h
  have hpixel := h.1 0 (by decide) 0 (by decide) 0 (by decide)
  rw [flip_eq_self] at hpixel
  exact absurd hpixel (by decide)

/-! ### calibrate_image -/

/-- `std::round`, halves away from zero. -/
def round (x : ℚ) : ℤ := if 0 ≤ x then ⌊x + 1 / 2⌋ else -⌊-x + 1 / 2⌋

/-- What `calibrate_image` computes for a pixel, before it is narrowed. -/
def calibrated (mean threshold : ℚ) (v : UInt8) : ℤ :=
  if (v.toNat : ℚ) ≤ threshold then 0
  else round ((v.toNat - threshold) * 255 / (mean - threshold))

/-- `static_cast<unsigned char>` of a `double`, which is not defined for a value out of range. -/
def narrow (z : ℤ) : Option UInt8 := if 0 ≤ z ∧ z ≤ 255 then some (UInt8.ofNat z.toNat) else none

def calc_mean (img : CImg UInt8) : ℚ := img.mean

/-- The image that is left, `none` if it is not defined. -/
def calibrate_image (img : CImg UInt8) (threshold : ℚ) : Option (CImg UInt8) :=
  let mean := calc_mean img
  (img.forXY.foldlM (fun v p =>
      (narrow (calibrated mean threshold (v (place p)))).map
        (Function.update v (place p)))
    img.value).map fun value => { img with value }

/-- Each computed value is in the range of a pixel, and no two pixels change their order. -/
def KeepsOrderAndRange (img : CImg UInt8) (threshold : ℚ) : Prop :=
  (∀ p ∈ img.forXY, 0 ≤ calibrated (calc_mean img) threshold (img.pixel p) ∧
    calibrated (calc_mean img) threshold (img.pixel p) ≤ 255) ∧
  ∃ out, calibrate_image img threshold = some out ∧
    ∀ p ∈ img.forXY, ∀ q ∈ img.forXY, img.pixel p ≤ img.pixel q → out.pixel p ≤ out.pixel q

/-- No pixel of the first channel is so far above the mean that it is scaled to `255.5` or more. -/
def BelowLimit (img : CImg UInt8) (threshold : ℚ) : Prop :=
  ∀ p ∈ img.forXY, ((img.pixel p).toNat : ℚ) ≤ threshold ∨
    510 * ((img.pixel p).toNat - threshold) < 511 * (calc_mean img - threshold)

theorem round_of_nonneg {x : ℚ} (h : 0 ≤ x) : round x = ⌊x + 1 / 2⌋ := if_pos h

section Calibrated

variable {mean threshold : ℚ} {v w : UInt8}

theorem calibrated_of_le (hv : (v.toNat : ℚ) ≤ threshold) : calibrated mean threshold v = 0 :=
  if_pos hv

/-- Below the mean the scale is positive. -/
theorem calibrated_of_lt (hmean : threshold < mean) (hv : threshold < v.toNat) :
    calibrated mean threshold v = ⌊(v.toNat - threshold) * 255 / (mean - threshold) + 1 / 2⌋ := by
  have hnum : 0 ≤ ((v.toNat : ℚ) - threshold) * 255 := by linarith
  have hscaled := div_nonneg hnum (sub_pos.mpr hmean).le
  rw [calibrated, if_neg hv.not_ge, round_of_nonneg hscaled]

theorem calibrated_nonneg (hmean : threshold < mean) (v : UInt8) :
    0 ≤ calibrated mean threshold v := by
  rcases le_or_gt (v.toNat : ℚ) threshold with hv | hv
  · exact (calibrated_of_le hv).ge
  · rw [calibrated_of_lt hmean hv]
    apply Int.floor_nonneg.mpr
    have hnum : 0 ≤ ((v.toNat : ℚ) - threshold) * 255 := by linarith
    have hscaled := div_nonneg hnum (sub_pos.mpr hmean).le
    linarith

/-- The order of the computed values is that of the pixels, in range or not. -/
theorem calibrated_mono (hmean : threshold < mean) (hvw : v ≤ w) :
    calibrated mean threshold v ≤ calibrated mean threshold w := by
  have hle : (v.toNat : ℚ) ≤ w.toNat := Nat.cast_le.mpr (UInt8.le_iff_toNat_le.mp hvw)
  rcases le_or_gt (v.toNat : ℚ) threshold with hv | hv
  · rw [calibrated_of_le hv]
    exact calibrated_nonneg hmean w
  · rw [calibrated_of_lt hmean hv, calibrated_of_lt hmean (hv.trans_le hle)]
    apply Int.floor_mono
    have hpos := sub_pos.mpr hmean
    gcongr

theorem calibrated_le_iff (hmean : threshold < mean) (v : UInt8) :
    calibrated mean threshold v ≤ 255 ↔
      (v.toNat : ℚ) ≤ threshold ∨ 510 * (v.toNat - threshold) < 511 * (mean - threshold) := by
  rcases le_or_gt (v.toNat : ℚ) threshold with hv | hv
  · rw [calibrated_of_le hv]
    exact iff_of_true (by decide) (Or.inl hv)
  · have hpos := sub_pos.mpr hmean
    have hlimit (x : ℚ) : ⌊x + 1 / 2⌋ ≤ 255 ↔ x < 511 / 2 := by
      rw [← Int.lt_add_one_iff, Int.floor_lt]
      norm_num
      constructor <;> intro h <;> linarith
    rw [calibrated_of_lt hmean hv, hlimit, div_lt_iff₀ hpos, or_iff_right hv.not_ge]
    constructor <;> intro h <;> linarith

end Calibrated

theorem narrow_of_range {z : ℤ} (h : 0 ≤ z ∧ z ≤ 255) : narrow z = some (UInt8.ofNat z.toNat) :=
  if_pos h

theorem ofNat_toNat_le {z z' : ℤ} (hz' : z' ≤ 255) (h : z ≤ z') :
    UInt8.ofNat z.toNat ≤ UInt8.ofNat z'.toNat := by
  rw [UInt8.le_iff_toNat_le, UInt8.toNat_ofNat', UInt8.toNat_ofNat']
  omega

/-- If all computed values are in range, the image is defined and has these values. -/
theorem exists_calibrate_image {img : CImg UInt8} {threshold : ℚ}
    (h : ∀ p ∈ img.forXY, 0 ≤ calibrated (calc_mean img) threshold (img.pixel p) ∧
      calibrated (calc_mean img) threshold (img.pixel p) ≤ 255) :
    ∃ out, calibrate_image img threshold = some out ∧ ∀ p ∈ img.forXY, out.pixel p =
      UInt8.ofNat (calibrated (calc_mean img) threshold (img.pixel p)).toNat := by
  let f (v : UInt8) : Option UInt8 := narrow (calibrated (calc_mean img) threshold v)
  let g (v : UInt8) : UInt8 := UInt8.ofNat (calibrated (calc_mean img) threshold v).toNat
  let places := img.forXY.map place
  let value (i : ℕ × ℕ × ℕ) : UInt8 := if i ∈ places then g (img.value i) else img.value i
  have hloop : places.foldlM (fun v i => (f (v i)).map (Function.update v i)) img.value =
      some value := by
    apply (foldlM_update_eq_some_iff (fun _ => f) places (nodup_places img) _ _).mpr
    constructor
    · intro i hi
      obtain ⟨p, hp, rfl⟩ := List.mem_map.mp hi
      have hvalue : value (place p) = g (img.pixel p) := if_pos hi
      rw [hvalue]
      exact narrow_of_range (h p hp)
    · exact fun i hi => if_neg hi
  rw [List.foldlM_map] at hloop
  refine ⟨{ img with value }, ?_, fun p hp => if_pos (List.mem_map_of_mem hp)⟩
  exact congrArg (Option.map fun value => { img with value }) hloop

/-- Below the mean `calibrate_image` keeps order and range exactly if no pixel is too far above
it. -/
theorem keepsOrderAndRange_iff (img : CImg UInt8) (threshold : ℚ)
    (hmean : threshold < calc_mean img) :
    KeepsOrderAndRange img threshold ↔ BelowLimit img threshold := by
  constructor
  · intro h p hp
    exact (calibrated_le_iff hmean _).mp (h.1 p hp).2
  · intro h
    have hrange (p : ℕ × ℕ) (hp : p ∈ img.forXY) :
        0 ≤ calibrated (calc_mean img) threshold (img.pixel p) ∧
          calibrated (calc_mean img) threshold (img.pixel p) ≤ 255 :=
      ⟨calibrated_nonneg hmean _, (calibrated_le_iff hmean _).mpr (h p hp)⟩
    obtain ⟨out, hout, hpixel⟩ := exists_calibrate_image hrange
    refine ⟨hrange, out, hout, fun p hp q hq hpq => ?_⟩
    rw [hpixel p hp, hpixel q hq]
    exact ofNat_toNat_le (hrange q hq).2 (calibrated_mono hmean hpq)

theorem keepsOrderAndRange_twoPixels :
    -1 < calc_mean twoPixels ∧
      (KeepsOrderAndRange twoPixels (-1) ↔ BelowLimit twoPixels (-1)) := by
  have hmean : -1 < calc_mean twoPixels := by decide +kernel
  exact ⟨hmean, keepsOrderAndRange_iff twoPixels (-1) hmean⟩

/-- With the threshold `0` the bright one of the two pixels is scaled to `510`. -/
theorem not_keepsOrderAndRange_twoPixels :
    0 < calc_mean twoPixels ∧ ¬ KeepsOrderAndRange twoPixels 0 := by
  have hmean : 0 < calc_mean twoPixels := by decide +kernel
  refine ⟨hmean, fun h => ?_⟩
  have hbright := (h.1 (1, 0) (by decide)).2
  exact absurd hbright (by decide +kernel)

/-! ### calc_similarity -/

def calc_similarity (img1 img2 : CImg UInt8) : ℚ :=
  let width := min img1.width img2.width
  let height := min img1.height img2.height
  let sum_diff := img1.forXY.foldl (fun (sum_diff : ℚ) p =>
    if p.1 < width ∧ p.2 < height then
      sum_diff + |((img1.pixel p).toNat : ℚ) - (img2.pixel p).toNat|
    else sum_diff) 0
  1 - sum_diff / (255 * width * height)

/-- The pixels of the rectangle at the top left that two images have in common. -/
def common (img1 img2 : CImg UInt8) : Finset (ℕ × ℕ) :=
  Finset.range (min img1.width img2.width) ×ˢ Finset.range (min img1.height img2.height)

/-- How far two images are apart at a pixel. -/
def difference (img1 img2 : CImg UInt8) (p : ℕ × ℕ) : ℚ :=
  |((img1.pixel p).toNat : ℚ) - (img2.pixel p).toNat|

section Similarity

variable (img1 img2 : CImg UInt8)

theorem common_comm : common img1 img2 = common img2 img1 := by
  rw [common, common, min_comm img1.width, min_comm img1.height]

theorem difference_comm (p : ℕ × ℕ) : difference img1 img2 p = difference img2 img1 p :=
  abs_sub_comm _ _

theorem difference_nonneg (p : ℕ × ℕ) : 0 ≤ difference img1 img2 p := abs_nonneg _

theorem difference_le (p : ℕ × ℕ) : difference img1 img2 p ≤ 255 := by
  have hbound (v : UInt8) : 0 ≤ (v.toNat : ℚ) ∧ (v.toNat : ℚ) ≤ 255 :=
    ⟨Nat.cast_nonneg _, by exact_mod_cast Nat.le_of_lt_succ v.toNat_lt⟩
  obtain ⟨h1, h1'⟩ := hbound (img1.pixel p)
  obtain ⟨h2, h2'⟩ := hbound (img2.pixel p)
  rw [difference, abs_le]
  constructor <;> linarith

theorem difference_eq_zero_iff (p : ℕ × ℕ) :
    difference img1 img2 p = 0 ↔ img1.pixel p = img2.pixel p := by
  rw [difference, abs_eq_zero, sub_eq_zero, Nat.cast_inj, UInt8.toNat_inj]

/-- Outside of the common rectangle the loop over the first image adds nothing. -/
theorem calc_similarity_eq : calc_similarity img1 img2 =
    1 - (∑ p ∈ common img1 img2, difference img1 img2 p) / (255 * (common img1 img2).card) := by
  have hfilter : (Finset.range img1.width ×ˢ Finset.range img1.height).filter
      (fun p => p.1 < min img1.width img2.width ∧ p.2 < min img1.height img2.height) =
      common img1 img2 := by
    ext p
    simp only [common, Finset.mem_filter, Finset.mem_product, Finset.mem_range]
    omega
  have hsum : img1.forXY.foldl (fun (sum_diff : ℚ) p =>
      if p.1 < min img1.width img2.width ∧ p.2 < min img1.height img2.height then
        sum_diff + difference img1 img2 p
      else sum_diff) 0 = ∑ p ∈ common img1 img2, difference img1 img2 p := by
    rw [CImg.forXY, foldl_pixels_if, zero_add, hfilter]
  have hcard : ((common img1 img2).card : ℚ) =
      (min img1.width img2.width : ℕ) * (min img1.height img2.height : ℕ) := by
    rw [common, Finset.card_product, Finset.card_range, Finset.card_range, Nat.cast_mul]
  rw [hcard, ← hsum, ← mul_assoc]
  rfl

variable {img1 img2}

theorem card_common_pos (h1 : img1.is_empty = false) (h2 : img2.is_empty = false) :
    0 < (255 * (common img1 img2).card : ℚ) := by
  simp only [CImg.is_empty, Bool.or_eq_false_iff, decide_eq_false_iff_not] at h1 h2
  have hcard : 0 < (common img1 img2).card := by
    rw [common, Finset.card_product, Finset.card_range, Finset.card_range]
    apply Nat.mul_pos <;> omega
  have hcast : 0 < ((common img1 img2).card : ℚ) := Nat.cast_pos.mpr hcard
  linarith

theorem sum_difference_le :
    ∑ p ∈ common img1 img2, difference img1 img2 p ≤ 255 * (common img1 img2).card := by
  calc ∑ p ∈ common img1 img2, difference img1 img2 p
      ≤ ∑ _p ∈ common img1 img2, (255 : ℚ) :=
        Finset.sum_le_sum fun p _ => difference_le img1 img2 p
    _ = 255 * (common img1 img2).card := by
        rw [Finset.sum_const, nsmul_eq_mul, mul_comm]

theorem sum_difference_eq_zero_iff :
    ∑ p ∈ common img1 img2, difference img1 img2 p = 0 ↔
      ∀ x < min img1.width img2.width, ∀ y < min img1.height img2.height,
        img1.pixel (x, y) = img2.pixel (x, y) := by
  rw [Finset.sum_eq_zero_iff_of_nonneg fun p _ => difference_nonneg img1 img2 p]
  simp only [difference_eq_zero_iff, common, Finset.mem_product, Finset.mem_range]
  constructor
  · exact fun h x hx y hy => h (x, y) ⟨hx, hy⟩
  · exact fun h p hp => h p.1 hp.1 p.2 hp.2

/-- The similarity is a symmetric measure between `0` and `1`, which is `1` for images that agree on
the common rectangle. -/
theorem calc_similarity_spec (h1 : img1.is_empty = false) (h2 : img2.is_empty = false) :
    calc_similarity img1 img2 = calc_similarity img2 img1 ∧
      0 ≤ calc_similarity img1 img2 ∧ calc_similarity img1 img2 ≤ 1 ∧
      (calc_similarity img1 img2 = 1 ↔
        ∀ x < min img1.width img2.width, ∀ y < min img1.height img2.height,
          img1.pixel (x, y) = img2.pixel (x, y)) := by
  have hpos := card_common_pos h1 h2
  have hnonneg : 0 ≤ ∑ p ∈ common img1 img2, difference img1 img2 p :=
    Finset.sum_nonneg fun p _ => difference_nonneg img1 img2 p
  have hle : (∑ p ∈ common img1 img2, difference img1 img2 p) /
      (255 * (common img1 img2).card) ≤ 1 := (div_le_one hpos).mpr sum_difference_le
  have hquot := div_nonneg hnonneg hpos.le
  refine ⟨?_, ?_, ?_, ?_⟩
  · rw [calc_similarity_eq, calc_similarity_eq img2, common_comm img2]
    congr 2
    exact Finset.sum_congr rfl fun p _ => difference_comm img1 img2 p
  · rw [calc_similarity_eq]
    exact sub_nonneg.mpr hle
  · rw [calc_similarity_eq]
    exact sub_le_self 1 hquot
  · rw [calc_similarity_eq, sub_eq_self, div_eq_zero_iff, or_iff_left hpos.ne']
    exact sum_difference_eq_zero_iff

/-- One white pixel. -/
def whitePixel : CImg UInt8 := ⟨1, 1, 1, fun _ => 255⟩

theorem calc_similarity_twoPixels :
    calc_similarity twoPixels whitePixel = calc_similarity whitePixel twoPixels ∧
      0 ≤ calc_similarity twoPixels whitePixel ∧ calc_similarity twoPixels whitePixel ≤ 1 ∧
      (calc_similarity twoPixels whitePixel = 1 ↔ ∀ x < 1, ∀ y < 1,
        twoPixels.pixel (x, y) = whitePixel.pixel (x, y)) :=
  calc_similarity_spec (by decide) (by decide)

end Similarity

end OpenAPT.Image
