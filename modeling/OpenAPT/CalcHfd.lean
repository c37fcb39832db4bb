import Mathlib.Analysis.Real.Sqrt
import OpenAPT.Image

/-! The half-flux diameters: `calc_hfd` of `image.cpp`, which subtracts the mean of the image first,
and `calcHfd` of `draw.cpp`, which expects that this was done. Distances are exact. -/
namespace OpenAPT.Image

open Raster

/-- The image that `calc_hfd` makes. A pixel that is not below the mean is not below the mean
rounded down, so its difference does not wrap. -/
def subtractMean (img : CImg UInt8) : CImg UInt8 :=
  let mean := img.mean
  { img with
    value := img.forXY.foldl (fun output p => Function.update output (place p)
      (if ((img.pixel p).toNat : ℚ) < mean then 0
        else output (place p) - UInt8.ofNat ⌊mean⌋₊)) img.value }

/-- `pow(x - center_x, 2) + pow(y - center_y, 2) <= pow(out_radius, 2)` -/
def insideCircle (center : ℕ × ℕ) (out_radius : ℚ) (p : ℕ × ℕ) : Prop :=
  ((p.1 : ℚ) - center.1) ^ 2 + ((p.2 : ℚ) - center.2) ^ 2 ≤ out_radius ^ 2

instance (center : ℕ × ℕ) (out_radius : ℚ) (p : ℕ × ℕ) :
    Decidable (insideCircle center out_radius p) := inferInstanceAs (Decidable (_ ≤ _))

noncomputable def distance (center p : ℕ × ℕ) : ℝ :=
  √(((p.1 : ℝ) - center.1) ^ 2 + ((p.2 : ℝ) - center.2) ^ 2)

/-- The center that `calc_hfd` uses. -/
def center (img : CImg UInt8) : ℕ × ℕ := (img.width / 2, img.height / 2)

noncomputable def calc_hfd (img : CImg UInt8) (outer_diameter : ℤ) : ℝ :=
  let outer_diameter := if outer_diameter = 0 then 60 else outer_diameter
  let output := subtractMean img
  let out_radius : ℚ := outer_diameter / 2
  let sums : ℝ × ℝ := img.forXY.foldl (fun s p =>
    if insideCircle (center img) out_radius p then
      (s.1 + (if output.pixel p ≠ 0 then 1 else 0),
        s.2 + (output.pixel p).toNat * distance (center img) p)
    else s) (0, 0)
  if sums.1 ≠ 0 then 2 * sums.2 / sums.1 else √2 * (out_radius : ℝ)

/-- The center that `calcHfd` uses, with `ceil` of the halves. -/
def centerUp (inImage : CImg ℝ) : ℕ × ℕ := ((inImage.width + 1) / 2, (inImage.height + 1) / 2)

/-- `calcHfd`, with its own center and its own radius. -/
noncomputable def calcHfd (inImage : CImg ℝ) (inOuterDiameter : ℕ) : ℝ :=
  let outerRadius : ℕ := inOuterDiameter / 2
  let center := centerUp inImage
  let sums : ℝ × ℝ := inImage.forXY.foldl (fun s p =>
    if insideCircle center outerRadius p then
      (s.1 + inImage.pixel p, s.2 + inImage.pixel p * distance center p)
    else s) (0, 0)
  if sums.1 ≠ 0 then 2 * sums.2 / sums.1 else √2 * outerRadius

/-- The pixels of an image in a circle. -/
def disc {T : Type*} (img : CImg T) (center : ℕ × ℕ) (radius : ℚ) : Finset (ℕ × ℕ) :=
  (Finset.range img.width ×ˢ Finset.range img.height).filter (insideCircle center radius)

/-- Twice the mean distance from the center, weighted by the flux. -/
noncomputable def halfFluxDiameter (s : Finset (ℕ × ℕ)) (flux : ℕ × ℕ → ℝ) (center : ℕ × ℕ) : ℝ :=
  2 * (∑ p ∈ s, flux p * distance center p) / ∑ p ∈ s, flux p

/-- What `calc_hfd` takes as the flux of a pixel. -/
def flux (img : CImg UInt8) (p : ℕ × ℕ) : ℕ := ((subtractMean img).pixel p).toNat

/-- The pixels that `calc_hfd` measures. -/
def measured (img : CImg UInt8) (outer_diameter : ℤ) : Finset (ℕ × ℕ) :=
  disc img (center img) (outer_diameter / 2)

/-- The result is the half-flux diameter of the measured pixels, and not larger than the circle. -/
def MeasuresHalfFlux (img : CImg UInt8) (outer_diameter : ℤ) : Prop :=
  calc_hfd img outer_diameter =
      halfFluxDiameter (measured img outer_diameter) (fun p => flux img p) (center img) ∧
    calc_hfd img outer_diameter ≤ outer_diameter

/-- No measured pixel has a flux above `1`, or none but the center has any flux. -/
def FlatOrCentral (img : CImg UInt8) (outer_diameter : ℤ) : Prop :=
  (∀ p ∈ measured img outer_diameter, flux img p ≤ 1) ∨
    ∀ p ∈ measured img outer_diameter, p ≠ center img → flux img p = 0

/-! ### Sums over a disc -/

theorem distance_nonneg (center p : ℕ × ℕ) : 0 ≤ distance center p := Real.sqrt_nonneg _

theorem distance_eq_zero_iff {center p : ℕ × ℕ} : distance center p = 0 ↔ p = center := by
  have hx := sq_nonneg ((p.1 : ℝ) - center.1)
  have hy := sq_nonneg ((p.2 : ℝ) - center.2)
  rw [distance, Real.sqrt_eq_zero (add_nonneg hx hy), add_eq_zero_iff_of_nonneg hx hy,
    sq_eq_zero_iff, sq_eq_zero_iff, sub_eq_zero, sub_eq_zero, Nat.cast_inj, Nat.cast_inj]
  exact Prod.ext_iff.symm

theorem distance_le {center p : ℕ × ℕ} {radius : ℚ} (hradius : 0 ≤ radius)
    (h : insideCircle center radius p) : distance center p ≤ radius := by
  apply Real.sqrt_le_iff.mpr
  refine ⟨Rat.cast_nonneg.mpr hradius, ?_⟩
  have hcast : ((((p.1 : ℚ) - center.1) ^ 2 + ((p.2 : ℚ) - center.2) ^ 2 : ℚ) : ℝ) ≤
      ((radius ^ 2 : ℚ) : ℝ) := Rat.cast_le.mpr h
  push_cast at hcast
  exact hcast

/-- A half-flux diameter is not larger than the circle. -/
theorem halfFluxDiameter_le {T : Type*} (img : CImg T) {center : ℕ × ℕ} {radius : ℚ}
    {flux : ℕ × ℕ → ℝ} (hradius : 0 ≤ radius) (hflux : ∀ p ∈ disc img center radius, 0 ≤ flux p)
    (hpos : 0 < ∑ p ∈ disc img center radius, flux p) :
    halfFluxDiameter (disc img center radius) flux center ≤ 2 * radius := by
  have hsum : ∑ p ∈ disc img center radius, flux p * distance center p ≤
      radius * ∑ p ∈ disc img center radius, flux p := by
    rw [mul_comm, Finset.sum_mul]
    apply Finset.sum_le_sum
    intro p hp
    apply mul_le_mul_of_nonneg_left _ (hflux p hp)
    exact distance_le hradius (Finset.mem_filter.mp hp).2
  rw [halfFluxDiameter, div_le_iff₀ hpos]
  linarith

/-- A loop that adds up two sums over the pixels in a circle. -/
theorem foldl_disc {T : Type*} (img : CImg T) (center : ℕ × ℕ) (radius : ℚ) (f g : ℕ × ℕ → ℝ) :
    img.forXY.foldl (fun s p =>
      if insideCircle center radius p then (s.1 + f p, s.2 + g p) else s) ((0, 0) : ℝ × ℝ) =
      (∑ p ∈ disc img center radius, f p, ∑ p ∈ disc img center radius, g p) := by
  have hpairs : ∑ p ∈ disc img center radius, (f p, g p) =
      (∑ p ∈ disc img center radius, f p, ∑ p ∈ disc img center radius, g p) :=
    Prod.ext (Prod.fst_sum ..) (Prod.snd_sum ..)
  rw [← hpairs, ← zero_add (∑ p ∈ disc img center radius, (f p, g p))]
  exact foldl_pixels_if (insideCircle center radius) (fun p => (f p, g p)) img.width img.height 0

/-- `calcHfd` does measure the half-flux diameter of the pixels in its circle. -/
theorem calcHfd_spec (inImage : CImg ℝ) (inOuterDiameter : ℕ) (s : Finset (ℕ × ℕ))
    (hs : s = disc inImage (centerUp inImage) (inOuterDiameter / 2 : ℕ))
    (hflux : ∀ p ∈ s, 0 ≤ inImage.pixel p) (hpos : 0 < ∑ p ∈ s, inImage.pixel p) :
    calcHfd inImage inOuterDiameter = halfFluxDiameter s inImage.pixel (centerUp inImage) ∧
      calcHfd inImage inOuterDiameter ≤ inOuterDiameter := by
  subst hs
  have hresult : calcHfd inImage inOuterDiameter =
      halfFluxDiameter (disc inImage (centerUp inImage) (inOuterDiameter / 2 : ℕ)) inImage.pixel
        (centerUp inImage) := by
    simp only [calcHfd, foldl_disc]
    exact if_pos hpos.ne'
  refine ⟨hresult, ?_⟩
  have hradius : 2 * (inOuterDiameter / 2) ≤ inOuterDiameter := by omega
  calc calcHfd inImage inOuterDiameter
      ≤ 2 * (((inOuterDiameter / 2 : ℕ) : ℚ) : ℝ) :=
        hresult.trans_le (halfFluxDiameter_le inImage (Nat.cast_nonneg _) hflux hpos)
    _ ≤ inOuterDiameter := by exact_mod_cast hradius

/-! ### calc_hfd -/

variable {img : CImg UInt8} {outer_diameter : ℤ}

/-- The flux of a pixel is what it has above the mean rounded down. -/
theorem flux_eq (img : CImg UInt8) {p : ℕ × ℕ} (hp : p ∈ img.forXY) :
    flux img p = if ((img.pixel p).toNat : ℚ) < img.mean then 0
      else (img.pixel p).toNat - ⌊img.mean⌋₊ := by
  let f (i : ℕ × ℕ × ℕ) (t : UInt8) : UInt8 :=
    if ((img.value i).toNat : ℚ) < img.mean then 0 else t - UInt8.ofNat ⌊img.mean⌋₊
  have hplaces : (subtractMean img).value = (img.forXY.map place).foldl
      (fun output i => Function.update output i (f i (output i))) img.value := by
    rw [List.foldl_map]
    rfl
  have hpixel : (subtractMean img).pixel p = f (place p) (img.pixel p) := by
    rw [CImg.pixel, hplaces, foldl_update f _ (nodup_places img), if_pos (List.mem_map_of_mem hp)]
    rfl
  have hf : f (place p) (img.pixel p) = if ((img.pixel p).toNat : ℚ) < img.mean then 0
      else img.pixel p - UInt8.ofNat ⌊img.mean⌋₊ := rfl
  rw [flux, hpixel, hf]
  split_ifs with hmean
  · rfl
  · -- the difference of the bytes does not wrap
    have hle : ⌊img.mean⌋₊ ≤ (img.pixel p).toNat := Nat.floor_le_of_le (not_lt.mp hmean)
    have hlt : ⌊img.mean⌋₊ < 256 := hle.trans_lt (UInt8.toNat_lt _)
    have hbyte : (UInt8.ofNat ⌊img.mean⌋₊).toNat = ⌊img.mean⌋₊ := UInt8.toNat_ofNat_of_lt' hlt
    rw [UInt8.toNat_sub_of_le _ _ (UInt8.le_iff_toNat_le.mpr (by rwa [hbyte])), hbyte]

/-- The measured pixels that have a flux. -/
def lit (img : CImg UInt8) (outer_diameter : ℤ) : Finset (ℕ × ℕ) :=
  (measured img outer_diameter).filter fun p => flux img p ≠ 0

/-- `calc_hfd` divides by the number of the pixels that have a flux, and not by the flux. -/
theorem calc_hfd_eq (hdiameter : 0 < outer_diameter) (hlit : (lit img outer_diameter).Nonempty) :
    calc_hfd img outer_diameter =
      2 * (∑ p ∈ measured img outer_diameter, flux img p * distance (center img) p) /
        (lit img outer_diameter).card := by
  have hflux (p : ℕ × ℕ) : (subtractMean img).pixel p ≠ 0 ↔ flux img p ≠ 0 := by
    rw [flux, ne_eq, ne_eq, ← UInt8.toNat_inj]
    rfl
  have hcount : ∑ p ∈ measured img outer_diameter,
      (if (subtractMean img).pixel p ≠ 0 then 1 else 0 : ℝ) = (lit img outer_diameter).card := by
    simp only [hflux, lit]
    exact Finset.sum_boole _ _
  have hcard : ((lit img outer_diameter).card : ℝ) ≠ 0 :=
    Nat.cast_ne_zero.mpr (Finset.card_pos.mpr hlit).ne'
  rw [measured] at hcount
  simp only [calc_hfd, if_neg hdiameter.ne', foldl_disc, hcount]
  exact if_pos hcard

/-- The flux is at least the number of the pixels that have one, and the same if it is flat. -/
theorem sum_flux_eq_card_iff : ∑ p ∈ measured img outer_diameter, flux img p =
    (lit img outer_diameter).card ↔ ∀ p ∈ measured img outer_diameter, flux img p ≤ 1 := by
  have hcard : (lit img outer_diameter).card =
      ∑ p ∈ measured img outer_diameter, if flux img p ≠ 0 then 1 else 0 := by
    rw [lit, Finset.card_filter]
  have hle (p : ℕ × ℕ) : (if flux img p ≠ 0 then 1 else 0) ≤ flux img p := by
    split_ifs <;> omega
  rw [hcard, eq_comm, Finset.sum_eq_sum_iff_of_le fun p _ => hle p]
  apply forall₂_congr
  intro p hp
  split_ifs <;> omega

theorem sum_flux_pos (hlit : (lit img outer_diameter).Nonempty) :
    0 < ∑ p ∈ measured img outer_diameter, (flux img p : ℝ) := by
  obtain ⟨q, hq⟩ := hlit
  obtain ⟨hmem, hne⟩ := Finset.mem_filter.mp hq
  apply Finset.sum_pos' fun p _ => Nat.cast_nonneg _
  exact ⟨q, hmem, Nat.cast_pos.mpr (Nat.pos_of_ne_zero hne)⟩

theorem sum_flux_distance_eq_zero_iff :
    ∑ p ∈ measured img outer_diameter, (flux img p : ℝ) * distance (center img) p = 0 ↔
      ∀ p ∈ measured img outer_diameter, p ≠ center img → flux img p = 0 := by
  rw [Finset.sum_eq_zero_iff_of_nonneg fun p _ =>
    mul_nonneg (Nat.cast_nonneg _) (distance_nonneg _ p)]
  apply forall₂_congr
  intro p hp
  rw [mul_eq_zero, Nat.cast_eq_zero, distance_eq_zero_iff]
  tauto

/-- The result is the half-flux diameter only if the flux is flat or central. -/
theorem halfFlux_iff (hdiameter : 0 < outer_diameter) (hlit : (lit img outer_diameter).Nonempty) :
    calc_hfd img outer_diameter =
      halfFluxDiameter (measured img outer_diameter) (fun p => flux img p) (center img) ↔
    FlatOrCentral img outer_diameter := by
  have hcard : ((lit img outer_diameter).card : ℝ) ≠ 0 :=
    Nat.cast_ne_zero.mpr (Finset.card_pos.mpr hlit).ne'
  have hsum : ∑ p ∈ measured img outer_diameter, (flux img p : ℝ) ≠ 0 :=
    (sum_flux_pos hlit).ne'
  have hflat : ∑ p ∈ measured img outer_diameter, (flux img p : ℝ) =
      (lit img outer_diameter).card ↔ ∀ p ∈ measured img outer_diameter, flux img p ≤ 1 := by
    rw [← sum_flux_eq_card_iff]
    exact_mod_cast Iff.rfl
  -- two quotients of one number are the same for the same divisor, or for the number `0`
  rw [calc_hfd_eq hdiameter hlit, halfFluxDiameter, div_eq_div_iff hcard hsum,
    mul_eq_mul_left_iff, hflat, mul_eq_zero, or_iff_right two_ne_zero,
    sum_flux_distance_eq_zero_iff]
  rfl

/-- `calc_hfd` measures the half-flux diameter exactly if the flux is flat or central. -/
theorem measuresHalfFlux_iff (img : CImg UInt8) (outer_diameter : ℤ)
    (hdiameter : 0 < outer_diameter)
    (hflux : ∃ p ∈ measured img outer_diameter, flux img p ≠ 0) :
    MeasuresHalfFlux img outer_diameter ↔ FlatOrCentral img outer_diameter := by
  obtain ⟨q, hq, hlit⟩ := hflux
  have hnonempty : (lit img outer_diameter).Nonempty := ⟨q, Finset.mem_filter.mpr ⟨hq, hlit⟩⟩
  have hresult := halfFlux_iff hdiameter hnonempty
  constructor
  · exact fun h => hresult.mp h.1
  · intro h
    refine ⟨hresult.mpr h, ?_⟩
    have hradius : (0 : ℚ) ≤ outer_diameter / 2 := by positivity
    have hle := halfFluxDiameter_le img hradius (fun p _ => Nat.cast_nonneg (flux img p))
      (sum_flux_pos hnonempty)
    calc calc_hfd img outer_diameter
        = halfFluxDiameter (measured img outer_diameter) (fun p => flux img p) (center img) :=
          hresult.mpr h
      _ ≤ 2 * ((outer_diameter / 2 : ℚ) : ℝ) := hle
      _ = outer_diameter := by push_cast; ring

/-- A bright pixel to the left of the center. -/
def brightRow : CImg UInt8 := ⟨2, 1, 1, fun i => if i.1 = 0 then 4 else 0⟩

theorem lit_brightRow : (0, 0) ∈ lit brightRow 2 := by decide +kernel

theorem measuresHalfFlux_brightRow :
    MeasuresHalfFlux brightRow 2 ↔ FlatOrCentral brightRow 2 :=
  measuresHalfFlux_iff brightRow 2 (by decide) ⟨(0, 0), Finset.mem_filter.mp lit_brightRow⟩

/-- Its flux is `2` at the distance `1`, and the result is `4`. -/
theorem calc_hfd_brightRow : (∃ p ∈ measured brightRow 2, flux brightRow p ≠ 0) ∧
    ¬ MeasuresHalfFlux brightRow 2 := by
  refine ⟨⟨(0, 0), Finset.mem_filter.mp lit_brightRow⟩, fun h => ?_⟩
  have hmem : (0, 0) ∈ measured brightRow 2 := (Finset.mem_filter.mp lit_brightRow).1
  rcases (halfFlux_iff (by decide) ⟨(0, 0), lit_brightRow⟩).mp h.1 with hflat | hcentral
  · exact absurd (hflat (0, 0) hmem) (by decide +kernel)
  · exact absurd (hcentral (0, 0) hmem (by decide)) (by decide +kernel)

end OpenAPT.Image
