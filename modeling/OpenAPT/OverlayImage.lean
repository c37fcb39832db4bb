import OpenAPT.Image

/-! `overlay_image`, and what becomes of an image that the same image is laid over again and
again. -/
namespace OpenAPT.Image

open Function Raster

/-- The value of a pixel of the first image under one of the second. -/
def overlaid (v w : UInt8) : UInt8 := UInt8.ofNat (round ((v.toNat + w.toNat : ℚ) / 2)).toNat

def overlay_image (img1 img2 : CImg UInt8) : CImg UInt8 :=
  let width := min img1.width img2.width
  let height := min img1.height img2.height
  { img1 with
    value := img1.forXY.foldl (fun v p =>
      if p.1 < width ∧ p.2 < height then
        update v (place p) (overlaid (v (place p)) (img2.pixel p))
      else v) img1.value }

/-! One pixel. -/

theorem overlaid_toNat (v w : UInt8) : (overlaid v w).toNat = (v.toNat + w.toNat + 1) / 2 := by
  have hv := v.toNat_lt
  have hw := w.toNat_lt
  have hround : round ((v.toNat + w.toNat : ℚ) / 2) = ((v.toNat + w.toNat + 1) / 2 : ℕ) := by
    have hcast : ((v.toNat + w.toNat : ℚ) / 2) + 1 / 2 = ((v.toNat + w.toNat + 1 : ℕ) : ℚ) / 2 := by
      push_cast
      ring
    have hfloor := Rat.floor_natCast_div_natCast (v.toNat + w.toNat + 1) 2
    rw [Nat.cast_ofNat] at hfloor
    rw [round_of_nonneg (by positivity), hcast, hfloor]
    omega
  rw [overlaid, hround, Int.toNat_natCast, UInt8.toNat_ofNat']
  omega

/-- The distance to the value that is laid over is halved: it is rounded down from below, and up
from above. -/
theorem overlaid_cases (v w : UInt8) :
    (v ≤ w → overlaid v w ≤ w ∧
      w.toNat - (overlaid v w).toNat = (w.toNat - v.toNat) / 2) ∧
    (w < v → w < overlaid v w ∧
      (overlaid v w).toNat - w.toNat = (v.toNat - w.toNat + 1) / 2) := by
  have h := overlaid_toNat v w
  rw [UInt8.le_iff_toNat_le, UInt8.le_iff_toNat_le, UInt8.lt_iff_toNat_lt, UInt8.lt_iff_toNat_lt]
  omega

theorem overlaid_iterate_of_le {v w : UInt8} (h : v ≤ w) (n : ℕ) :
    (overlaid · w)^[n] v ≤ w ∧
      w.toNat - ((overlaid · w)^[n] v).toNat = (w.toNat - v.toNat) / 2 ^ n := by
  induction n with
  | zero =>
    rw [pow_zero, Nat.div_one]
    exact ⟨h, rfl⟩
  | succ n ih =>
    -- one halving more, and halvings add up to a power of two
    rw [iterate_succ_apply', pow_succ, ← Nat.div_div_eq_div_mul, ← ih.2]
    exact (overlaid_cases _ w).1 ih.1

theorem overlaid_iterate_of_gt {v w : UInt8} (h : w < v) (n : ℕ) :
    w < (overlaid · w)^[n] v ∧
      ((overlaid · w)^[n] v).toNat - w.toNat - 1 = (v.toNat - w.toNat - 1) / 2 ^ n := by
  induction n with
  | zero =>
    rw [pow_zero, Nat.div_one]
    exact ⟨h, rfl⟩
  | succ n ih =>
    obtain ⟨hlt, hdist⟩ := (overlaid_cases ((overlaid · w)^[n] v) w).2 ih.1
    rw [iterate_succ_apply', pow_succ, ← Nat.div_div_eq_div_mul, ← ih.2]
    have hpos := UInt8.lt_iff_toNat_lt.mp ih.1
    refine ⟨hlt, ?_⟩
    omega

/-- Eight times are enough for any distance. -/
theorem overlaid_iterate_of_ge {n : ℕ} (hn : 8 ≤ n) (v w : UInt8) :
    (overlaid · w)^[n] v = if v ≤ w then w else w + 1 := by
  have hpow : 2 ^ 8 ≤ 2 ^ n := Nat.pow_le_pow_right (by decide) hn
  have hv := v.toNat_lt
  have hw := w.toNat_lt
  split_ifs with h
  · obtain ⟨hle, hdist⟩ := overlaid_iterate_of_le h n
    rw [Nat.div_eq_of_lt (by omega)] at hdist
    rw [UInt8.le_iff_toNat_le] at hle
    rw [← UInt8.toNat_inj]
    omega
  · rw [UInt8.not_le] at h
    obtain ⟨hlt, hdist⟩ := overlaid_iterate_of_gt h n
    rw [Nat.div_eq_of_lt (by omega)] at hdist
    rw [UInt8.lt_iff_toNat_lt] at h hlt
    rw [← UInt8.toNat_inj, UInt8.toNat_add, UInt8.toNat_one]
    omega

/-! The image. -/

variable {img1 img2 : CImg UInt8}

theorem overlay_image_value (i : ℕ × ℕ × ℕ) :
    (overlay_image img1 img2).value i =
      if i ∈ (common img1 img2).image place then overlaid (img1.value i) (img2.pixel (i.1, i.2.1))
      else img1.value i := by
  -- the loop writes each pixel of the common rectangle once, and passes over the others
  let l := img1.forXY.filter fun p =>
    p.1 < min img1.width img2.width ∧ p.2 < min img1.height img2.height
  have hl : (l.map place).Nodup := (nodup_places img1).sublist (List.filter_sublist.map place)
  have hmem : i ∈ l.map place ↔ i ∈ (common img1 img2).image place := by
    rw [List.mem_map, Finset.mem_image]
    refine exists_congr fun p => and_congr_left fun _ => ?_
    simp only [l, List.mem_filter, CImg.forXY, mem_pixels, common, Finset.mem_product,
      Finset.mem_range, decide_eq_true_eq]
    omega
  have hloop : (overlay_image img1 img2).value =
      (l.map place).foldl (fun v j => update v j (overlaid (v j) (img2.pixel (j.1, j.2.1))))
        img1.value := by
    rw [List.foldl_map, List.foldl_filter]
    refine congrArg (fun f => img1.forXY.foldl f img1.value) (funext₂ fun v p => ?_)
    simp only [decide_eq_true_eq]
    rfl
  have hupdate := foldl_update (fun j v => overlaid v (img2.pixel (j.1, j.2.1))) (l.map place) hl
    img1.value i
  rw [hloop]
  simp only [hmem] at hupdate
  exact hupdate

/-- The image after the same one was laid over it a number of times. -/
theorem overlay_iterate_value (n : ℕ) :
    common ((overlay_image · img2)^[n] img1) img2 = common img1 img2 ∧
    ∀ i, ((overlay_image · img2)^[n] img1).value i =
      if i ∈ (common img1 img2).image place then
        (overlaid · (img2.pixel (i.1, i.2.1)))^[n] (img1.value i)
      else img1.value i := by
  induction n with
  | zero => exact ⟨rfl, fun i => (ite_self _).symm⟩
  | succ n ih =>
    rw [iterate_succ_apply']
    refine ⟨ih.1, fun i => ?_⟩
    rw [overlay_image_value, ih.1, ih.2 i]
    split_ifs
    · rw [iterate_succ_apply']
    · rfl

theorem pixel_overlay_iterate {n : ℕ} (hn : 8 ≤ n) {p : ℕ × ℕ} (hp : p ∈ common img1 img2) :
    ((overlay_image · img2)^[n] img1).pixel p =
      if img1.pixel p ≤ img2.pixel p then img2.pixel p else img2.pixel p + 1 := by
  have hplace : place p ∈ (common img1 img2).image place := Finset.mem_image_of_mem place hp
  rw [CImg.pixel, (overlay_iterate_value n).2, if_pos hplace]
  exact overlaid_iterate_of_ge hn (img1.pixel p) (img2.pixel p)

/-- After eight times the overlaid image does not change any more: in the common rectangle it is the
one that was laid over it, but one brighter where it was brighter itself. All the rest is as it was.
The two are then as similar as they can be exactly if the image was nowhere the brighter one. -/
theorem overlay_image_iterate (h1 : img1.is_empty = false) (h2 : img2.is_empty = false) {n : ℕ}
    (hn : 8 ≤ n) :
    (∀ p ∈ common img1 img2, ((overlay_image · img2)^[n] img1).pixel p =
      if img1.pixel p ≤ img2.pixel p then img2.pixel p else img2.pixel p + 1) ∧
    (∀ i ∉ (common img1 img2).image place,
      ((overlay_image · img2)^[n] img1).value i = img1.value i) ∧
    1 - 1 / 255 ≤ calc_similarity ((overlay_image · img2)^[n] img1) img2 ∧
    (calc_similarity ((overlay_image · img2)^[n] img1) img2 = 1 ↔
      ∀ p ∈ common img1 img2, img1.pixel p ≤ img2.pixel p) := by
  have hcommon := (@overlay_iterate_value img1 img2 n).1
  have hpos := card_common_pos h1 h2
  have hdifference (p : ℕ × ℕ) (hp : p ∈ common img1 img2) :
      difference ((overlay_image · img2)^[n] img1) img2 p =
        if img1.pixel p ≤ img2.pixel p then 0 else 1 := by
    rw [difference, pixel_overlay_iterate hn hp]
    split_ifs with h
    · rw [sub_self, abs_zero]
    · have hlt := UInt8.lt_iff_toNat_lt.mp (UInt8.not_le.mp h)
      have hv := (img1.pixel p).toNat_lt
      have hone : (img2.pixel p + 1).toNat = (img2.pixel p).toNat + 1 := by
        rw [UInt8.toNat_add, UInt8.toNat_one]
        omega
      rw [hone, Nat.cast_add, add_sub_cancel_left, Nat.cast_one, abs_one]
  have hnonneg (p : ℕ × ℕ) : (0 : ℚ) ≤ if img1.pixel p ≤ img2.pixel p then 0 else 1 := by
    split_ifs
    · exact le_refl 0
    · exact zero_le_one
  refine ⟨fun p hp => pixel_overlay_iterate hn hp, fun i hi => ?_, ?_, ?_⟩
  · rw [(overlay_iterate_value n).2, if_neg hi]
  · -- the images differ by at most one in each pixel
    have hsum : (∑ p ∈ common img1 img2, if img1.pixel p ≤ img2.pixel p then (0 : ℚ) else 1) ≤
        (common img1 img2).card := by
      have hle := Finset.sum_le_card_nsmul (common img1 img2)
        (fun p => if img1.pixel p ≤ img2.pixel p then (0 : ℚ) else 1) 1 fun p _ => by
          split_ifs
          · exact zero_le_one
          · exact le_refl 1
      rwa [nsmul_one] at hle
    rw [calc_similarity_eq, hcommon, Finset.sum_congr rfl hdifference]
    have hquot : (∑ p ∈ common img1 img2, if img1.pixel p ≤ img2.pixel p then (0 : ℚ) else 1) /
        (255 * (common img1 img2).card) ≤ 1 / 255 := by
      rw [div_le_div_iff₀ hpos (by norm_num)]
      linarith
    linarith
  · rw [calc_similarity_eq, hcommon, Finset.sum_congr rfl hdifference, sub_eq_self,
      div_eq_zero_iff, or_iff_left hpos.ne', Finset.sum_eq_zero_iff_of_nonneg fun p _ => hnonneg p]
    refine forall₂_congr fun p _ => ?_
    split_ifs with h
    · exact iff_of_true rfl h
    · exact iff_of_false one_ne_zero h

/-- A bright pixel over a black one. -/
theorem overlay_image_iterate_twoPixels :
    calc_similarity ((overlay_image · whitePixel)^[8] twoPixels) whitePixel = 1 := by
  have h := @overlay_image_iterate twoPixels whitePixel (by decide) (by decide) 8 (le_refl 8)
  refine h.2.2.2.mpr fun p _ => ?_
  rw [UInt8.le_iff_toNat_le]
  exact Nat.le_of_lt_succ (twoPixels.pixel p).toNat_lt

end OpenAPT.Image
