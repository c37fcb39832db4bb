import OpenAPT.CalcHfd
import OpenAPT.Lib.Truncation
import OpenAPT.StarCenter
import OpenAPT.SubPixelCenter

/-! What `StarDrawing` measures of one star: the square around its cluster, the centroid in that
square, and the image its half-flux diameter is taken from. `float` is taken as exact. -/
namespace OpenAPT.Draw

open Raster Truncation

/-- A `tuple<float, float, float, float>` whose values need not be integers. -/
structure SubFrameT where
  x1 : ℚ
  y1 : ℚ
  x2 : ℚ
  y2 : ℚ

def FrameT.toSub (frame : FrameT) : SubFrameT := ⟨frame.x1, frame.y1, frame.x2, frame.y2⟩

/-- A pixel, or zero outside of the image. -/
def pixelAt (img : CImg ℚ) (x y : ℤ) : ℚ :=
  if 0 ≤ x ∧ x < img.width ∧ 0 ≤ y ∧ y < img.height then img.value x.toNat y.toNat else 0

/-- `img.get_crop(x0, y0, x1, y1)`, with zeros around the image. -/
def get_crop (img : CImg ℚ) (x0 y0 x1 y1 : ℤ) : CImg ℚ where
  width := (1 + max x0 x1 - min x0 x1).toNat
  height := (1 + max y0 y1 - min y0 y1).toNat
  value x y := pixelAt img (min x0 x1 + x) (min y0 y1 + y)

/-- The crop by a frame, whose values are converted to `int`. -/
def cropFrame (img : CImg ℚ) (inFrame : SubFrameT) : CImg ℚ :=
  get_crop img (truncate inFrame.x1) (truncate inFrame.y1) (truncate inFrame.x2)
    (truncate inFrame.y2)

/-- `*outPixelPos` and `*outSubPixelPos`. -/
def calcCentroid (inImg : CImg ℚ) (inFrame : SubFrameT) (uninitialized : Neighbours)
    (inNumIterations : ℕ) : (ℚ × ℚ) × ℚ × ℚ :=
  let c := calcIntensityWeightedCenter (cropFrame inImg inFrame)
  let xi : ℤ := ⌊c.1 + 1 / 2⌋
  let yi : ℤ := ⌊c.2 + 1 / 2⌋
  let img3x3 := get_crop inImg (xi - 1) (yi - 1) (xi + 1) (yi + 1)
  (c, calcSubPixelCenter img3x3 (xi, yi) uninitialized inNumIterations)

def rectify (inFrame : SubFrameT) : SubFrameT :=
  let border := 3
  let border2 := 2 * border
  let width := |inFrame.x1 - inFrame.x2| + border2
  let height := |inFrame.y1 - inFrame.y2| + border2
  let L := max width height
  let x0 := inFrame.x1 - |width - L| / 2 - border
  let y0 := inFrame.y1 - |height - L| / 2 - border
  ⟨x0, y0, x0 + L, y0 + L⟩

/-- The mean of the pixels, and the largest of them. -/
def mean (img : CImg ℚ) : ℚ :=
  ((pixels img.width img.height).map fun p => img.value p.1 p.2).sum / (img.width * img.height)

def maxValue (img : CImg ℚ) : ℚ :=
  (pixels img.width img.height).foldl (fun m p => max m (img.value p.1 p.2)) (img.value 0 0)

/-- The members of a `StarInfoT` that are measured, and the image that `calcHfd` is given. -/
structure StarMeasures where
  squareFrame : SubFrameT
  cogCentroid : ℚ × ℚ
  subPixelInterpCentroid : ℚ × ℚ
  cogFrame : SubFrameT
  hfdFrame : SubFrameT
  maxPixValue : ℚ
  saturated : Bool
  imgHfdSubMean : CImg ℚ

/-- The loop body of `StarDrawing` for the star with the given cluster frame. -/
def measureStar (aiImg : CImg ℚ) (bitPix : ℤ) (outerHfdDiameter : ℕ) (uninitialized : Neighbours)
    (frame : FrameT) : StarMeasures :=
  let maxPossiblePixValue : ℚ := 2 ^ bitPix - 1
  let squareFrame := rectify frame.toSub
  let centroid := calcCentroid aiImg squareFrame uninitialized 10
  -- the corner is added as it is, while the crop was taken at the truncated one
  let cogX := centroid.1.1 + squareFrame.x1
  let cogY := centroid.1.2 + squareFrame.y1
  let maxClusterEdge : ℤ := max |frame.x1 - frame.x2| |frame.y1 - frame.y2|
  let cogHalfEdge : ℚ := ⌈(maxClusterEdge : ℚ) / 2⌉
  let hfdRectDist : ℚ := ⌊(outerHfdDiameter : ℚ) / 2⌋
  let hfdFrame : SubFrameT :=
    ⟨cogX - hfdRectDist, cogY - hfdRectDist, cogX + hfdRectDist, cogY + hfdRectDist⟩
  let hfdSubImg := cropFrame aiImg hfdFrame
  { squareFrame
    cogCentroid := (cogX, cogY)
    subPixelInterpCentroid := centroid.2
    cogFrame := ⟨cogX - cogHalfEdge - 1, cogY - cogHalfEdge - 1, cogX + cogHalfEdge + 1,
      cogY + cogHalfEdge + 1⟩
    hfdFrame
    maxPixValue := maxValue hfdSubImg
    saturated := maxValue hfdSubImg = maxPossiblePixValue
    imgHfdSubMean := { hfdSubImg with
      value x y :=
        if hfdSubImg.value x y < mean hfdSubImg then 0
        else hfdSubImg.value x y - mean hfdSubImg } }

/-- The image as one that `calcHfd` takes. -/
noncomputable def toReal (img : CImg ℚ) : Image.CImg ℝ :=
  ⟨img.width, img.height, 1, fun p => (img.value p.1 p.2.1 : ℝ)⟩

/-- `starInfo.hfd` -/
noncomputable def starHfd (aiImg : CImg ℚ) (bitPix : ℤ) (outerHfdDiameter : ℕ)
    (uninitialized : Neighbours) (frame : FrameT) : ℝ :=
  Image.calcHfd
    (toReal (measureStar aiImg bitPix outerHfdDiameter uninitialized frame).imgHfdSubMean)
    outerHfdDiameter

/-! ### The centroid -/

/-- The pixels of the image inside a frame of integers. -/
def window (img : CImg ℚ) (frame : FrameT) : Finset (ℕ × ℕ) :=
  (Finset.range img.width ×ˢ Finset.range img.height).filter fun p =>
    frame.x1 ≤ p.1 ∧ (p.1 : ℤ) ≤ frame.x2 ∧ frame.y1 ≤ p.2 ∧ (p.2 : ℤ) ≤ frame.y2

/-- The mean of a value over the pixels of the image in a frame, weighted by the squares of the
intensities. -/
def weightedMean (img : CImg ℚ) (frame : FrameT) (f : ℕ × ℕ → ℚ) : ℚ :=
  (∑ p ∈ window img frame, img.value p.1 p.2 ^ 2 * f p) /
    ∑ p ∈ window img frame, img.value p.1 p.2 ^ 2

section Crop

variable (img : CImg ℚ) {x0 y0 x1 y1 : ℤ}

/-- A sum over the crop is one over the pixels of the image in it: the rest of the crop is zero. -/
theorem weightedSum_crop (hx : x0 ≤ x1) (hy : y0 ≤ y1) (g : ℤ × ℤ → ℚ) :
    weightedSum (get_crop img x0 y0 x1 y1) (fun p => g (x0 + p.1, y0 + p.2)) =
      ∑ p ∈ window img ⟨x0, y0, x1, y1⟩, img.value p.1 p.2 ^ 2 * g (p.1, p.2) := by
  have hwidth : (get_crop img x0 y0 x1 y1).width = (1 + x1 - x0).toNat := by
    rw [get_crop, max_eq_right hx, min_eq_left hx]
  have hheight : (get_crop img x0 y0 x1 y1).height = (1 + y1 - y0).toNat := by
    rw [get_crop, max_eq_right hy, min_eq_left hy]
  have hvalue (x y : ℕ) : (get_crop img x0 y0 x1 y1).value x y = pixelAt img (x0 + x) (y0 + y) := by
    rw [get_crop, min_eq_left hx, min_eq_left hy]
  have hmem (p : ℕ × ℕ) : p ∈ window img ⟨x0, y0, x1, y1⟩ ↔ (p.1 < img.width ∧ p.2 < img.height) ∧
      x0 ≤ p.1 ∧ (p.1 : ℤ) ≤ x1 ∧ y0 ≤ p.2 ∧ (p.2 : ℤ) ≤ y1 := by
    rw [window, Finset.mem_filter, Finset.mem_product, Finset.mem_range, Finset.mem_range]
  symm
  -- the pixel at `(x, y)` of the image is the one at `(x - x0, y - y0)` of the crop
  apply Finset.sum_of_injOn fun p : ℕ × ℕ => (((p.1 : ℤ) - x0).toNat, ((p.2 : ℤ) - y0).toNat)
  · -- nothing is cut off to the left or above, so no two pixels become one
    intro p hp q hq heq
    obtain ⟨-, hpx, -, hpy, -⟩ := (hmem p).mp hp
    obtain ⟨-, hqx, -, hqy, -⟩ := (hmem q).mp hq
    have h1 : ((p.1 : ℤ) - x0).toNat = ((q.1 : ℤ) - x0).toNat := congrArg Prod.fst heq
    have h2 : ((p.2 : ℤ) - y0).toNat = ((q.2 : ℤ) - y0).toNat := congrArg Prod.snd heq
    apply Prod.ext
    · omega
    · omega
  · intro p hp
    obtain ⟨-, hpx, hpx', hpy, hpy'⟩ := (hmem p).mp hp
    rw [hwidth, hheight, Finset.mem_coe, Finset.mem_product, Finset.mem_range, Finset.mem_range]
    dsimp only
    omega
  · -- what is no pixel of the image adds nothing
    intro q hq hout
    rw [hwidth, hheight, Finset.mem_product, Finset.mem_range, Finset.mem_range] at hq
    have hzero : pixelAt img (x0 + q.1) (y0 + q.2) = 0 := by
      apply if_neg
      intro hin
      apply hout
      refine ⟨((x0 + q.1).toNat, (y0 + q.2).toNat), (hmem _).mpr ?_, Prod.ext ?_ ?_⟩
      · dsimp only
        omega
      · dsimp only
        omega
      · dsimp only
        omega
    rw [hvalue, hzero, zero_pow two_ne_zero, zero_mul]
  · intro p hp
    obtain ⟨⟨hw, hh⟩, hpx, -, hpy, -⟩ := (hmem p).mp hp
    have h1 : x0 + (((p.1 : ℤ) - x0).toNat : ℤ) = p.1 := by omega
    have h2 : y0 + (((p.2 : ℤ) - y0).toNat : ℤ) = p.2 := by omega
    have hpixel : pixelAt img p.1 p.2 = img.value p.1 p.2 := by
      have hin : (0 : ℤ) ≤ p.1 ∧ (p.1 : ℤ) < img.width ∧ (0 : ℤ) ≤ p.2 ∧
          (p.2 : ℤ) < img.height := by omega
      rw [pixelAt, if_pos hin, Int.toNat_natCast, Int.toNat_natCast]
    dsimp only
    rw [hvalue, h1, h2, hpixel]

/-- The intensity weighted center of a crop, in the coordinates of the image. -/
theorem calcIntensityWeightedCenter_crop (hx : x0 ≤ x1) (hy : y0 ≤ y1)
    (hpixel : ∃ p ∈ window img ⟨x0, y0, x1, y1⟩, img.value p.1 p.2 ≠ 0) :
    calcIntensityWeightedCenter (get_crop img x0 y0 x1 y1) =
      (weightedMean img ⟨x0, y0, x1, y1⟩ (fun p => p.1) - x0,
        weightedMean img ⟨x0, y0, x1, y1⟩ (fun p => p.2) - y0) := by
  have hone : weightedSum (get_crop img x0 y0 x1 y1) (fun _ => 1) =
      ∑ p ∈ window img ⟨x0, y0, x1, y1⟩, img.value p.1 p.2 ^ 2 := by
    have hsum := weightedSum_crop img hx hy fun _ => 1
    simpa only [mul_one] using hsum
  have hpos : 0 < ∑ p ∈ window img ⟨x0, y0, x1, y1⟩, img.value p.1 p.2 ^ 2 := by
    obtain ⟨p, hp, hne⟩ := hpixel
    exact Finset.sum_pos' (fun q _ => sq_nonneg _) ⟨p, hp, sq_pos_of_ne_zero hne⟩
  -- a shift of the coordinates shifts the mean
  have hshift (i : ℤ) (f : ℕ × ℕ → ℚ) :
      (∑ p ∈ window img ⟨x0, y0, x1, y1⟩, img.value p.1 p.2 ^ 2 * (f p - i)) /
          ∑ p ∈ window img ⟨x0, y0, x1, y1⟩, img.value p.1 p.2 ^ 2 =
        weightedMean img ⟨x0, y0, x1, y1⟩ f - i := by
    simp only [weightedMean, mul_sub, Finset.sum_sub_distrib]
    rw [← Finset.sum_mul, sub_div, mul_div_cancel_left₀ _ hpos.ne']
  have hfst := weightedSum_crop img hx hy fun q => (q.1 : ℚ) - x0
  have hsnd := weightedSum_crop img hx hy fun q => (q.2 : ℚ) - y0
  simp only [Int.cast_add, Int.cast_natCast, add_sub_cancel_left] at hfst hsnd
  rw [calcIntensityWeightedCenter_eq, hone, hfst, hsnd, hshift, hshift]

end Crop

/-- The corners of a frame as `int`s. -/
def SubFrameT.truncated (frame : SubFrameT) : FrameT :=
  ⟨truncate frame.x1, truncate frame.y1, truncate frame.x2, truncate frame.y2⟩

/-- The half pixel that the corner of the square loses when it is converted to `int`: none where the
two edges differ by an even number or the square was not widened on this axis. -/
def lostHalf (first edge other : ℤ) : ℚ :=
  let twice := 2 * first - 6 - max 0 (other - edge)
  if twice % 2 = 0 then 0 else if 0 < twice then 1 / 2 else -(1 / 2)

section Square

variable {frame : FrameT}

/-- One axis of `rectify`. -/
theorem rectify_axis {first last : ℤ} (h : first ≤ last) (other : ℤ) :
    (first : ℚ) - |(|(first : ℚ) - last| + 2 * 3) -
        max (|(first : ℚ) - last| + 2 * 3) ((other : ℚ) + 2 * 3)| / 2 - 3 =
      ((2 * first - 6 - max 0 (other - (last - first)) : ℤ) : ℚ) / 2 := by
  have hcast : (first : ℚ) ≤ last := Int.cast_le.mpr h
  have habs : |(first : ℚ) - last| = last - first := by
    rw [abs_sub_comm, abs_of_nonneg (sub_nonneg.mpr hcast)]
  rw [habs]
  -- the square takes its edge from the longer side
  by_cases hle : last - first ≤ other
  · have hle' : (last : ℚ) - first ≤ other := by exact_mod_cast hle
    rw [max_eq_right (by linarith : (last : ℚ) - first + 2 * 3 ≤ other + 2 * 3),
      max_eq_right (by omega : (0 : ℤ) ≤ other - (last - first)),
      abs_of_nonpos (by linarith : (last : ℚ) - first + 2 * 3 - (other + 2 * 3) ≤ 0)]
    push_cast
    ring
  · have hle' : (other : ℚ) ≤ last - first := by exact_mod_cast (not_le.mp hle).le
    rw [max_eq_left (by linarith : (other : ℚ) + 2 * 3 ≤ last - first + 2 * 3),
      max_eq_left (by omega : other - (last - first) ≤ (0 : ℤ)), sub_self, abs_zero]
    push_cast
    ring

theorem rectify_x1 (hx : frame.x1 ≤ frame.x2) (hy : frame.y1 ≤ frame.y2) :
    (rectify frame.toSub).x1 =
      ((2 * frame.x1 - 6 - max 0 (frame.y2 - frame.y1 - (frame.x2 - frame.x1)) : ℤ) : ℚ) / 2 := by
  have hcast : (frame.y1 : ℚ) ≤ frame.y2 := Int.cast_le.mpr hy
  have habs : |(frame.y1 : ℚ) - frame.y2| = ((frame.y2 - frame.y1 : ℤ) : ℚ) := by
    rw [abs_sub_comm, abs_of_nonneg (sub_nonneg.mpr hcast), Int.cast_sub]
  rw [← rectify_axis hx (frame.y2 - frame.y1), ← habs]
  rfl

theorem rectify_y1 (hx : frame.x1 ≤ frame.x2) (hy : frame.y1 ≤ frame.y2) :
    (rectify frame.toSub).y1 =
      ((2 * frame.y1 - 6 - max 0 (frame.x2 - frame.x1 - (frame.y2 - frame.y1)) : ℤ) : ℚ) / 2 := by
  have hcast : (frame.x1 : ℚ) ≤ frame.x2 := Int.cast_le.mpr hx
  have habs : |(frame.x1 : ℚ) - frame.x2| = ((frame.x2 - frame.x1 : ℤ) : ℚ) := by
    rw [abs_sub_comm, abs_of_nonneg (sub_nonneg.mpr hcast), Int.cast_sub]
  rw [← rectify_axis hy (frame.x2 - frame.x1), ← habs, max_comm (|(frame.y1 : ℚ) - frame.y2| + 2 * 3)]
  rfl

/-- The square is at least three pixels larger than the frame on all sides, also where its corners
are converted to `int`. -/
theorem rectify_margin (hx : frame.x1 ≤ frame.x2) (hy : frame.y1 ≤ frame.y2) :
    (rectify frame.toSub).truncated.x1 ≤ frame.x1 - 3 ∧
      (rectify frame.toSub).truncated.y1 ≤ frame.y1 - 3 ∧
      frame.x2 + 3 ≤ (rectify frame.toSub).truncated.x2 ∧
      frame.y2 + 3 ≤ (rectify frame.toSub).truncated.y2 := by
  have hx' : (frame.x1 : ℚ) ≤ frame.x2 := Int.cast_le.mpr hx
  have hy' : (frame.y1 : ℚ) ≤ frame.y2 := Int.cast_le.mpr hy
  have habsx : |(frame.x1 : ℚ) - frame.x2| = frame.x2 - frame.x1 := by
    rw [abs_sub_comm, abs_of_nonneg (sub_nonneg.mpr hx')]
  have habsy : |(frame.y1 : ℚ) - frame.y2| = frame.y2 - frame.y1 := by
    rw [abs_sub_comm, abs_of_nonneg (sub_nonneg.mpr hy')]
  let width : ℚ := |(frame.x1 : ℚ) - frame.x2| + 2 * 3
  let height : ℚ := |(frame.y1 : ℚ) - frame.y2| + 2 * 3
  have hwidth : width ≤ max width height := le_max_left _ _
  have hheight : height ≤ max width height := le_max_right _ _
  have hgapx : |width - max width height| = max width height - width := by
    rw [abs_sub_comm, abs_of_nonneg (sub_nonneg.mpr hwidth)]
  have hgapy : |height - max width height| = max width height - height := by
    rw [abs_sub_comm, abs_of_nonneg (sub_nonneg.mpr hheight)]
  have hfirstx : (rectify frame.toSub).x1 = frame.x1 - |width - max width height| / 2 - 3 := rfl
  have hfirsty : (rectify frame.toSub).y1 = frame.y1 - |height - max width height| / 2 - 3 := rfl
  have hlastx : (rectify frame.toSub).x2 = (rectify frame.toSub).x1 + max width height := rfl
  have hlasty : (rectify frame.toSub).y2 = (rectify frame.toSub).y1 + max width height := rfl
  have hw : width = frame.x2 - frame.x1 + 6 := by
    simp only [width, habsx]
    ring
  have hh : height = frame.y2 - frame.y1 + 6 := by
    simp only [height, habsy]
    ring
  refine ⟨truncate_le ?_, truncate_le ?_, le_truncate ?_, le_truncate ?_⟩
  · push_cast
    linarith
  · push_cast
    linarith
  · push_cast
    linarith
  · push_cast
    linarith

/-- The centroid of a star whose cluster frame has some light in it. -/
theorem cogCentroid_eq (hx : frame.x1 ≤ frame.x2) (hy : frame.y1 ≤ frame.y2) {aiImg : CImg ℚ}
    {p : ℕ × ℕ} (hp : p ∈ window aiImg frame) (hlight : aiImg.value p.1 p.2 ≠ 0) (bitPix : ℤ)
    (outerHfdDiameter : ℕ) (uninitialized : Neighbours) :
    (measureStar aiImg bitPix outerHfdDiameter uninitialized frame).cogCentroid =
      (weightedMean aiImg (rectify frame.toSub).truncated (fun p => p.1) +
          lostHalf frame.x1 (frame.x2 - frame.x1) (frame.y2 - frame.y1),
        weightedMean aiImg (rectify frame.toSub).truncated (fun p => p.2) +
          lostHalf frame.y1 (frame.y2 - frame.y1) (frame.x2 - frame.x1)) := by
  obtain ⟨hmx, hmy, hmx', hmy'⟩ := rectify_margin hx hy
  have hsquare : (rectify frame.toSub).truncated.x1 ≤ (rectify frame.toSub).truncated.x2 ∧
      (rectify frame.toSub).truncated.y1 ≤ (rectify frame.toSub).truncated.y2 := by omega
  -- the light of the frame is also in the square
  have hin : p ∈ window aiImg (rectify frame.toSub).truncated := by
    obtain ⟨himage, hframe⟩ := Finset.mem_filter.mp hp
    exact Finset.mem_filter.mpr ⟨himage, by omega⟩
  have hcenter := calcIntensityWeightedCenter_crop aiImg hsquare.1 hsquare.2 ⟨p, hin, hlight⟩
  -- the corners are half integers, and half a pixel is what the conversion can lose
  have hlostx := sub_truncate_half
    (2 * frame.x1 - 6 - max 0 (frame.y2 - frame.y1 - (frame.x2 - frame.x1)))
  have hlosty := sub_truncate_half
    (2 * frame.y1 - 6 - max 0 (frame.x2 - frame.x1 - (frame.y2 - frame.y1)))
  rw [← rectify_x1 hx hy] at hlostx
  rw [← rectify_y1 hx hy] at hlosty
  have hcog : (measureStar aiImg bitPix outerHfdDiameter uninitialized frame).cogCentroid =
      ((calcIntensityWeightedCenter (cropFrame aiImg (rectify frame.toSub))).1 +
          (rectify frame.toSub).x1,
        (calcIntensityWeightedCenter (cropFrame aiImg (rectify frame.toSub))).2 +
          (rectify frame.toSub).y1) := rfl
  have hcrop : cropFrame aiImg (rectify frame.toSub) =
      get_crop aiImg (rectify frame.toSub).truncated.x1 (rectify frame.toSub).truncated.y1
        (rectify frame.toSub).truncated.x2 (rectify frame.toSub).truncated.y2 := rfl
  rw [hcog, hcrop, hcenter, lostHalf, lostHalf, ← hlostx, ← hlosty]
  apply Prod.ext
  · simp only [SubFrameT.truncated]
    ring
  · simp only [SubFrameT.truncated]
    ring

end Square

section Cluster

variable {T : Type*} [Zero T] [DecidableEq T] {binImg : CImg T} {c : Cluster}

/-- The frame of a cluster is in order, and its pixels are in it. -/
theorem frame_of_cluster (hwidth : binImg.width ≤ 2 ^ 24 + 1) (hheight : binImg.height ≤ 2 ^ 24 + 1)
    (hc : c ∈ clusters binImg) :
    (c.frame.x1 ≤ c.frame.x2 ∧ c.frame.y1 ≤ c.frame.y2) ∧ ∀ p ∈ c.pixels,
      c.frame.x1 ≤ p.x ∧ p.x ≤ c.frame.x2 ∧ c.frame.y1 ≤ p.y ∧ p.y ≤ c.frame.y2 := by
  obtain ⟨box, hbox, -, hexact⟩ := frames_of_mem binImg hc
  have hframe : c.frame = box := hexact hwidth hheight
  have hin (p : PixelPosT) (hp : p ∈ c.pixels) :
      c.frame.x1 ≤ p.x ∧ p.x ≤ c.frame.x2 ∧ c.frame.y1 ≤ p.y ∧ p.y ≤ c.frame.y2 := by
    rw [hframe]
    exact ⟨hbox.x1.2 ⟨p, hp, rfl⟩, hbox.x2.2 ⟨p, hp, rfl⟩, hbox.y1.2 ⟨p, hp, rfl⟩,
      hbox.y2.2 ⟨p, hp, rfl⟩⟩
  obtain ⟨p, rest, hpixels⟩ :=
    List.exists_cons_of_ne_nil (pixels_ne_nil binImg (List.mem_map_of_mem hc))
  have hp := hin p (by rw [hpixels]; exact List.mem_cons_self)
  exact ⟨by omega, hin⟩

/-- A white pixel of a cluster as one of the image. -/
theorem exists_pixel_of_cluster (hwidth : binImg.width ≤ 2 ^ 24 + 1)
    (hheight : binImg.height ≤ 2 ^ 24 + 1) (hc : c ∈ clusters binImg) {aiImg : CImg ℚ}
    (hsize : aiImg.width = binImg.width ∧ aiImg.height = binImg.height) :
    ∃ p ∈ window aiImg c.frame, binImg.value p.1 p.2 ≠ 0 := by
  have hmem : c.pixels ∈ clusterPixels binImg := List.mem_map_of_mem hc
  obtain ⟨p, rest, hpixels⟩ := List.exists_cons_of_ne_nil (pixels_ne_nil binImg hmem)
  have hp : p ∈ c.pixels := by
    rw [hpixels]
    exact List.mem_cons_self
  have hin := (frame_of_cluster hwidth hheight hc).2 p hp
  obtain ⟨x, y, hx, hy, hvalue, rfl⟩ :=
    (mem_whitePixels binImg).mp (mem_white_of_mem_pixels binImg hmem hp)
  refine ⟨(x, y), Finset.mem_filter.mpr ⟨?_, hin.1, hin.2.1, hin.2.2.1, hin.2.2.2⟩, hvalue⟩
  rw [hsize.1, hsize.2, Finset.mem_product, Finset.mem_range, Finset.mem_range]
  exact ⟨hx, hy⟩

end Cluster

theorem exists_cluster_doubleStar : ∃ c, c ∈ clusters doubleStar := by
  have hwhite : toLex (0, 0) ∈ whitePixels doubleStar :=
    (mem_whitePixels doubleStar).mpr ⟨0, 0, by decide, by decide, by decide, rfl⟩
  obtain ⟨i, -, -⟩ := (clusters_all doubleStar).existsUnique hwhite
  obtain ⟨c, hc, -⟩ := List.mem_map.mp (List.getElem_mem (l := clusterPixels doubleStar) i.2)
  exact ⟨c, hc⟩

theorem lostHalf_ge (first edge other : ℤ) : -(1 / 2) ≤ lostHalf first edge other := by
  unfold lostHalf
  dsimp only
  split_ifs
  · norm_num
  · norm_num
  · exact le_refl _

theorem weightedMean_nonneg (img : CImg ℚ) (frame : FrameT) {f : ℕ × ℕ → ℚ} (hf : ∀ p, 0 ≤ f p) :
    0 ≤ weightedMean img frame f := by
  apply div_nonneg
  · exact Finset.sum_nonneg fun p _ => mul_nonneg (sq_nonneg _) (hf p)
  · exact Finset.sum_nonneg fun p _ => sq_nonneg _

theorem floor_half (n : ℕ) : ⌊(n : ℚ) / 2⌋ = ((n / 2 : ℕ) : ℤ) := by
  have h := Rat.floor_intCast_div_natCast (n : ℤ) 2
  rw [Int.cast_natCast, Nat.cast_ofNat] at h
  rw [h]
  omega

section Hfd

variable {aiImg : CImg ℚ} {bitPix : ℤ} {outerHfdDiameter : ℕ} {uninitialized : Neighbours}
  {frame : FrameT}

/-- Where `calcHfd` puts the center of the image that it is given, in the coordinates of the large
image. -/
theorem hfd_center
    (hx : 0 ≤ (measureStar aiImg bitPix outerHfdDiameter uninitialized frame).cogCentroid.1 +
      (outerHfdDiameter / 2 : ℕ))
    (hy : 0 ≤ (measureStar aiImg bitPix outerHfdDiameter uninitialized frame).cogCentroid.2 +
      (outerHfdDiameter / 2 : ℕ)) :
    let m := measureStar aiImg bitPix outerHfdDiameter uninitialized frame
    let center := Image.centerUp (toReal m.imgHfdSubMean)
    m.hfdFrame.truncated.x1 + center.1 = ⌊m.cogCentroid.1⌋ + 1 ∧
      m.hfdFrame.truncated.y1 + center.2 = ⌊m.cogCentroid.2⌋ + 1 := by
  intro m center
  have hdist : ((⌊(outerHfdDiameter : ℚ) / 2⌋ : ℤ) : ℚ) = ((outerHfdDiameter / 2 : ℕ) : ℚ) := by
    rw [floor_half, Int.cast_natCast]
  have hx1 : m.hfdFrame.x1 = m.cogCentroid.1 - (outerHfdDiameter / 2 : ℕ) :=
    congrArg (m.cogCentroid.1 - ·) hdist
  have hy1 : m.hfdFrame.y1 = m.cogCentroid.2 - (outerHfdDiameter / 2 : ℕ) :=
    congrArg (m.cogCentroid.2 - ·) hdist
  have hx2 : m.hfdFrame.x2 = m.cogCentroid.1 + (outerHfdDiameter / 2 : ℕ) :=
    congrArg (m.cogCentroid.1 + ·) hdist
  have hy2 : m.hfdFrame.y2 = m.cogCentroid.2 + (outerHfdDiameter / 2 : ℕ) :=
    congrArg (m.cogCentroid.2 + ·) hdist
  have hmiddlex : truncate m.hfdFrame.x1 +
      (truncate m.hfdFrame.x2 - truncate m.hfdFrame.x1 + 2) / 2 = ⌊m.cogCentroid.1⌋ + 1 ∧
        truncate m.hfdFrame.x1 ≤ truncate m.hfdFrame.x2 := by
    rw [hx1, hx2]
    exact truncate_middle hx
  have hmiddley : truncate m.hfdFrame.y1 +
      (truncate m.hfdFrame.y2 - truncate m.hfdFrame.y1 + 2) / 2 = ⌊m.cogCentroid.2⌋ + 1 ∧
        truncate m.hfdFrame.y1 ≤ truncate m.hfdFrame.y2 := by
    rw [hy1, hy2]
    exact truncate_middle hy
  -- the sizes of the crop
  have hwidth : (toReal m.imgHfdSubMean).width =
      (1 + truncate m.hfdFrame.x2 - truncate m.hfdFrame.x1).toNat := by
    have hcrop : (toReal m.imgHfdSubMean).width =
        (1 + max (truncate m.hfdFrame.x1) (truncate m.hfdFrame.x2) -
          min (truncate m.hfdFrame.x1) (truncate m.hfdFrame.x2)).toNat := rfl
    rw [hcrop, max_eq_right hmiddlex.2, min_eq_left hmiddlex.2]
  have hheight : (toReal m.imgHfdSubMean).height =
      (1 + truncate m.hfdFrame.y2 - truncate m.hfdFrame.y1).toNat := by
    have hcrop : (toReal m.imgHfdSubMean).height =
        (1 + max (truncate m.hfdFrame.y1) (truncate m.hfdFrame.y2) -
          min (truncate m.hfdFrame.y1) (truncate m.hfdFrame.y2)).toNat := rfl
    rw [hcrop, max_eq_right hmiddley.2, min_eq_left hmiddley.2]
  have hcenterx : center.1 = ((toReal m.imgHfdSubMean).width + 1) / 2 := rfl
  have hcentery : center.2 = ((toReal m.imgHfdSubMean).height + 1) / 2 := rfl
  rw [hcenterx, hcentery, hwidth, hheight]
  simp only [SubFrameT.truncated]
  omega

theorem pixel_imgHfdSubMean_nonneg (p : ℕ × ℕ) : 0 ≤
    (toReal (measureStar aiImg bitPix outerHfdDiameter uninitialized frame).imgHfdSubMean).pixel
      p := by
  apply Rat.cast_nonneg.mpr
  let hfdSubImg := cropFrame aiImg
    (measureStar aiImg bitPix outerHfdDiameter uninitialized frame).hfdFrame
  show 0 ≤ if hfdSubImg.value p.1 p.2 < mean hfdSubImg then (0 : ℚ)
    else hfdSubImg.value p.1 p.2 - mean hfdSubImg
  split_ifs with hlt
  · exact le_refl 0
  · exact sub_nonneg.mpr (not_lt.mp hlt)

end Hfd

end OpenAPT.Draw
