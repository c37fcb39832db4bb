import Mathlib.Algebra.Order.Floor.Semifield
import OpenAPT.Image
import OpenAPT.Lib.CheckedFold

/-! `compress_image`, which sums up each block of pixels in `int`. -/
namespace OpenAPT.Image

open Raster CheckedFold

def INT_MAX : ℕ := 2147483647

/-- The sum of two nonnegative `int`s; an overflow is not defined. -/
def addInt (a b : ℕ) : Option ℕ := if a + b ≤ INT_MAX then some (a + b) else none

structure Sums where
  sum_r : ℕ
  sum_g : ℕ
  sum_b : ℕ
  count : ℕ

/-- One turn of the inner loops of `compress_image`. -/
def addPixel (img : CImg UInt8) (px py : ℕ) (s : Sums) : Option Sums :=
  if px < img.width ∧ py < img.height then do
    let sum_r ← addInt s.sum_r (img.value (px, py, 0)).toNat
    let sum_g ← (if img.spectrum > 1 then addInt s.sum_g (img.value (px, py, 1)).toNat
      else some s.sum_g)
    let sum_b ← (if img.spectrum > 1 then addInt s.sum_b (img.value (px, py, 2)).toNat
      else some s.sum_b)
    let count ← addInt s.count 1
    return ⟨sum_r, sum_g, sum_b, count⟩
  else some s

/-- The inner loops, with `i` in the outer one: their turn `(j, i)`. -/
def blockSums (img : CImg UInt8) (compress_ratio : ℕ) (p : ℕ × ℕ) : Option Sums :=
  (pixels compress_ratio compress_ratio).foldlM (fun s q =>
    addPixel img (p.1 * compress_ratio + q.2) (p.2 * compress_ratio + q.1) s) ⟨0, 0, 0, 0⟩

/-- A division by zero is not defined. -/
def divInt (a b : ℕ) : Option ℕ := if b = 0 then none else some (a / b)

/-- The values that the new pixel gets from the sums, by channel. -/
def averages (img : CImg UInt8) (s : Sums) : Option (ℕ → UInt8 → UInt8) := do
  let r ← divInt s.sum_r s.count
  if img.spectrum > 1 then
    let g ← divInt s.sum_g s.count
    let b ← divInt s.sum_b s.count
    return fun c old =>
      if c = 0 then UInt8.ofNat r
      else if c = 1 then UInt8.ofNat g
      else if c = 2 then UInt8.ofNat b
      else old
  else return fun c old => if c = 0 then UInt8.ofNat r else old

/-- What the new pixel `p` gets, `none` if a sum or a mean is not defined. -/
def newPixel (img : CImg UInt8) (compress_ratio : ℕ) (p : ℕ × ℕ) : Option (ℕ → UInt8 → UInt8) :=
  (blockSums img compress_ratio p).bind (averages img)

/-- The loop over the new image. -/
def setPixels (img : CImg UInt8) (compress_ratio new_width new_height : ℕ)
    (v : ℕ × ℕ × ℕ → UInt8) : Option (ℕ × ℕ × ℕ → UInt8) :=
  (pixels new_width new_height).foldlM (fun v p => (newPixel img compress_ratio p).map
    fun new i => if (i.1, i.2.1) = p then new i.2.2 (v i) else v i) v

/-- The compressed image. Its memory holds `uninitialized` before it is written. -/
def compress_image (img : CImg UInt8) (compress_ratio : ℕ)
    (uninitialized : ℕ × ℕ × ℕ → UInt8) : Option (CImg UInt8) := do
  let new_width ← divInt img.width compress_ratio
  let new_height ← divInt img.height compress_ratio
  let value ← setPixels img compress_ratio new_width new_height uninitialized
  return ⟨new_width, new_height, img.spectrum, value⟩

/-- The sum of a channel over the block of the new pixel `(x, y)`. -/
def blockSum (img : CImg UInt8) (r x y c : ℕ) : ℕ :=
  ∑ i ∈ Finset.range r, ∑ j ∈ Finset.range r, (img.value (x * r + i, y * r + j, c)).toNat

/-- The compressed image is defined, and each of its values is the mean of a block, rounded down. -/
def AveragesExactly (img : CImg UInt8) (r : ℕ) (uninitialized : ℕ × ℕ × ℕ → UInt8) : Prop :=
  ∃ out, compress_image img r uninitialized = some out ∧
    out.width = img.width / r ∧ out.height = img.height / r ∧ out.spectrum = img.spectrum ∧
    ∀ x < img.width / r, ∀ y < img.height / r, ∀ c < img.spectrum,
      (out.value (x, y, c)).toNat = ⌊(blockSum img r x y c : ℚ) / (r * r)⌋₊

/-- The number of the pixels of a block and the sums of their values are `int`s. -/
def FitsInt (img : CImg UInt8) (r : ℕ) : Prop :=
  r * r ≤ INT_MAX ∧ ∀ x < img.width / r, ∀ y < img.height / r, ∀ c < img.spectrum,
    blockSum img r x y c ≤ INT_MAX

/-! ### The inner loops -/

/-- The sums after a pixel, if they are `int`s. -/
def nextSums (img : CImg UInt8) (px py : ℕ) (s : Sums) : Sums :=
  if px < img.width ∧ py < img.height then
    ⟨s.sum_r + (img.value (px, py, 0)).toNat,
      s.sum_g + if img.spectrum > 1 then (img.value (px, py, 1)).toNat else 0,
      s.sum_b + if img.spectrum > 1 then (img.value (px, py, 2)).toNat else 0, s.count + 1⟩
  else s

structure Sums.Fit (s : Sums) : Prop where
  sum_r : s.sum_r ≤ INT_MAX
  sum_g : s.sum_g ≤ INT_MAX
  sum_b : s.sum_b ≤ INT_MAX
  count : s.count ≤ INT_MAX

variable {img : CImg UInt8} {r : ℕ}

theorem fit_of_nextSums {px py : ℕ} {s : Sums} (h : (nextSums img px py s).Fit) : s.Fit := by
  unfold nextSums at h
  by_cases hin : px < img.width ∧ py < img.height
  · rw [if_pos hin] at h
    exact ⟨(Nat.le_add_right _ _).trans h.sum_r, (Nat.le_add_right _ _).trans h.sum_g,
      (Nat.le_add_right _ _).trans h.sum_b, (Nat.le_add_right _ _).trans h.count⟩
  · rwa [if_neg hin] at h

theorem addInt_eq_some_iff {a b c : ℕ} : addInt a b = some c ↔ a + b ≤ INT_MAX ∧ c = a + b := by
  unfold addInt
  split_ifs with h
  · rw [Option.some_inj, eq_comm, and_iff_right h]
  · exact iff_of_false nofun fun h' => h h'.1

/-- A sum that is left as it is could as well be increased by `0`. -/
theorem ite_addInt {a : ℕ} (ha : a ≤ INT_MAX) (b : ℕ) (p : Prop) [Decidable p] :
    (if p then addInt a b else some a) = addInt a (if p then b else 0) := by
  split_ifs
  · rfl
  · have hzero : a + 0 ≤ INT_MAX := ha
    exact (addInt_eq_some_iff.mpr ⟨hzero, rfl⟩).symm

theorem addPixel_eq_some_iff {px py : ℕ} {s : Sums} (hs : s.Fit) (t : Sums) :
    addPixel img px py s = some t ↔
      (nextSums img px py s).Fit ∧ t = nextSums img px py s := by
  unfold addPixel nextSums
  by_cases hin : px < img.width ∧ py < img.height
  · simp only [if_pos hin, ite_addInt hs.sum_g, ite_addInt hs.sum_b]
    simp only [Option.bind_eq_bind, Option.bind_eq_some_iff, addInt_eq_some_iff, pure,
      Option.some_inj]
    constructor
    · rintro ⟨_, ⟨hr, rfl⟩, _, ⟨hg, rfl⟩, _, ⟨hb, rfl⟩, _, ⟨hcount, rfl⟩, rfl⟩
      exact ⟨⟨hr, hg, hb, hcount⟩, rfl⟩
    · rintro ⟨hfit, rfl⟩
      exact ⟨_, ⟨hfit.sum_r, rfl⟩, _, ⟨hfit.sum_g, rfl⟩, _, ⟨hfit.sum_b, rfl⟩, _,
        ⟨hfit.count, rfl⟩, rfl⟩
  · -- a pixel outside of the image is not counted
    simp only [if_neg hin]
    rw [Option.some_inj, eq_comm, and_iff_right hs]

/-- Inside of the image the loops add up the values and count the pixels. -/
theorem foldl_nextSums (place : ℕ × ℕ → ℕ × ℕ) (l : List (ℕ × ℕ))
    (hin : ∀ q ∈ l, (place q).1 < img.width ∧ (place q).2 < img.height) (s : Sums) :
    l.foldl (fun s q => nextSums img (place q).1 (place q).2 s) s =
      ⟨s.sum_r + (l.map fun q => (img.value ((place q).1, (place q).2, 0)).toNat).sum,
        s.sum_g + (l.map fun q => if img.spectrum > 1 then
          (img.value ((place q).1, (place q).2, 1)).toNat else 0).sum,
        s.sum_b + (l.map fun q => if img.spectrum > 1 then
          (img.value ((place q).1, (place q).2, 2)).toNat else 0).sum,
        s.count + l.length⟩ := by
  induction l generalizing s with
  | nil => rfl
  | cons q l ih =>
    obtain ⟨hq, hl⟩ := List.forall_mem_cons.mp hin
    have hstep : nextSums img (place q).1 (place q).2 s =
        ⟨s.sum_r + (img.value ((place q).1, (place q).2, 0)).toNat,
          s.sum_g + if img.spectrum > 1 then (img.value ((place q).1, (place q).2, 1)).toNat else 0,
          s.sum_b + if img.spectrum > 1 then (img.value ((place q).1, (place q).2, 2)).toNat else 0,
          s.count + 1⟩ := if_pos hq
    rw [List.foldl_cons, ih hl, hstep]
    simp only [List.map_cons, List.sum_cons, List.length_cons, Nat.add_assoc, Nat.add_comm 1]

/-- The sums of the block of the new pixel `(x, y)`. -/
def total (img : CImg UInt8) (r x y : ℕ) : Sums where
  sum_r := blockSum img r x y 0
  sum_g := if img.spectrum > 1 then blockSum img r x y 1 else 0
  sum_b := if img.spectrum > 1 then blockSum img r x y 2 else 0
  count := r * r

theorem sum_block (x y c : ℕ) : ((pixels r r).map fun q =>
    (img.value (x * r + q.2, y * r + q.1, c)).toNat).sum = blockSum img r x y c := by
  rw [sum_pixels, Finset.sum_product_right]
  rfl

/-- The block of a new pixel is inside of the image. -/
theorem block_lt {n x i : ℕ} (hx : x < n / r) (hi : i < r) : x * r + i < n := by
  have hr : 0 < r := Nat.zero_lt_of_lt hi
  have hblock : (x + 1) * r ≤ n := (Nat.le_div_iff_mul_le hr).mp hx
  rw [Nat.add_mul, Nat.one_mul] at hblock
  omega

variable {x y : ℕ}

theorem foldl_block (hx : x < img.width / r) (hy : y < img.height / r) :
    (pixels r r).foldl (fun s q => nextSums img (x * r + q.2) (y * r + q.1) s) ⟨0, 0, 0, 0⟩ =
      total img r x y := by
  have hin (q : ℕ × ℕ) (hq : q ∈ pixels r r) :
      x * r + q.2 < img.width ∧ y * r + q.1 < img.height := by
    obtain ⟨hj, hi⟩ := mem_pixels.mp hq
    exact ⟨block_lt hx hi, block_lt hy hj⟩
  have hsum (c : ℕ) : ((pixels r r).map fun q => if img.spectrum > 1 then
      (img.value (x * r + q.2, y * r + q.1, c)).toNat else 0).sum =
      if img.spectrum > 1 then blockSum img r x y c else 0 := by
    split_ifs
    · exact sum_block x y c
    · rw [List.map_const', List.sum_replicate_nat, Nat.mul_zero]
  rw [foldl_nextSums (fun q => (x * r + q.2, y * r + q.1)) (pixels r r) hin]
  simp only [hsum, sum_block, length_pixels, Nat.zero_add]
  rfl

theorem blockSums_eq_some_iff (hx : x < img.width / r) (hy : y < img.height / r) (t : Sums) :
    blockSums img r (x, y) = some t ↔ (total img r x y).Fit ∧ t = total img r x y := by
  rw [blockSums, ← foldl_block hx hy]
  apply foldlM_eq_some_iff
  · exact fun s q => fit_of_nextSums
  · exact fun s q t hs => addPixel_eq_some_iff hs t
  · exact ⟨Nat.zero_le _, Nat.zero_le _, Nat.zero_le _, Nat.zero_le _⟩

/-- No mean of bytes is larger than a byte. -/
theorem blockSum_div_lt (img : CImg UInt8) (r x y c : ℕ) :
    blockSum img r x y c / (r * r) < 256 := by
  have hle : blockSum img r x y c ≤ 255 * (r * r) := by
    calc blockSum img r x y c ≤ ∑ _i ∈ Finset.range r, ∑ _j ∈ Finset.range r, 255 :=
          Finset.sum_le_sum fun i _ => Finset.sum_le_sum fun j _ =>
            Nat.le_of_lt_succ (UInt8.toNat_lt _)
      _ = 255 * (r * r) := by
          simp only [Finset.sum_const, Finset.card_range, nsmul_eq_mul, Nat.cast_id]
          ring
  exact Nat.lt_succ_of_le (Nat.div_le_of_le_mul (by rwa [Nat.mul_comm] at hle))

theorem divInt_of_pos {b : ℕ} (hb : 0 < b) (a : ℕ) : divInt a b = some (a / b) := if_neg hb.ne'

/-- What holds for all channels holds for the first one, and for two more if there are more. -/
theorem forall_channel_iff (hspectrum : img.spectrum = 1 ∨ img.spectrum = 3) (P : ℕ → Prop) :
    (∀ c < img.spectrum, P c) ↔ P 0 ∧ (img.spectrum > 1 → P 1 ∧ P 2) := by
  constructor
  · exact fun h => ⟨h 0 (by omega), fun hmore => ⟨h 1 (by omega), h 2 (by omega)⟩⟩
  · intro ⟨hzero, hmore⟩ c hc
    have hcases : c = 0 ∨ img.spectrum > 1 ∧ (c = 1 ∨ c = 2) := by omega
    rcases hcases with rfl | ⟨hspectrum, rfl | rfl⟩
    · exact hzero
    · exact (hmore hspectrum).1
    · exact (hmore hspectrum).2

theorem averages_total (hr : 0 < r) (hspectrum : img.spectrum = 1 ∨ img.spectrum = 3) :
    ∃ new, averages img (total img r x y) = some new ∧ ∀ c < img.spectrum, ∀ old,
      (new c old).toNat = blockSum img r x y c / (r * r) := by
  have hcount (a : ℕ) : divInt a (total img r x y).count = some (a / (r * r)) :=
    divInt_of_pos (Nat.mul_pos hr hr) a
  have hbyte (c : ℕ) : (UInt8.ofNat (blockSum img r x y c / (r * r))).toNat =
      blockSum img r x y c / (r * r) := UInt8.toNat_ofNat_of_lt' (blockSum_div_lt img r x y c)
  simp only [forall_channel_iff hspectrum]
  by_cases hmore : img.spectrum > 1
  · have hg : (total img r x y).sum_g = blockSum img r x y 1 := if_pos hmore
    have hb : (total img r x y).sum_b = blockSum img r x y 2 := if_pos hmore
    simp only [averages, hcount, hg, hb, if_pos hmore, Option.bind_eq_bind, Option.bind_some]
    exact ⟨_, rfl, fun _ => hbyte 0, fun _ => ⟨fun _ => hbyte 1, fun _ => hbyte 2⟩⟩
  · simp only [averages, hcount, if_neg hmore, Option.bind_eq_bind, Option.bind_some]
    exact ⟨_, rfl, fun _ => hbyte 0, fun h => absurd h hmore⟩

/-- The sums of the block do not overflow. -/
theorem total_fit_iff (hspectrum : img.spectrum = 1 ∨ img.spectrum = 3) :
    (total img r x y).Fit ↔
      r * r ≤ INT_MAX ∧ ∀ c < img.spectrum, blockSum img r x y c ≤ INT_MAX := by
  have hmore (b : ℕ) : (if img.spectrum > 1 then b else 0) ≤ INT_MAX ↔
      (img.spectrum > 1 → b ≤ INT_MAX) := by
    split_ifs with h
    · exact ⟨fun hb _ => hb, fun hb => hb h⟩
    · exact iff_of_true (Nat.zero_le _) fun h' => absurd h' h
  rw [forall_channel_iff hspectrum]
  constructor
  · intro h
    exact ⟨h.count, h.sum_r, fun hs => ⟨(hmore _).mp h.sum_g hs, (hmore _).mp h.sum_b hs⟩⟩
  · intro ⟨hcount, hr, hgb⟩
    exact ⟨hr, (hmore _).mpr fun hs => (hgb hs).1, (hmore _).mpr fun hs => (hgb hs).2, hcount⟩

/-! ### The new pixels -/

theorem newPixel_of_fit (hr : 0 < r) (hspectrum : img.spectrum = 1 ∨ img.spectrum = 3)
    (hx : x < img.width / r) (hy : y < img.height / r) (hfit : (total img r x y).Fit) :
    ∃ new, newPixel img r (x, y) = some new ∧ ∀ c < img.spectrum, ∀ old,
      (new c old).toNat = blockSum img r x y c / (r * r) := by
  rw [newPixel, (blockSums_eq_some_iff hx hy _).mpr ⟨hfit, rfl⟩]
  exact averages_total hr hspectrum

theorem fit_of_newPixel (hx : x < img.width / r) (hy : y < img.height / r)
    {new : ℕ → UInt8 → UInt8} (h : newPixel img r (x, y) = some new) : (total img r x y).Fit := by
  obtain ⟨t, ht, -⟩ := Option.bind_eq_some_iff.mp h
  exact ((blockSums_eq_some_iff hx hy t).mp ht).1

theorem compress_image_of_pos (hr : 0 < r) (uninitialized : ℕ × ℕ × ℕ → UInt8) :
    compress_image img r uninitialized =
      (setPixels img r (img.width / r) (img.height / r) uninitialized).map fun value =>
        ⟨img.width / r, img.height / r, img.spectrum, value⟩ := by
  unfold compress_image
  rw [divInt_of_pos hr, divInt_of_pos hr, Option.map_eq_bind]
  rfl

/-- Each new pixel is set in its own turn. -/
theorem setPixels_eq_some_iff {m n : ℕ} {v value : ℕ × ℕ × ℕ → UInt8} :
    setPixels img r m n v = some value ↔
      (∀ p ∈ pixels m n, ∃ new, newPixel img r p = some new ∧
        ∀ i, (i.1, i.2.1) = p → value i = new i.2.2 (v i)) ∧
      ∀ i : ℕ × ℕ × ℕ, (i.1, i.2.1) ∉ pixels m n → value i = v i :=
  foldlM_parts_eq_some_iff (fun i : ℕ × ℕ × ℕ => (i.1, i.2.1)) (newPixel img r)
    (fun new i => new i.2.2) (pixels m n) (nodup_pixels m n) v value

/-- The image is defined only if no sum overflows. -/
theorem fitsInt_of_compress_image {out : CImg UInt8} {uninitialized : ℕ × ℕ × ℕ → UInt8}
    (hspectrum : img.spectrum = 1 ∨ img.spectrum = 3) (hr : 1 ≤ r)
    (hsize : r ≤ min img.width img.height) (h : compress_image img r uninitialized = some out) :
    FitsInt img r := by
  rw [compress_image_of_pos hr] at h
  obtain ⟨value, hvalue, -⟩ := Option.map_eq_some_iff.mp h
  have hpixels := (setPixels_eq_some_iff.mp hvalue).1
  have hblock {x y : ℕ} (hx : x < img.width / r) (hy : y < img.height / r) :
      r * r ≤ INT_MAX ∧ ∀ c < img.spectrum, blockSum img r x y c ≤ INT_MAX := by
    obtain ⟨new, hnew, -⟩ := hpixels (x, y) (mem_pixels.mpr ⟨hx, hy⟩)
    exact (total_fit_iff hspectrum).mp (fit_of_newPixel hx hy hnew)
  have hwidth : 0 < img.width / r := Nat.div_pos (hsize.trans (min_le_left _ _)) hr
  have hheight : 0 < img.height / r := Nat.div_pos (hsize.trans (min_le_right _ _)) hr
  exact ⟨(hblock hwidth hheight).1, fun x hx y hy => (hblock hx hy).2⟩

/-- `compress_image` averages exactly if and only if the number of the pixels of a block, and the
sums over all blocks, are `int`s. -/
theorem averagesExactly_iff (img : CImg UInt8) (r : ℕ) (uninitialized : ℕ × ℕ × ℕ → UInt8)
    (hspectrum : img.spectrum = 1 ∨ img.spectrum = 3) (hr : 1 ≤ r)
    (hsize : r ≤ min img.width img.height) :
    AveragesExactly img r uninitialized ↔ FitsInt img r := by
  constructor
  · intro ⟨out, hout, _⟩
    exact fitsInt_of_compress_image hspectrum hr hsize hout
  · intro ⟨hcount, hsums⟩
    have hnew {x y : ℕ} (hx : x < img.width / r) (hy : y < img.height / r) :
        ∃ new, newPixel img r (x, y) = some new ∧ ∀ c < img.spectrum, ∀ old,
          (new c old).toNat = blockSum img r x y c / (r * r) := by
      apply newPixel_of_fit hr hspectrum hx hy
      exact (total_fit_iff hspectrum).mpr ⟨hcount, hsums x hx y hy⟩
    -- no turn fails, so there is an image
    obtain ⟨value, hvalue⟩ : ∃ value,
        setPixels img r (img.width / r) (img.height / r) uninitialized = some value := by
      apply exists_foldlM_eq_some
      intro p hp v
      obtain ⟨hx, hy⟩ := mem_pixels.mp hp
      obtain ⟨new, hpixel, -⟩ := hnew hx hy
      rw [hpixel]
      exact ⟨_, rfl⟩
    refine ⟨⟨img.width / r, img.height / r, img.spectrum, value⟩, ?_, rfl, rfl, rfl, ?_⟩
    · rw [compress_image_of_pos hr, hvalue]
      rfl
    · intro x hx y hy c hc
      have hpixels := (setPixels_eq_some_iff.mp hvalue).1
      obtain ⟨new, hpixel, hset⟩ := hpixels (x, y) (mem_pixels.mpr ⟨hx, hy⟩)
      obtain ⟨new', hpixel', hmean⟩ := hnew hx hy
      obtain rfl := Option.some.inj (hpixel.symm.trans hpixel')
      have hfloor := Nat.floor_div_eq_div (K := ℚ) (blockSum img r x y c) (r * r)
      rw [Nat.cast_mul] at hfloor
      rw [hfloor, ← hmean c hc (uninitialized (x, y, c)), ← hset (x, y, c) rfl]

theorem averagesExactly_twoPixels :
    AveragesExactly twoPixels 1 (fun _ => 0) ↔ FitsInt twoPixels 1 :=
  averagesExactly_iff twoPixels 1 (fun _ => 0) (Or.inl rfl) (by decide) (by decide)

/-- The white square with sides of `n` pixels. -/
def whiteSquare (n : ℕ) : CImg UInt8 := ⟨n, n, 1, fun _ => 255⟩

theorem blockSum_whiteSquare (n r x y c : ℕ) :
    blockSum (whiteSquare n) r x y c = 255 * (r * r) := by
  have hwhite (i : ℕ × ℕ × ℕ) : ((whiteSquare n).value i).toNat = 255 := rfl
  simp only [blockSum, hwhite, Finset.sum_const, Finset.card_range, nsmul_eq_mul, Nat.cast_id]
  ring

/-- The sum over `2902 * 2902` white pixels is not an `int`. -/
theorem compress_image_whiteSquare :
    ¬ AveragesExactly (whiteSquare 2902) 2902 fun _ => 0 := by
  intro ⟨out, hout, _⟩
  have hfits := fitsInt_of_compress_image (Or.inl rfl) (by decide) (by decide) hout
  have hsum := hfits.2 0 (by decide) 0 (by decide) 0 (by decide)
  rw [blockSum_whiteSquare] at hsum
  exact absurd hsum (by decide)

end OpenAPT.Image
