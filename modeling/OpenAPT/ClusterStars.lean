import OpenAPT.Lib.Flood
import OpenAPT.Lib.Rounding
import Mathlib.Data.Prod.Lex
import Mathlib.Data.Finset.Max

/-! The star clusters of the image module: the white pixels of a binary image are grouped by
flooding, and each cluster is recorded by its frame. -/
namespace OpenAPT.Draw

open Rounding

/-- The first channel of a `CImg<T>`. -/
structure CImg (T : Type*) where
  width : ℕ
  height : ℕ
  value : ℕ → ℕ → T

/-- A `tuple<int, int>`; a `set` of them is in lexicographic order. -/
abbrev PixelPosT := ℤ ×ₗ ℤ

namespace PixelPosT

def x (p : PixelPosT) : ℤ := (ofLex p).1

def y (p : PixelPosT) : ℤ := (ofLex p).2

end PixelPosT

/-- An `int` where a `float` is expected: 24 significant bits of it. -/
def toFloat (i : ℤ) : ℤ := roundInt 24 i

/-- A `tuple<float, float, float, float>` with integral values. -/
structure FrameT where
  x1 : ℤ
  y1 : ℤ
  x2 : ℤ
  y2 : ℤ
  deriving DecidableEq

/-- The member of a star that the clustering sets. -/
structure StarInfoT where
  clusterFrame : FrameT
  deriving DecidableEq

def offsets : List (ℤ × ℤ) :=
  [(-1, -1), (0, -1), (1, -1), (-1, 0), (1, 0), (-1, 1), (0, 1), (1, 1)]

def shift (p : PixelPosT) (offset : ℤ × ℤ) : PixelPosT := toLex (p.x + offset.1, p.y + offset.2)

/-- The neighbours found among the white pixels go to the end of the list of pixels to be
processed. -/
def getAndRemoveNeighbours (inCurPixelPos : PixelPosT)
    (s : Finset PixelPosT × List PixelPosT) : Finset PixelPosT × List PixelPosT :=
  (offsets.map (shift inCurPixelPos)).foldl Flood.take s

/-- The boundaries after another pixel. The coordinates are converted to `float` by the
comparisons and by the assignments. -/
def grow (frame : FrameT) (curPixelPos : PixelPosT) : FrameT where
  x1 := if toFloat curPixelPos.x < frame.x1 then toFloat curPixelPos.x else frame.x1
  y1 := if toFloat curPixelPos.y < frame.y1 then toFloat curPixelPos.y else frame.y1
  x2 := if toFloat curPixelPos.x > frame.x2 then toFloat curPixelPos.x else frame.x2
  y2 := if toFloat curPixelPos.y > frame.y2 then toFloat curPixelPos.y else frame.y2

/-- The pixels that `cimg_forXY` inserts. -/
def whitePixels {T : Type*} [Zero T] [DecidableEq T] (inImg : CImg T) : Finset PixelPosT :=
  ((Finset.range inImg.height ×ˢ Finset.range inImg.width).filter fun p =>
    inImg.value p.2 p.1 ≠ 0).image fun p => toLex ((p.2 : ℤ), (p.1 : ℤ))

/-- One turn of the inner loop. The front pixel is still in the list while its neighbours are pushed
to the back, and then popped. -/
def processFront (curPixelPos : PixelPosT) (s : Flood.State PixelPosT) : Flood.State PixelPosT where
  white := (getAndRemoveNeighbours curPixelPos (s.white, s.queue)).1
  queue := (getAndRemoveNeighbours curPixelPos (s.white, s.queue)).2.tail
  done := s.done ++ [curPixelPos]

theorem processFront_eq_next {p : PixelPosT} {s : Flood.State PixelPosT} {rest : List PixelPosT}
    (hqueue : s.queue = p :: rest) :
    processFront p s = Flood.next p (offsets.map (shift p)) rest s := by
  have hcons (qs : List PixelPosT) (white : Finset PixelPosT) (todo : List PixelPosT) :
      qs.foldl Flood.take (white, p :: todo) =
        ((qs.foldl Flood.take (white, todo)).1, p :: (qs.foldl Flood.take (white, todo)).2) := by
    induction qs generalizing white todo with
    | nil => rfl
    | cons q qs ih =>
      simp only [List.foldl_cons, Flood.take]
      split
      · exact ih _ _
      · exact ih _ _
  simp only [processFront, getAndRemoveNeighbours, Flood.next, hqueue, hcons, List.tail_cons]

/-- What leaves the white pixels enters the list, and one pixel leaves the list. -/
theorem processFront_card {p : PixelPosT} {s : Flood.State PixelPosT} {rest : List PixelPosT}
    (hqueue : s.queue = p :: rest) :
    (processFront p s).white.card + (processFront p s).queue.length + 1 =
      s.white.card + s.queue.length := by
  rw [processFront_eq_next hqueue, Flood.card_next, hqueue, List.length_cons, Nat.add_assoc]

/-- The inner loop, with the pixels that it has taken off its list so far. -/
def processPixels (s : Flood.State PixelPosT) (frame : FrameT) : Flood.State PixelPosT × FrameT :=
  match _h : s.queue with
  | [] => (s, frame)
  | curPixelPos :: _ => processPixels (processFront curPixelPos s) (grow frame curPixelPos)
termination_by s.white.card + s.queue.length
decreasing_by
  have hcard := processFront_card _h
  omega

/-- What one turn of the outer loop has found: the frame that it records, and the pixels that the
inner loop has taken off its list. -/
structure Cluster where
  frame : FrameT
  pixels : List PixelPosT

section Loop

variable {T : Type*} (inImg : CImg T)

/-- `FrameT frame(inImg.width(), inImg.height(), 0, 0)`. -/
def initialFrame : FrameT := ⟨toFloat inImg.width, toFloat inImg.height, 0, 0⟩

/-- The inner loop that the first white pixel starts. -/
def processFirst (white : Finset PixelPosT) (h : white.Nonempty) :
    Flood.State PixelPosT × FrameT :=
  processPixels (Flood.start white (white.min' h)) (initialFrame inImg)

theorem processPixels_white_subset (s : Flood.State PixelPosT) (frame : FrameT) :
    (processPixels s frame).1.white ⊆ s.white := by
  fun_induction processPixels s frame with
  | case1 => exact Finset.Subset.refl _
  | case2 s frame p rest hqueue ih =>
    have hfront : (processFront p s).white ⊆ s.white := by
      rw [processFront_eq_next hqueue]
      exact Flood.next_white_subset s p rest _
    exact ih.trans hfront

/-- The outer loop. -/
def clusterLoop (white : Finset PixelPosT) : List Cluster :=
  if h : white.Nonempty then
    ⟨(processFirst inImg white h).2, (processFirst inImg white h).1.done⟩ ::
      clusterLoop (processFirst inImg white h).1.white
  else []
termination_by white.card
decreasing_by
  have hsubset := processPixels_white_subset (Flood.start white (white.min' h)) (initialFrame inImg)
  exact (Finset.card_le_card hsubset).trans_lt (Finset.card_erase_lt_of_mem (white.min'_mem h))

variable [Zero T] [DecidableEq T]

def clusters : List Cluster := clusterLoop inImg (whitePixels inImg)

/-- A star for each cluster is pushed to the back of `outStarInfos`. -/
def clusterStars (outStarInfos : List StarInfoT) : List StarInfoT :=
  outStarInfos ++ (clusters inImg).map fun c => ⟨c.frame⟩

end Loop

/-- Pixels that touch, at a side or at a corner. -/
def eightNeighbours : SimpleGraph PixelPosT where
  Adj p q := p ≠ q ∧ |p.x - q.x| ≤ 1 ∧ |p.y - q.y| ≤ 1
  symm := ⟨fun p q ⟨hne, hx, hy⟩ => ⟨hne.symm, abs_sub_comm p.x q.x ▸ hx, abs_sub_comm p.y q.y ▸ hy⟩⟩
  loopless := ⟨fun _ h => h.1 rfl⟩

theorem mem_offsets {a b : ℤ} :
    (a, b) ∈ offsets ↔ (a ≠ 0 ∨ b ≠ 0) ∧ |a| ≤ 1 ∧ |b| ≤ 1 := by
  simp only [offsets, List.mem_cons, Prod.mk.injEq, List.not_mem_nil, or_false, abs_le]
  omega

theorem mem_map_shift {p q : PixelPosT} :
    q ∈ offsets.map (shift p) ↔ eightNeighbours.Adj p q := by
  have hq : q = shift p (q.x - p.x, q.y - p.y) := by
    simp only [shift, add_sub_cancel]
    rfl
  have hne : p ≠ q ↔ q.x - p.x ≠ 0 ∨ q.y - p.y ≠ 0 := by
    rw [Ne, ← not_and_or, not_iff_not, sub_eq_zero, sub_eq_zero]
    constructor
    · intro h
      rw [h]
      exact ⟨rfl, rfl⟩
    · intro h
      exact ofLex_inj.mp (Prod.ext h.1.symm h.2.symm)
  have hadj : eightNeighbours.Adj p q ↔ (q.x - p.x, q.y - p.y) ∈ offsets := by
    rw [mem_offsets, ← hne, abs_sub_comm q.x, abs_sub_comm q.y]
    rfl
  rw [hadj, List.mem_map]
  constructor
  · rintro ⟨offset, hoffset, rfl⟩
    have hshift : ((shift p offset).x - p.x, (shift p offset).y - p.y) = offset := by
      simp only [shift, PixelPosT.x, PixelPosT.y, ofLex_toLex, add_sub_cancel_left]
    rwa [hshift]
  · intro h
    exact ⟨_, h, hq.symm⟩

section Correctness

variable {T : Type*} (inImg : CImg T) {S : Set PixelPosT} {white : Finset PixelPosT}

/-- The run of the inner loop: a flood goes on until its queue is empty, and the frame has followed
the pixels popped. -/
theorem processPixels_spec {first : PixelPosT} {s : Flood.State PixelPosT}
    (hwhite : ∀ p ∈ white, p ∈ S) (h : Flood.Flooding eightNeighbours S white first s)
    (frame : FrameT) :
    Flood.Flooding eightNeighbours S white first (processPixels s frame).1 ∧
      (processPixels s frame).1.queue = [] ∧
      ∃ popped, (processPixels s frame).1.done = s.done ++ popped ∧
        (processPixels s frame).2 = popped.foldl grow frame := by
  fun_induction processPixels s frame with
  | case1 s frame hqueue => exact ⟨h, hqueue, [], (List.append_nil _).symm, rfl⟩
  | case2 s frame p rest hqueue ih =>
    have hnext : Flood.Flooding eightNeighbours S white first (processFront p s) := by
      rw [processFront_eq_next hqueue]
      exact h.next hwhite hqueue fun q => mem_map_shift
    obtain ⟨hflooding, hempty, popped, hdone, hframe⟩ := ih hnext
    refine ⟨hflooding, hempty, p :: popped, ?_, hframe⟩
    rw [hdone, processFront, List.append_assoc, List.singleton_append]

theorem processFirst_spec (hwhite : ∀ p ∈ white, p ∈ S) (h : white.Nonempty) :
    Flood.Flooding eightNeighbours S white (white.min' h) (processFirst inImg white h).1 ∧
      (processFirst inImg white h).1.queue = [] ∧
      (processFirst inImg white h).2 =
        (processFirst inImg white h).1.done.foldl grow (initialFrame inImg) := by
  have hstart := Flood.flooding_start (G := eightNeighbours) hwhite (white.min'_mem h)
  obtain ⟨hflooding, hempty, popped, hdone, hframe⟩ :=
    processPixels_spec hwhite hstart (initialFrame inImg)
  refine ⟨hflooding, hempty, ?_⟩
  rw [processFirst, hframe, hdone, Flood.start, List.nil_append]

/-- The run of the outer loop: the clusters found before and those it finds are all the
components. -/
theorem clusterLoop_clusters {L : List (List PixelPosT)}
    (h : Flood.Clusters eightNeighbours S L white) :
    Flood.Clusters eightNeighbours S (L ++ (clusterLoop inImg white).map (·.pixels)) ∅ := by
  fun_induction clusterLoop inImg white generalizing L with
  | case1 white hne ih =>
    obtain ⟨hflooding, hempty, -⟩ := processFirst_spec inImg (fun p hp => h.mem_left hp) hne
    have hrest := ih (h.append hflooding hempty)
    rwa [List.append_assoc, List.singleton_append] at hrest
  | case2 white hne =>
    rw [List.map_nil, List.append_nil]
    rwa [Finset.not_nonempty_iff_eq_empty.mp hne] at h

theorem clusterLoop_frame {c : Cluster} (hc : c ∈ clusterLoop inImg white) :
    c.frame = c.pixels.foldl grow (initialFrame inImg) := by
  fun_induction clusterLoop inImg white with
  | case1 white hne ih =>
    rcases List.mem_cons.mp hc with rfl | hc
    · have hspec := processFirst_spec inImg (S := {p | p ∈ white}) (fun p hp => hp) hne
      exact hspec.2.2
    · exact ih hc
  | case2 => cases hc

end Correctness

/-- The smallest frame around some pixels. -/
structure IsBoundingBox (frame : FrameT) (pixels : Set PixelPosT) : Prop where
  x1 : IsLeast (PixelPosT.x '' pixels) frame.x1
  y1 : IsLeast (PixelPosT.y '' pixels) frame.y1
  x2 : IsGreatest (PixelPosT.x '' pixels) frame.x2
  y2 : IsGreatest (PixelPosT.y '' pixels) frame.y2

/-- `grow` without the conversions. -/
def extend (frame : FrameT) (p : PixelPosT) : FrameT :=
  ⟨min p.x frame.x1, min p.y frame.y1, max p.x frame.x2, max p.y frame.y2⟩

def FrameT.toFloat (frame : FrameT) : FrameT :=
  ⟨Draw.toFloat frame.x1, Draw.toFloat frame.y1, Draw.toFloat frame.x2, Draw.toFloat frame.y2⟩

theorem toFloat_mono {i j : ℤ} (h : i ≤ j) : toFloat i ≤ toFloat j := roundInt_mono (by decide) h

theorem toFloat_of_le {i : ℤ} (h₀ : 0 ≤ i) (h : i ≤ 2 ^ 24) : toFloat i = i :=
  roundInt_of_nonneg_of_le (by decide) h₀ h

theorem grow_eq (frame : FrameT) (p : PixelPosT) :
    grow frame p = ⟨min (toFloat p.x) frame.x1, min (toFloat p.y) frame.y1,
      max (toFloat p.x) frame.x2, max (toFloat p.y) frame.y2⟩ := by
  have hmin (i j : ℤ) : (if i < j then i else j) = min i j := by rw [min_def_lt]
  have hmax (i j : ℤ) : (if i > j then i else j) = max i j := by rw [max_comm, max_def_lt]
  simp only [grow, hmin, hmax]

/-- Rounding is monotone: it may be done once, at the end. -/
theorem grow_toFloat (frame : FrameT) (p : PixelPosT) :
    grow frame.toFloat p = (extend frame p).toFloat := by
  have hmono : Monotone toFloat := fun _ _ => toFloat_mono
  simp only [grow_eq, extend, FrameT.toFloat, hmono.map_min, hmono.map_max]

theorem foldl_grow_toFloat (frame : FrameT) (pixels : List PixelPosT) :
    pixels.foldl grow frame.toFloat = (pixels.foldl extend frame).toFloat :=
  List.foldl_hom FrameT.toFloat fun frame p => grow_toFloat frame p

theorem IsBoundingBox.extend {frame : FrameT} {pixels : Set PixelPosT}
    (h : IsBoundingBox frame pixels) (p : PixelPosT) :
    IsBoundingBox (extend frame p) (insert p pixels) := by
  constructor
  · rw [Set.image_insert_eq]
    exact h.x1.insert p.x
  · rw [Set.image_insert_eq]
    exact h.y1.insert p.y
  · rw [Set.image_insert_eq]
    exact h.x2.insert p.x
  · rw [Set.image_insert_eq]
    exact h.y2.insert p.y

theorem isBoundingBox_singleton (p : PixelPosT) : IsBoundingBox ⟨p.x, p.y, p.x, p.y⟩ {p} := by
  constructor <;> rw [Set.image_singleton]
  · exact isLeast_singleton
  · exact isLeast_singleton
  · exact isGreatest_singleton
  · exact isGreatest_singleton

theorem isBoundingBox_foldl {frame : FrameT} {pixels : Set PixelPosT}
    (h : IsBoundingBox frame pixels) (more : List PixelPosT) :
    IsBoundingBox (more.foldl Draw.extend frame) (pixels ∪ {p | p ∈ more}) := by
  induction more generalizing frame pixels with
  | nil =>
    have hempty : {p : PixelPosT | p ∈ ([] : List PixelPosT)} = ∅ := by simp
    rwa [hempty, Set.union_empty]
  | cons q more ih =>
    have hcons : pixels ∪ {p | p ∈ q :: more} = insert q pixels ∪ {p | p ∈ more} := by
      ext p
      simp only [Set.mem_union, Set.mem_ofPred_eq, List.mem_cons, Set.mem_insert_iff]
      tauto
    rw [hcons]
    exact ih (h.extend q)

section Image

variable {T : Type*} [Zero T] [DecidableEq T] (inImg : CImg T)

theorem mem_whitePixels {p : PixelPosT} : p ∈ whitePixels inImg ↔
    ∃ x y : ℕ, x < inImg.width ∧ y < inImg.height ∧ inImg.value x y ≠ 0 ∧ p = toLex (↑x, ↑y) := by
  simp only [whitePixels, Finset.mem_image, Finset.mem_filter, Finset.mem_product,
    Finset.mem_range]
  constructor
  · rintro ⟨⟨y, x⟩, ⟨⟨hy, hx⟩, hvalue⟩, rfl⟩
    exact ⟨x, y, hx, hy, hvalue, rfl⟩
  · rintro ⟨x, y, hx, hy, hvalue, rfl⟩
    exact ⟨⟨y, x⟩, ⟨⟨hy, hx⟩, hvalue⟩, rfl⟩

theorem bounds_of_mem_whitePixels {p : PixelPosT} (h : p ∈ whitePixels inImg) :
    (0 ≤ p.x ∧ p.x < inImg.width) ∧ 0 ≤ p.y ∧ p.y < inImg.height := by
  obtain ⟨x, y, hx, hy, -, rfl⟩ := (mem_whitePixels inImg).mp h
  have hx' : (PixelPosT.x (toLex ((x : ℤ), (y : ℤ)))) = x := rfl
  have hy' : (PixelPosT.y (toLex ((x : ℤ), (y : ℤ)))) = y := rfl
  omega

/-- The pixels of the clusters, in the order of the stars. -/
def clusterPixels : List (List PixelPosT) := (clusters inImg).map (·.pixels)

theorem clusters_all :
    Flood.Clusters eightNeighbours {p | p ∈ whitePixels inImg} (clusterPixels inImg) ∅ := by
  refine clusterLoop_clusters inImg (L := []) ⟨List.nodup_nil, ?_, fun p => ?_⟩
  · intro C hC
    exact absurd hC List.not_mem_nil
  · exact (and_iff_left List.not_mem_nil).symm

theorem mem_white_of_mem_pixels {pixels : List PixelPosT} (h : pixels ∈ clusterPixels inImg)
    {p : PixelPosT} (hp : p ∈ pixels) : p ∈ whitePixels inImg := by
  obtain ⟨seed, -, hmem⟩ := (clusters_all inImg).component pixels h
  obtain ⟨-, hwhite, -⟩ := (hmem p).mp hp
  exact hwhite

theorem pixels_ne_nil {pixels : List PixelPosT} (h : pixels ∈ clusterPixels inImg) :
    pixels ≠ [] := by
  obtain ⟨seed, hseed, hmem⟩ := (clusters_all inImg).component pixels h
  exact List.ne_nil_of_mem ((hmem seed).mpr (Flood.joined_refl hseed))

/-- The pixels of each cluster are visited once: that many turns the inner loops make. -/
theorem sum_length_clusterPixels :
    ((clusterPixels inImg).map List.length).sum = (whitePixels inImg).card := by
  have hall := clusters_all inImg
  have hset : (clusterPixels inImg).flatten.toFinset = whitePixels inImg := by
    ext p
    have hrest := hall.rest p
    rw [iff_false_left (Finset.notMem_empty p), not_and_not_right] at hrest
    rw [List.mem_toFinset]
    refine ⟨fun hp => ?_, hrest⟩
    obtain ⟨pixels, hpixels, hp⟩ := List.mem_flatten.mp hp
    exact mem_white_of_mem_pixels inImg hpixels hp
  rw [← hset, List.toFinset_card_of_nodup hall.nodup, List.length_flatten]

/-- The frame of a star is the bounding box of the pixels in `float`s, and these are the exact
coordinates if the image is not too large. -/
def Frames (star : StarInfoT) (pixels : List PixelPosT) : Prop :=
  ∃ box, IsBoundingBox box {p | p ∈ pixels} ∧ star.clusterFrame = box.toFloat ∧
    (inImg.width ≤ 2 ^ 24 + 1 → inImg.height ≤ 2 ^ 24 + 1 → star.clusterFrame = box)

omit [Zero T] [DecidableEq T] in
theorem initialFrame_eq : initialFrame inImg = FrameT.toFloat ⟨inImg.width, inImg.height, 0, 0⟩ :=
  rfl

/-- The first pixel replaces all four initial boundaries, or agrees with them. -/
theorem extend_initial {p : PixelPosT} (h : p ∈ whitePixels inImg) :
    extend ⟨inImg.width, inImg.height, 0, 0⟩ p = ⟨p.x, p.y, p.x, p.y⟩ := by
  obtain ⟨⟨hx, hx'⟩, hy, hy'⟩ := bounds_of_mem_whitePixels inImg h
  rw [extend, min_eq_left hx'.le, min_eq_left hy'.le, max_eq_left hx, max_eq_left hy]

theorem toFloat_eq_self {box : FrameT} {pixels : Set PixelPosT} (h : IsBoundingBox box pixels)
    (hpixels : ∀ p ∈ pixels, p ∈ whitePixels inImg) (hw : inImg.width ≤ 2 ^ 24 + 1)
    (hh : inImg.height ≤ 2 ^ 24 + 1) : box.toFloat = box := by
  have hx {i : ℤ} (hi : i ∈ PixelPosT.x '' pixels) : toFloat i = i := by
    obtain ⟨p, hp, rfl⟩ := hi
    have hbounds := bounds_of_mem_whitePixels inImg (hpixels p hp)
    exact toFloat_of_le hbounds.1.1 (by omega)
  have hy {i : ℤ} (hi : i ∈ PixelPosT.y '' pixels) : toFloat i = i := by
    obtain ⟨p, hp, rfl⟩ := hi
    have hbounds := bounds_of_mem_whitePixels inImg (hpixels p hp)
    exact toFloat_of_le hbounds.2.1 (by omega)
  rw [FrameT.toFloat, hx h.x1.1, hy h.y1.1, hx h.x2.1, hy h.y2.1]

theorem frames_of_mem {c : Cluster} (hc : c ∈ clusters inImg) :
    Frames inImg ⟨c.frame⟩ c.pixels := by
  have hmem : c.pixels ∈ clusterPixels inImg := List.mem_map_of_mem hc
  have hwhite (p : PixelPosT) (hp : p ∈ c.pixels) : p ∈ whitePixels inImg :=
    mem_white_of_mem_pixels inImg hmem hp
  have hframe := clusterLoop_frame inImg hc
  rw [initialFrame_eq, foldl_grow_toFloat] at hframe
  obtain ⟨p, rest, hpixels⟩ := List.exists_cons_of_ne_nil (pixels_ne_nil inImg hmem)
  have hbox : IsBoundingBox (c.pixels.foldl extend ⟨inImg.width, inImg.height, 0, 0⟩)
      {q | q ∈ c.pixels} := by
    have hp : p ∈ whitePixels inImg := hwhite p (hpixels ▸ List.mem_cons_self)
    have hset : {q | q ∈ p :: rest} = {p} ∪ {q | q ∈ rest} := by
      ext q
      exact List.mem_cons
    rw [hpixels, hset, List.foldl_cons, extend_initial inImg hp]
    exact isBoundingBox_foldl (isBoundingBox_singleton p) rest
  refine ⟨_, hbox, hframe, fun hw hh => ?_⟩
  exact hframe.trans (toFloat_eq_self inImg hbox hwhite hw hh)

/-- `clusterStars` computes the connected components: its clusters correspond to the components of
the touching white pixels, every white pixel lies in one of them and is visited once, and the frames
are the bounding boxes, each coordinate as a `float`. -/
theorem clusterStars_components (outStarInfos : List StarInfoT) :
    (∃ e : Fin (clusterPixels inImg).length ≃
        (eightNeighbours.induce {p | p ∈ whitePixels inImg}).ConnectedComponent,
      ∀ i p, p ∈ (clusterPixels inImg)[i] ↔ ∃ hp : p ∈ {p | p ∈ whitePixels inImg},
        SimpleGraph.connectedComponentMk _ ⟨p, hp⟩ = e i) ∧
    (∀ p ∈ whitePixels inImg, ∃! i : Fin (clusterPixels inImg).length,
      p ∈ (clusterPixels inImg)[i]) ∧
    (∃ stars, clusterStars inImg outStarInfos = outStarInfos ++ stars ∧
      List.Forall₂ (Frames inImg) stars (clusterPixels inImg)) ∧
    ((clusterPixels inImg).map List.length).sum = (whitePixels inImg).card := by
  have hall := clusters_all inImg
  refine ⟨hall.exists_equiv, fun p hp => hall.existsUnique hp, ⟨_, rfl, ?_⟩,
    sum_length_clusterPixels inImg⟩
  rw [clusterPixels, List.forall₂_map_left_iff, List.forall₂_map_right_iff, List.forall₂_same]
  exact fun c hc => frames_of_mem inImg hc

end Image

/-- One row with a single white pixel, the first one whose place is not a `float`. -/
def wideImage : CImg ℕ := ⟨2 ^ 24 + 2, 1, fun x _ => if x = 2 ^ 24 + 1 then 1 else 0⟩

theorem toFloat_wide : toFloat (2 ^ 24 + 1) = 2 ^ 24 := by decide

/-- The frame of its only cluster is not the bounding box. -/
theorem wideImage_frame_inexact :
    ∃ c ∈ clusters wideImage, ¬ IsBoundingBox c.frame {p | p ∈ c.pixels} := by
  have hwhite : toLex (2 ^ 24 + 1, 0) ∈ whitePixels wideImage :=
    (mem_whitePixels wideImage).mpr ⟨2 ^ 24 + 1, 0, by decide, by decide, by decide, rfl⟩
  obtain ⟨i, hi, -⟩ := (clusters_all wideImage).existsUnique hwhite
  obtain ⟨c, hc, hpixels⟩ := List.mem_map.mp (List.getElem_mem (l := clusterPixels wideImage) i.2)
  refine ⟨c, hc, fun hexact => ?_⟩
  obtain ⟨box, hbox, hframe, -⟩ := frames_of_mem wideImage hc
  have hx (p : PixelPosT) (hp : p ∈ c.pixels) : p.x = 2 ^ 24 + 1 := by
    have hmem := mem_white_of_mem_pixels wideImage (List.mem_map_of_mem hc) hp
    obtain ⟨x, y, -, -, hvalue, rfl⟩ := (mem_whitePixels wideImage).mp hmem
    have hplace : x = 2 ^ 24 + 1 := by
      by_contra hne
      exact hvalue (if_neg hne)
    rw [hplace]
    rfl
  obtain ⟨⟨p, hp, hpx⟩, -⟩ := hexact.x1
  obtain ⟨⟨q, hq, hqx⟩, -⟩ := hbox.x1
  have hrounded : c.frame.x1 = toFloat box.x1 := congrArg FrameT.x1 hframe
  rw [← hpx, ← hqx, hx p hp, hx q hq, toFloat_wide] at hrounded
  exact absurd hrounded (by decide)

end OpenAPT.Draw
