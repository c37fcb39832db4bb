import Mathlib.Algebra.Order.Field.Basic
import Mathlib.Algebra.Order.Field.Rat
import Mathlib.Tactic.Linarith
import OpenAPT.ClusterStars

/-! `calcSubPixelCenter`, which moves the center of a star towards the largest of four means, with
`float` taken as exact. -/
namespace OpenAPT.Draw

/-- The values around the center, `a` beside it and `b` in the corners. -/
structure Neighbours where
  a1 : ℚ
  a2 : ℚ
  a3 : ℚ
  a4 : ℚ
  b1 : ℚ
  b2 : ℚ
  b3 : ℚ
  b4 : ℚ

/-- The variables of `calcSubPixelCenter` in its loop: the values, and the ones with an `n`, which
are not initialized. -/
structure SubPixelState where
  outX : ℚ
  outY : ℚ
  old : Neighbours
  new : Neighbours

def sp1 (c : ℚ) (p : Neighbours) : ℚ := (p.a1 + p.a2 + 2 * c) / 4

def sp2 (c : ℚ) (p : Neighbours) : ℚ := (p.a2 + p.a3 + 2 * c) / 4

def sp3 (c : ℚ) (p : Neighbours) : ℚ := (p.a3 + p.a4 + 2 * c) / 4

def sp4 (c : ℚ) (p : Neighbours) : ℚ := (p.a4 + p.a1 + 2 * c) / 4

def newC (c : ℚ) (p : Neighbours) : ℚ := max (max (max (sp1 c p) (sp2 c p)) (sp3 c p)) (sp4 c p)

/-- The values with an `n` after the branch of the loop. -/
def newValues (c : ℚ) (p new : Neighbours) : Neighbours :=
  if newC c p = sp1 c p then
    { new with
      b1 := (p.a1 + 2 * p.a2 + c) / 4
      b2 := (p.a2 + 2 * c + 2 * p.a3 + p.b2) / 4
      b3 := (c + 2 * p.a3 + p.b4 + 2 * p.a4) / 4
      a4 := (p.a4 + 2 * c + 2 * p.a1 + p.b4) / 4 }
  else if newC c p = sp2 c p then
    { new with
      a1 := (p.b1 + 2 * p.a1 + c) / 4
      b2 := (p.a2 + 2 * p.a1 + 2 * c + p.b2) / 4
      a3 := (p.a3 + 2 * c + 2 * p.a2 + p.b2) / 4
      b3 := (p.a3 + 2 * c + p.b4) / 4
      b4 := (p.a4 + 2 * p.a3 + 2 * c + p.b4) / 4 }
  else if newC c p = sp3 c p then
    { new with
      b1 := (2 * p.a1 + c + p.b2) / 4
      a2 := (p.a2 + 2 * c + 2 * p.a1 + p.b2) / 4
      b3 := (2 * p.a3 + c + p.b4) / 4
      a4 := (p.a4 + 2 * c + 2 * p.a3 + p.b4) / 4
      b4 := (p.a4 + 2 * p.a3 + c) / 4 }
  else
    { new with
      a1 := (p.a1 + 2 * c + 2 * p.a2 + p.b2) / 4
      b1 := (p.a1 + 2 * p.a2 + c) / 4
      b2 := (p.a2 + 2 * c + 2 * p.a3 + p.b2) / 4
      a4 := (p.b4 + 2 * p.a3 + 2 * c + p.a4) / 4
      b3 := (p.a3 + 2 * c + p.b4) / 4 }

/-- Set new pixel values. -/
def setValues (c : ℚ) (p new : Neighbours) : Neighbours :=
  if newC c p = sp1 c p then { p with a1 := new.a1, b1 := new.b1 }
  else if newC c p = sp2 c p then { p with a2 := new.a2, b2 := new.b2 }
  else if newC c p = sp3 c p then { p with a3 := new.a3, b3 := new.b3 }
  else { p with a4 := new.a4, b4 := new.b4 }

/-- How far the branch moves the center for the distance `ad`. -/
def move (c : ℚ) (p : Neighbours) (ad : ℚ) : ℚ × ℚ :=
  if newC c p = sp1 c p then (-ad, -ad)
  else if newC c p = sp2 c p then (0, -ad)
  else if newC c p = sp3 c p then (ad, -ad)
  else (ad, 0)

/-- One turn of the loop. -/
def subPixelTurn (c : ℚ) (s : SubPixelState) (i : ℕ) : SubPixelState :=
  let ad : ℚ := 2⁻¹ ^ (i + 1)
  let new := newValues c s.old s.new
  ⟨s.outX + (move c s.old ad).1, s.outY + (move c s.old ad).2, setValues c s.old new, new⟩

/-- The values of the image around its pixel `(1, 1)`. -/
def neighbours (inImg : CImg ℚ) : Neighbours where
  b1 := inImg.value 0 0
  a2 := inImg.value 1 0
  b2 := inImg.value 2 0
  a1 := inImg.value 0 1
  a3 := inImg.value 2 1
  b4 := inImg.value 0 2
  a4 := inImg.value 1 2
  b3 := inImg.value 2 2

/-- The loop before its turn `n`. -/
def subPixelState (inImg : CImg ℚ) (out : ℚ × ℚ) (uninitialized : Neighbours) (n : ℕ) :
    SubPixelState :=
  (List.range n).foldl (subPixelTurn (inImg.value 1 1))
    ⟨out.1, out.2, neighbours inImg, uninitialized⟩

/-- `*outX` and `*outY`, which are `out` at first. -/
def calcSubPixelCenter (inImg : CImg ℚ) (out : ℚ × ℚ) (uninitialized : Neighbours)
    (inNumIter : ℕ) : ℚ × ℚ :=
  let s := subPixelState inImg out uninitialized inNumIter
  (s.outX + 1, s.outY + 1)

/-- What is added to the starting point, without the final constant. -/
def displacement (inImg : CImg ℚ) (out : ℚ × ℚ) (uninitialized : Neighbours) (inNumIter : ℕ) :
    ℚ × ℚ :=
  ((calcSubPixelCenter inImg out uninitialized inNumIter).1 - 1 - out.1,
    (calcSubPixelCenter inImg out uninitialized inNumIter).2 - 1 - out.2)

def mirrorX (img : CImg ℚ) : CImg ℚ := { img with value := fun x y => img.value (2 - x) y }

def mirrorY (img : CImg ℚ) : CImg ℚ := { img with value := fun x y => img.value x (2 - y) }

/-- No two of the four means are the same in any turn. -/
def NoTies (inImg : CImg ℚ) (out : ℚ × ℚ) (uninitialized : Neighbours) (inNumIter : ℕ) : Prop :=
  ∀ i < inNumIter,
    let p := (subPixelState inImg out uninitialized i).old
    [sp1 (inImg.value 1 1) p, sp2 (inImg.value 1 1) p, sp3 (inImg.value 1 1) p,
      sp4 (inImg.value 1 1) p].Nodup

/-- Mirroring the image mirrors the displacement. Each of the three runs has its own uninitialized
variables. -/
def RespectsMirrors (inImg : CImg ℚ) (out : ℚ × ℚ) (inNumIter : ℕ) (u v w : Neighbours) : Prop :=
  displacement (mirrorX inImg) out v inNumIter =
      (-(displacement inImg out u inNumIter).1, (displacement inImg out u inNumIter).2) ∧
    displacement (mirrorY inImg) out w inNumIter =
      ((displacement inImg out u inNumIter).1, -(displacement inImg out u inNumIter).2)

/-! ### The vertical moves -/

/-- Three of the branches go up, and none goes down. -/
theorem move_snd (c : ℚ) (p : Neighbours) (ad : ℚ) : (move c p ad).2 =
    if newC c p = sp1 c p ∨ newC c p = sp2 c p ∨ newC c p = sp3 c p then -ad else 0 := by
  unfold move
  by_cases h1 : newC c p = sp1 c p
  · rw [if_pos h1, if_pos (Or.inl h1)]
  · by_cases h2 : newC c p = sp2 c p
    · rw [if_neg h1, if_pos h2, if_pos (Or.inr (Or.inl h2))]
    · by_cases h3 : newC c p = sp3 c p
      · rw [if_neg h1, if_neg h2, if_pos h3, if_pos (Or.inr (Or.inr h3))]
      · rw [if_neg h1, if_neg h2, if_neg h3, if_neg (not_or.mpr ⟨h1, not_or.mpr ⟨h2, h3⟩⟩)]

theorem newC_cases (c : ℚ) (p : Neighbours) : newC c p = sp1 c p ∨ newC c p = sp2 c p ∨
    newC c p = sp3 c p ∨ newC c p = sp4 c p := by
  unfold newC
  rcases max_choice (max (max (sp1 c p) (sp2 c p)) (sp3 c p)) (sp4 c p) with h | h
  · rw [h]
    rcases max_choice (max (sp1 c p) (sp2 c p)) (sp3 c p) with h | h
    · rw [h]
      rcases max_choice (sp1 c p) (sp2 c p) with h | h
      · exact Or.inl h
      · exact Or.inr (Or.inl h)
    · exact Or.inr (Or.inr (Or.inl h))
  · exact Or.inr (Or.inr (Or.inr h))

/-- Upside down the first mean is the fourth one, and the largest mean is the same. -/
theorem sp1_mirrorY (img : CImg ℚ) (c : ℚ) :
    sp1 c (neighbours (mirrorY img)) = sp4 c (neighbours img) := by
  have h : (neighbours (mirrorY img)).a1 + (neighbours (mirrorY img)).a2 =
      (neighbours img).a4 + (neighbours img).a1 := add_comm ..
  rw [sp1, sp4, h]

theorem newC_mirrorY (img : CImg ℚ) (c : ℚ) :
    newC c (neighbours (mirrorY img)) = newC c (neighbours img) := by
  have h2 : sp2 c (neighbours (mirrorY img)) = sp3 c (neighbours img) := by
    have h : (neighbours (mirrorY img)).a2 + (neighbours (mirrorY img)).a3 =
        (neighbours img).a3 + (neighbours img).a4 := add_comm ..
    rw [sp2, sp3, h]
  have h3 : sp3 c (neighbours (mirrorY img)) = sp2 c (neighbours img) := by
    have h : (neighbours (mirrorY img)).a3 + (neighbours (mirrorY img)).a4 =
        (neighbours img).a2 + (neighbours img).a3 := add_comm ..
    rw [sp3, sp2, h]
  have h4 : sp4 c (neighbours (mirrorY img)) = sp1 c (neighbours img) := by
    have h : (neighbours (mirrorY img)).a4 + (neighbours (mirrorY img)).a1 =
        (neighbours img).a1 + (neighbours img).a2 := add_comm ..
    rw [sp4, sp1, h]
  rw [newC, newC, sp1_mirrorY, h2, h3, h4]
  -- the four means in the opposite order
  rw [max_comm _ (sp1 c _), max_comm _ (sp2 c _), max_comm (sp4 c _) (sp3 c _), ← max_assoc,
    ← max_assoc]

/-- An image or its mirror image is moved up in the first turn. -/
theorem move_snd_or_mirrorY (img : CImg ℚ) (c ad : ℚ) :
    (move c (neighbours img) ad).2 = -ad ∨ (move c (neighbours (mirrorY img)) ad).2 = -ad := by
  rw [move_snd, move_snd]
  by_cases hup : newC c (neighbours img) = sp1 c (neighbours img) ∨
      newC c (neighbours img) = sp2 c (neighbours img) ∨
      newC c (neighbours img) = sp3 c (neighbours img)
  · exact Or.inl (if_pos hup)
  · have hfour : newC c (neighbours img) = sp4 c (neighbours img) := by
      rcases newC_cases c (neighbours img) with h | h | h | h
      · exact absurd (Or.inl h) hup
      · exact absurd (Or.inr (Or.inl h)) hup
      · exact absurd (Or.inr (Or.inr h)) hup
      · exact h
    have hone : newC c (neighbours (mirrorY img)) = sp1 c (neighbours (mirrorY img)) := by
      rw [newC_mirrorY, sp1_mirrorY, hfour]
    exact Or.inr (if_pos (Or.inl hone))

theorem displacement_zero (img : CImg ℚ) (out : ℚ × ℚ) (u : Neighbours) :
    displacement img out u 0 = (0, 0) := by
  have hx : out.1 + 1 - 1 - out.1 = 0 := by ring
  have hy : out.2 + 1 - 1 - out.2 = 0 := by ring
  exact Prod.ext hx hy

theorem move_snd_nonpos (c : ℚ) (p : Neighbours) {ad : ℚ} (had : 0 ≤ ad) :
    (move c p ad).2 ≤ 0 := by
  rw [move_snd]
  split_ifs
  · exact neg_nonpos.mpr had
  · exact le_rfl

/-- No turn goes down. -/
theorem outY_foldl_le (c : ℚ) (l : List ℕ) (s : SubPixelState) :
    (l.foldl (subPixelTurn c) s).outY ≤ s.outY := by
  induction l generalizing s with
  | nil => exact le_rfl
  | cons i l ih =>
    have hturn : (subPixelTurn c s i).outY ≤ s.outY := by
      have had : (0 : ℚ) ≤ 2⁻¹ ^ (i + 1) := by positivity
      have hmove := move_snd_nonpos c s.old had
      rw [subPixelTurn]
      linarith
    exact (ih _).trans hturn

/-- After the first turn the center does not come down again. -/
theorem displacement_snd_le (img : CImg ℚ) (out : ℚ × ℚ) (u : Neighbours) (n : ℕ) :
    (displacement img out u (n + 1)).2 ≤ (move (img.value 1 1) (neighbours img) 2⁻¹).2 := by
  have hrange : List.range (n + 1) = 0 :: (List.range n).map Nat.succ :=
    List.range_succ_eq_map
  have hle := outY_foldl_le (img.value 1 1) ((List.range n).map Nat.succ)
    (subPixelTurn (img.value 1 1) ⟨out.1, out.2, neighbours img, u⟩ 0)
  have hfirst : (subPixelTurn (img.value 1 1) ⟨out.1, out.2, neighbours img, u⟩ 0).outY =
      out.2 + (move (img.value 1 1) (neighbours img) 2⁻¹).2 := by
    rw [subPixelTurn, zero_add, pow_one]
  rw [hfirst, ← List.foldl_cons, ← hrange] at hle
  simp only [displacement, calcSubPixelCenter, subPixelState]
  linarith

/-- The image and its mirror image would have to move in opposite directions. -/
theorem not_respectsMirrors_succ (img : CImg ℚ) (out : ℚ × ℚ) (n : ℕ) (u v w : Neighbours) :
    ¬ RespectsMirrors img out (n + 1) u v w := by
  intro ⟨_, hY⟩
  have hsnd := congrArg Prod.snd hY
  have hpos : (0 : ℚ) < 2⁻¹ := by positivity
  have hle := displacement_snd_le img out u n
  have hle' := displacement_snd_le (mirrorY img) out w n
  have hcenter : (mirrorY img).value 1 1 = img.value 1 1 := rfl
  rw [hcenter] at hle'
  have hmove := move_snd_nonpos (img.value 1 1) (neighbours img) hpos.le
  have hmove' := move_snd_nonpos (img.value 1 1) (neighbours (mirrorY img)) hpos.le
  rcases move_snd_or_mirrorY img (img.value 1 1) 2⁻¹ with hup | hup
  · rw [hup] at hle
    linarith
  · rw [hup] at hle'
    linarith

/-- Mirror symmetry is only kept by doing nothing. -/
theorem respectsMirrors_iff (inImg : CImg ℚ) (out : ℚ × ℚ) (inNumIter : ℕ)
    (u v w : Neighbours) : RespectsMirrors inImg out inNumIter u v w ↔ inNumIter = 0 := by
  constructor
  · intro h
    cases inNumIter with
    | zero => rfl
    | succ n => exact absurd h (not_respectsMirrors_succ inImg out n u v w)
  · rintro rfl
    simp only [RespectsMirrors, displacement_zero, neg_zero, and_self]

/-- The brightest pixel beside the center is the lower one. -/
def brightBelow : CImg ℚ := ⟨3, 3, fun x y => if y = 2 then 8 else if x = 0 then 1 else y + 3⟩

def zeros : Neighbours := ⟨0, 0, 0, 0, 0, 0, 0, 0⟩

theorem not_respectsMirrors_brightBelow : NoTies brightBelow (1, 1) zeros 1 ∧
    ¬ RespectsMirrors brightBelow (1, 1) 1 zeros zeros zeros := by
  refine ⟨?_, not_respectsMirrors_succ brightBelow (1, 1) 0 zeros zeros zeros⟩
  intro i hi
  obtain rfl := Nat.lt_one_iff.mp hi
  decide +kernel

end OpenAPT.Draw
