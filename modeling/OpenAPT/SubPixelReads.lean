import OpenAPT.SubPixelCenter

/-! Which of its intermediate values `calcSubPixelCenter` assigns in a turn of the loop, and which
it copies into the pixels. -/
namespace OpenAPT.Draw

/-- The variables with an `n`. -/
inductive Intermediate
  | a1n
  | a2n
  | a3n
  | a4n
  | b1n
  | b2n
  | b3n
  | b4n
  deriving DecidableEq

def Neighbours.get (new : Neighbours) : Intermediate → ℚ
  | .a1n => new.a1
  | .a2n => new.a2
  | .a3n => new.a3
  | .a4n => new.a4
  | .b1n => new.b1
  | .b2n => new.b2
  | .b3n => new.b3
  | .b4n => new.b4

/-- The mean that a turn takes for the new center. -/
inductive Branch
  | sp1
  | sp2
  | sp3
  | sp4
  deriving DecidableEq

def branch (c : ℚ) (p : Neighbours) : Branch :=
  if newC c p = sp1 c p then .sp1
  else if newC c p = sp2 c p then .sp2
  else if newC c p = sp3 c p then .sp3
  else .sp4

namespace Branch

/-- What the branch of `newValues` assigns. -/
def assigned : Branch → List Intermediate
  | sp1 => [.b1n, .b2n, .b3n, .a4n]
  | sp2 => [.a1n, .b2n, .a3n, .b3n, .b4n]
  | sp3 => [.b1n, .a2n, .b3n, .a4n, .b4n]
  | sp4 => [.a1n, .b1n, .b2n, .a4n, .b3n]

/-- What the branch of `setValues` copies. -/
def copied : Branch → List Intermediate
  | sp1 => [.a1n, .b1n]
  | sp2 => [.a2n, .b2n]
  | sp3 => [.a3n, .b3n]
  | sp4 => [.a4n, .b4n]

end Branch

/-- In every turn the values that are copied were assigned in the same turn. -/
def ReadsAssigned (inImg : CImg ℚ) (out : ℚ × ℚ) (uninitialized : Neighbours) (inNumIter : ℕ) :
    Prop :=
  ∀ i < inNumIter,
    let b := branch (inImg.value 1 1) (subPixelState inImg out uninitialized i).old
    ∀ v ∈ b.copied, v ∈ b.assigned

variable {c : ℚ} {p new new' : Neighbours} {v : Intermediate}

/-! ### The branches of the model -/

theorem newValues_get_of_mem (h : v ∈ (branch c p).assigned) (new new' : Neighbours) :
    (newValues c p new).get v = (newValues c p new').get v := by
  unfold branch at h
  unfold newValues
  -- in each branch either the value is computed, or `h` says that it would be
  split_ifs at h ⊢ <;> cases v <;> first | rfl | exact absurd h (by decide)

theorem newValues_get_of_not_mem (h : v ∉ (branch c p).assigned) (new : Neighbours) :
    (newValues c p new).get v = new.get v := by
  unfold branch at h
  unfold newValues
  split_ifs at h ⊢ <;> cases v <;> first | rfl | exact absurd (by decide) h

/-- The pixels depend on the copied values and on no other. -/
theorem setValues_eq_iff :
    setValues c p new = setValues c p new' ↔ ∀ v ∈ (branch c p).copied, new.get v = new'.get v := by
  unfold branch setValues
  split_ifs <;>
    simp only [Branch.copied, List.forall_mem_cons, List.not_mem_nil, false_imp_iff, implies_true,
      and_true, Neighbours.get, Neighbours.mk.injEq, true_and]

/-- The copied values are assigned before exactly if the pixels after the turn do not depend on what
the variables held before it. -/
theorem copied_assigned_iff :
    (∀ v ∈ (branch c p).copied, v ∈ (branch c p).assigned) ↔
      ∀ new new', setValues c p (newValues c p new) = setValues c p (newValues c p new') := by
  constructor
  · intro h new new'
    apply setValues_eq_iff.mpr
    exact fun v hv => newValues_get_of_mem (h v hv) new new'
  · intro h v hv
    by_contra hstale
    -- two values of the variables that differ at all of them
    have heq := setValues_eq_iff.mp (h ⟨0, 0, 0, 0, 0, 0, 0, 0⟩ ⟨1, 1, 1, 1, 1, 1, 1, 1⟩) v hv
    rw [newValues_get_of_not_mem hstale, newValues_get_of_not_mem hstale] at heq
    cases v <;> exact zero_ne_one heq

/-! ### Every branch -/

/-- One of the two values is never assigned. -/
theorem Branch.exists_stale (b : Branch) : ∃ v ∈ b.copied, v ∉ b.assigned := by
  cases b with
  | sp1 => exact ⟨.a1n, by decide, by decide⟩
  | sp2 => exact ⟨.a2n, by decide, by decide⟩
  | sp3 => exact ⟨.a3n, by decide, by decide⟩
  | sp4 => exact ⟨.b4n, by decide, by decide⟩

/-- Only assigned values are read where there is no turn at all. -/
theorem readsAssigned_iff (inImg : CImg ℚ) (out : ℚ × ℚ) (uninitialized : Neighbours)
    (inNumIter : ℕ) : ReadsAssigned inImg out uninitialized inNumIter ↔ inNumIter = 0 := by
  constructor
  · intro h
    by_contra hturns
    -- the first turn already reads a value that it has not assigned
    obtain ⟨v, hcopied, hstale⟩ := Branch.exists_stale (branch (inImg.value 1 1)
      (subPixelState inImg out uninitialized 0).old)
    exact hstale (h 0 (Nat.pos_of_ne_zero hturns) v hcopied)
  · rintro rfl i hi
    exact absurd hi (Nat.not_lt_zero i)

/-- The third mean is the largest one: `a3n` is copied, and it holds what it held before. -/
theorem not_readsAssigned_brightBelow :
    branch 4 (neighbours brightBelow) = .sp3 ∧
      (∀ u : Neighbours, (subPixelState brightBelow (1, 1) u 1).old.a3 = u.a3) ∧
      ¬ ∀ (inImg : CImg ℚ) (out : ℚ × ℚ) (uninitialized : Neighbours) (inNumIter : ℕ),
        ReadsAssigned inImg out uninitialized inNumIter := by
  have hbranch : branch 4 (neighbours brightBelow) = .sp3 := by decide +kernel
  refine ⟨hbranch, fun u => ?_, fun hall => ?_⟩
  · have h1 : newC 4 (neighbours brightBelow) ≠ sp1 4 (neighbours brightBelow) := by decide +kernel
    have h2 : newC 4 (neighbours brightBelow) ≠ sp2 4 (neighbours brightBelow) := by decide +kernel
    have h3 : newC 4 (neighbours brightBelow) = sp3 4 (neighbours brightBelow) := by decide +kernel
    have hcenter : brightBelow.value 1 1 = 4 := by decide +kernel
    have hrange : List.range 1 = [0] := rfl
    rw [subPixelState, hrange, List.foldl_cons, List.foldl_nil, hcenter]
    simp only [subPixelTurn, setValues, newValues, if_neg h1, if_neg h2, if_pos h3]
  · have hreads := hall brightBelow (1, 1) zeros 1 0 Nat.zero_lt_one .a3n
    have hstate : (subPixelState brightBelow (1, 1) zeros 0).old = neighbours brightBelow := rfl
    have hcenter : brightBelow.value 1 1 = 4 := by decide +kernel
    rw [hstate, hcenter, hbranch] at hreads
    exact absurd (hreads (by decide)) (by decide)

end OpenAPT.Draw
