import Mathlib.Data.List.Basic
import Mathlib.Tactic.Common

/-! Where a text first occurs in another, and a text cut at occurrences of a delimiter into pieces
that have none. -/
namespace Occurrence

variable {α : Type*} {d s : List α} {pos : ℕ}

/-- The text `d` occurs at `pos` and at no place before. -/
structure IsFirst (d s : List α) (pos : ℕ) : Prop where
  at_pos : d <+: s.drop pos
  not_before : ∀ j < pos, ¬ d <+: s.drop j

/-- The pieces joined by `d` give `s`, and `d` occurs in none of them. -/
structure IsSplit (d s : List α) (pieces : List (List α)) : Prop where
  ne_nil : pieces ≠ []
  intercalate_eq : List.intercalate d pieces = s
  not_infix : ∀ piece ∈ pieces, ¬ d <:+: piece

theorem infix_iff_exists_drop : d <:+: s ↔ ∃ j, d <+: s.drop j := by
  constructor
  · intro ⟨u, v, h⟩
    refine ⟨u.length, v, ?_⟩
    rw [← h, List.append_assoc, List.drop_left]
  · intro ⟨j, h⟩
    exact h.isInfix.trans (List.drop_suffix j s).isInfix

theorem isFirst_zero (h : d <+: s) : IsFirst d s 0 where
  at_pos := h
  not_before j hj := absurd hj (Nat.not_lt_zero j)

/-- The search goes on after an element at which `d` does not begin. -/
theorem IsFirst.cons {a : α} (h : ¬ d <+: a :: s) (hfirst : IsFirst d s pos) :
    IsFirst d (a :: s) (pos + 1) where
  at_pos := hfirst.at_pos
  not_before j hj := by
    cases j with
    | zero => exact h
    | succ j => exact hfirst.not_before j (Nat.lt_of_succ_lt_succ hj)

theorem IsFirst.add_length_le (h : IsFirst d s pos) (hd : d ≠ []) :
    pos + d.length ≤ s.length := by
  have hle := h.at_pos.length_le
  have hpos := List.length_pos_iff.mpr hd
  rw [List.length_drop] at hle
  omega

theorem IsFirst.take_append (h : IsFirst d s pos) :
    s.take pos ++ (d ++ s.drop (pos + d.length)) = s := by
  obtain ⟨rest, hrest⟩ := h.at_pos
  have hdrop : s.drop (pos + d.length) = rest := by
    rw [← List.drop_drop, ← hrest, List.drop_left]
  rw [hdrop, hrest, List.take_append_drop]

/-- An occurrence that ends before `pos` would begin before it, however occurrences overlap. -/
theorem IsFirst.not_infix_take (h : IsFirst d s pos) (hd : d ≠ []) : ¬ d <:+: s.take pos := by
  intro hinfix
  obtain ⟨j, hj⟩ := infix_iff_exists_drop.mp hinfix
  have hle := hj.length_le
  have hpos := List.length_pos_iff.mpr hd
  rw [List.length_drop, List.length_take] at hle
  apply h.not_before j (by omega)
  rw [List.drop_take] at hj
  exact hj.trans (List.take_prefix _ _)

theorem isSplit_singleton (h : ¬ d <:+: s) : IsSplit d s [s] where
  ne_nil := List.cons_ne_nil s []
  intercalate_eq := List.intercalate_singleton
  not_infix piece hpiece := by rwa [List.mem_singleton.mp hpiece]

/-- What stands before the first occurrence is a piece, and the others are those of the rest. -/
theorem IsSplit.cons (hd : d ≠ []) (hfirst : IsFirst d s pos) {pieces : List (List α)}
    (h : IsSplit d (s.drop (pos + d.length)) pieces) : IsSplit d s (s.take pos :: pieces) where
  ne_nil := List.cons_ne_nil _ pieces
  intercalate_eq := by
    rw [List.intercalate_cons_of_ne_nil h.ne_nil, h.intercalate_eq, List.append_assoc,
      hfirst.take_append]
  not_infix piece hpiece := by
    rcases List.mem_cons.mp hpiece with rfl | hmem
    · exact hfirst.not_infix_take hd
    · exact h.not_infix piece hmem

end Occurrence
