import Mathlib.Data.List.Basic
import Mathlib.Tactic.Common

/-! Loops whose steps are checked, such as sums in machine integers. Where a value that is lost does
not come back, checking every step is checking the result. -/
namespace CheckedFold

variable {σ ι : Type*} {step : σ → ι → Option σ} {next : σ → ι → σ} {ok : σ → Prop}

/-- The loop without the checks passes through no bad state on the way to a good one. -/
theorem ok_of_foldl (hback : ∀ s p, ok (next s p) → ok s) (l : List ι) {s : σ}
    (h : ok (l.foldl next s)) : ok s := by
  induction l generalizing s with
  | nil => exact h
  | cons p l ih => exact hback s p (ih h)

theorem foldlM_eq_some_iff (hback : ∀ s p, ok (next s p) → ok s)
    (hstep : ∀ s p t, ok s → (step s p = some t ↔ ok (next s p) ∧ t = next s p))
    (l : List ι) {s t : σ} (hs : ok s) :
    l.foldlM step s = some t ↔ ok (l.foldl next s) ∧ t = l.foldl next s := by
  induction l generalizing s with
  | nil =>
    rw [List.foldlM_nil, List.foldl_nil, and_iff_right hs]
    exact Option.some_inj.trans eq_comm
  | cons p l ih =>
    rw [List.foldlM_cons, List.foldl_cons]
    by_cases hnext : ok (next s p)
    · rw [(hstep s p _ hs).mpr ⟨hnext, rfl⟩]
      exact ih hnext
    · -- the check fails in this step, and the loop without it ends badly as well
      have hnone : step s p = none := by
        cases h : step s p with
        | none => rfl
        | some u => exact absurd ((hstep s p u hs).mp h).1 hnext
      rw [hnone]
      exact iff_of_false nofun fun h => hnext (ok_of_foldl hback l h.1)

/-- A loop in which no step fails has a result. -/
theorem exists_foldlM_eq_some (l : List ι) (s : σ) (h : ∀ p ∈ l, ∀ s, ∃ t, step s p = some t) :
    ∃ t, l.foldlM step s = some t := by
  induction l generalizing s with
  | nil => exact ⟨s, rfl⟩
  | cons p l ih =>
    obtain ⟨hp, hl⟩ := List.forall_mem_cons.mp h
    obtain ⟨t, ht⟩ := hp s
    rw [List.foldlM_cons, ht]
    exact ih t hl

end CheckedFold
