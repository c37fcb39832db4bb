import Mathlib.Data.Option.Basic
import Mathlib.Tactic.Common

/-! `while` loops with a body that can fail. A loop ends in the state in which the test is false for
the first time, or where the body fails; the rules say that it does by a variant, and that it does
not by an invariant that keeps the test true. -/
namespace WhileLoop

variable {σ : Type*} {test : σ → Bool} {body : σ → Option σ}

/-- How the loop ends: in a state, or with `none` where the body fails. -/
inductive Ends (test : σ → Bool) (body : σ → Option σ) : σ → Option σ → Prop
  | exit {s : σ} (htest : test s = false) : Ends test body s (some s)
  | fail {s : σ} (htest : test s = true) (hbody : body s = none) : Ends test body s none
  | turn {s t : σ} {o : Option σ} (htest : test s = true) (hbody : body s = some t)
      (hrest : Ends test body t o) : Ends test body s o

theorem ends_iff_of_false {s : σ} {o : Option σ} (htest : test s = false) :
    Ends test body s o ↔ o = some s := by
  constructor
  · intro h
    cases h with
    | exit => rfl
    | fail htrue => exact Bool.noConfusion (htest.symm.trans htrue)
    | turn htrue => exact Bool.noConfusion (htest.symm.trans htrue)
  · rintro rfl
    exact Ends.exit htest

theorem ends_iff_of_none {s : σ} {o : Option σ} (htest : test s = true) (hbody : body s = none) :
    Ends test body s o ↔ o = none := by
  constructor
  · intro h
    cases h with
    | exit hfalse => exact Bool.noConfusion (htest.symm.trans hfalse)
    | fail => rfl
    | turn _ hsome => cases hbody.symm.trans hsome
  · rintro rfl
    exact Ends.fail htest hbody

/-- A function that returns whether the loop did not fail. -/
theorem exists_true_eq_isSome_iff {P : Option σ → Prop} :
    (∃ o, P o ∧ true = o.isSome) ↔ ∃ s, P (some s) := by
  constructor
  · intro ⟨o, ho, hsome⟩
    obtain ⟨s, rfl⟩ := Option.isSome_iff_exists.mp hsome.symm
    exact ⟨s, ho⟩
  · intro ⟨s, hs⟩
    exact ⟨some s, hs, rfl⟩

/-- There is only one first place at which a property does not hold. -/
theorem eq_of_first {P : ℕ → Prop} {m n : ℕ} (hm : ∀ i < m, P i) (hm_not : ¬ P m)
    (hn : ∀ i < n, P i) (hn_not : ¬ P n) : m = n := by
  apply Nat.le_antisymm
  · exact Nat.le_of_not_lt fun hlt => hn_not (hm n hlt)
  · exact Nat.le_of_not_lt fun hlt => hm_not (hn m hlt)

/-- One turn does not change how the loop ends. -/
theorem ends_iff_of_some {s t : σ} {o : Option σ} (htest : test s = true)
    (hbody : body s = some t) : Ends test body s o ↔ Ends test body t o := by
  constructor
  · intro h
    cases h with
    | exit hfalse => exact Bool.noConfusion (htest.symm.trans hfalse)
    | fail _ hnone => cases hbody.symm.trans hnone
    | turn _ hsome hrest =>
      obtain rfl := Option.some.inj (hbody.symm.trans hsome)
      exact hrest
  · exact Ends.turn htest hbody

/-- An invariant of the turns, under which the body does not fail, holds where the loop ends. -/
theorem Ends.invariant {I : σ → Prop} {s : σ} {o : Option σ} (h : Ends test body s o) (hs : I s)
    (hstep : ∀ s, I s → test s = true → ∃ t, body s = some t ∧ I t) :
    ∃ t, o = some t ∧ I t ∧ test t = false := by
  induction h with
  | exit htest => exact ⟨_, rfl, hs, htest⟩
  | fail htest hbody =>
    obtain ⟨t, ht, -⟩ := hstep _ hs htest
    cases hbody.symm.trans ht
  | turn htest hbody hrest ih =>
    obtain ⟨t, ht, hI⟩ := hstep _ hs htest
    obtain rfl := Option.some.inj (hbody.symm.trans ht)
    exact ih hI

/-- A variant makes the loop end. -/
theorem exists_ends_of_variant {I : σ → Prop} (variant : σ → ℕ)
    (hstep : ∀ s, I s → test s = true → ∃ t, body s = some t ∧ I t ∧ variant t < variant s)
    {s : σ} (hs : I s) : ∃ t, Ends test body s (some t) ∧ I t ∧ test t = false := by
  induction hn : variant s using Nat.strongRecOn generalizing s with
  | ind n ih =>
    cases htest : test s with
    | false => exact ⟨s, Ends.exit htest, hs, htest⟩
    | true =>
      obtain ⟨t, ht, hI, hlt⟩ := hstep s hs htest
      obtain ⟨u, hu, huI, hutest⟩ := ih (variant t) (hn ▸ hlt) hI rfl
      exact ⟨u, Ends.turn htest ht hu, huI, hutest⟩

/-- The turns along a trace do not change how the loop ends. -/
theorem ends_iff_of_trace {trace : ℕ → σ} {n : ℕ} {o : Option σ}
    (hturn : ∀ i < n, test (trace i) = true ∧ body (trace i) = some (trace (i + 1))) :
    Ends test body (trace 0) o ↔ Ends test body (trace n) o := by
  induction n with
  | zero => rfl
  | succ n ih =>
    obtain ⟨htest, hbody⟩ := hturn n (Nat.lt_succ_self n)
    rw [ih fun i hi => hturn i (Nat.lt_succ_of_lt hi)]
    exact ends_iff_of_some htest hbody

/-- A loop that does not fail ends at the first place of its trace at which the test is false. -/
theorem ends_some_iff_of_trace {trace : ℕ → σ}
    (htrace : ∀ i t, body (trace i) = some t → t = trace (i + 1)) (t : σ) :
    Ends test body (trace 0) (some t) ↔ ∃ n,
      (∀ i < n, test (trace i) = true ∧ body (trace i) = some (trace (i + 1))) ∧
        test (trace n) = false ∧ t = trace n := by
  constructor
  · intro h
    have hends {s : σ} {o : Option σ} (h : Ends test body s o) (k : ℕ) (hs : s = trace k)
        (hbefore : ∀ i < k, test (trace i) = true ∧ body (trace i) = some (trace (i + 1)))
        (t : σ) (ho : o = some t) : ∃ n,
          (∀ i < n, test (trace i) = true ∧ body (trace i) = some (trace (i + 1))) ∧
            test (trace n) = false ∧ t = trace n := by
      induction h generalizing k with
      | exit htest =>
        subst hs
        exact ⟨k, hbefore, htest, (Option.some.inj ho).symm⟩
      | fail => cases ho
      | turn htest hbody hrest ih =>
        subst hs
        have hnext := htrace k _ hbody
        subst hnext
        refine ih (k + 1) rfl (fun i hi => ?_) ho
        rcases Nat.lt_succ_iff_lt_or_eq.mp hi with hlt | rfl
        · exact hbefore i hlt
        · exact ⟨htest, hbody⟩
    exact hends h 0 rfl (fun i hi => absurd hi (Nat.not_lt_zero i)) t rfl
  · rintro ⟨n, hturn, hfalse, rfl⟩
    exact (ends_iff_of_trace hturn).mpr (Ends.exit hfalse)

/-- An invariant that keeps the test true keeps the loop going for ever. -/
theorem not_ends_of_invariant {I : σ → Prop}
    (hstep : ∀ s, I s → test s = true ∧ ∃ t, body s = some t ∧ I t) {s : σ} (hs : I s)
    (o : Option σ) : ¬ Ends test body s o := by
  intro h
  obtain ⟨t, -, ht, hfalse⟩ := h.invariant hs fun s hI _ => (hstep s hI).2
  exact Bool.noConfusion (hfalse.symm.trans (hstep t ht).1)

/-- In particular a state that a turn leaves as it is. -/
theorem not_ends_of_fixed {s : σ} (htest : test s = true) (hbody : body s = some s)
    (o : Option σ) : ¬ Ends test body s o := by
  apply not_ends_of_invariant (I := fun t => t = s) _ rfl
  rintro t rfl
  exact ⟨htest, t, hbody, rfl⟩

end WhileLoop
