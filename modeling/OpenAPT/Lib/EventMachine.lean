import Mathlib.Logic.Basic
import Mathlib.Data.Option.Basic
import Mathlib.Tactic.Common

/-! Machines whose labels resolve every choice: `step s a` is the state after label `a`, or `none`
where `a` is not enabled. Runs, and the rules that lift a fact about one step to a whole run. -/
namespace EventMachine

variable {σ α : Type*} (step : σ → α → Option σ)

/-- The state after a list of labels, if every label is enabled where it is taken. -/
def run : σ → List α → Option σ
  | s, [] => some s
  | s, a :: as => (step s a).bind fun t => run t as

/-- `G` holds of every label of the run, read on the state it is taken in. -/
def Steps (G : σ → α → Prop) : σ → List α → Prop
  | _, [] => True
  | s, a :: as => G s a ∧ ∀ t, step s a = some t → Steps G t as

/-- `P` holds of every state of the run, the first and the last included. -/
def States (P : σ → Prop) : σ → List α → Prop
  | s, [] => P s
  | s, a :: as => P s ∧ ∀ t, step s a = some t → States P t as

instance Steps.decidable {G : σ → α → Prop} [∀ s a, Decidable (G s a)] :
    (s : σ) → (as : List α) → Decidable (Steps step G s as)
  | _, [] => isTrue trivial
  | s, a :: as =>
    have (t : σ) : Decidable (Steps step G t as) := Steps.decidable t as
    decidable_of_iff (G s a ∧ ∀ t ∈ step s a, Steps step G t as) Iff.rfl

def Reachable (init s : σ) : Prop := ∃ as, run step init as = some s

@[simp] theorem run_nil (s : σ) : run step s [] = some s := rfl

theorem run_cons_eq_some {s t : σ} {a : α} {as : List α} :
    run step s (a :: as) = some t ↔ ∃ u, step s a = some u ∧ run step u as = some t := by
  simp only [run, Option.bind_eq_some_iff]

variable {step}

theorem run_append {s t u : σ} {as bs : List α} (h : run step s as = some t)
    (hu : run step t bs = some u) : run step s (as ++ bs) = some u := by
  induction as generalizing s with
  | nil =>
    obtain rfl : s = t := by simpa using h
    simpa using hu
  | cons a as ih =>
    obtain ⟨v, hv, h⟩ := (run_cons_eq_some step).mp h
    exact (run_cons_eq_some step).mpr ⟨v, hv, ih h⟩

/-- A run of two parts goes through the state between them. -/
theorem run_append_eq_some {s u : σ} {as bs : List α} :
    run step s (as ++ bs) = some u ↔ ∃ t, run step s as = some t ∧ run step t bs = some u := by
  constructor
  · intro h
    induction as generalizing s with
    | nil => exact ⟨s, rfl, h⟩
    | cons a as ih =>
      obtain ⟨v, hv, hrest⟩ := (run_cons_eq_some step).mp h
      obtain ⟨t, ht, hu⟩ := ih hrest
      exact ⟨t, (run_cons_eq_some step).mpr ⟨v, hv, ht⟩, hu⟩
  · intro ⟨t, ht, hu⟩
    exact run_append ht hu

theorem run_concat_eq_some {s t : σ} {as : List α} {a : α} : run step s (as ++ [a]) = some t ↔
    ∃ u, run step s as = some u ∧ step u a = some t := by
  rw [run_append_eq_some]
  apply exists_congr
  intro u
  rw [run_cons_eq_some]
  simp only [run_nil, Option.some.injEq, exists_eq_right]

theorem Steps.last {G : σ → α → Prop} {s t : σ} {as : List α} {a : α}
    (h : Steps step G s (as ++ [a])) (ht : run step s as = some t) : G t a := by
  induction as generalizing s with
  | nil =>
    obtain rfl : s = t := by simpa using ht
    exact h.1
  | cons b bs ih =>
    obtain ⟨u, hu, ht⟩ := (run_cons_eq_some step).mp ht
    exact ih (h.2 u hu) ht

theorem Reachable.tail {init s t : σ} {a : α} (h : Reachable step init s)
    (ht : step s a = some t) : Reachable step init t := by
  obtain ⟨as, h⟩ := h
  exact ⟨as ++ [a], run_concat_eq_some.mpr ⟨s, h, ht⟩⟩

/-- What every step allowed by `G` preserves holds at the end of a run that keeps to `G`. -/
theorem run_invariant_of_steps {I : σ → Prop} {G : σ → α → Prop}
    (hstep : ∀ s a t, I s → G s a → step s a = some t → I t)
    {s t : σ} {as : List α} (hs : I s) (hG : Steps step G s as) (h : run step s as = some t) :
    I t := by
  induction as generalizing s with
  | nil =>
    obtain rfl : s = t := by simpa using h
    exact hs
  | cons a as ih =>
    obtain ⟨u, hu, h⟩ := (run_cons_eq_some step).mp h
    exact ih (hstep s a u hs hG.1 hu) (hG.2 u hu) h

theorem steps_of_forall {G : σ → α → Prop} (hG : ∀ s a, G s a) (s : σ) (as : List α) :
    Steps step G s as := by
  induction as generalizing s with
  | nil => trivial
  | cons a as ih => exact ⟨hG s a, fun t _ => ih t⟩

theorem steps_of_forall_mem {p : α → Prop} {as : List α} (h : ∀ a ∈ as, p a) (s : σ) :
    Steps step (fun _ a => p a) s as := by
  induction as generalizing s with
  | nil => trivial
  | cons a as ih =>
    exact ⟨h a List.mem_cons_self, fun t _ => ih (fun b hb => h b (List.mem_cons_of_mem a hb)) t⟩

/-- An invariant of the steps holds of every reachable state. -/
theorem reachable_invariant {I : σ → Prop} {init s : σ} (hinit : I init)
    (hstep : ∀ s a t, I s → step s a = some t → I t) (h : Reachable step init s) : I s := by
  obtain ⟨as, h⟩ := h
  exact run_invariant_of_steps (G := fun _ _ => True) (fun s a t hs _ => hstep s a t hs) hinit
    (steps_of_forall (fun _ _ => trivial) _ _) h

/-- The same in every state of the run. -/
theorem states_of_steps {I : σ → Prop} {G : σ → α → Prop}
    (hstep : ∀ s a t, I s → G s a → step s a = some t → I t)
    {s : σ} {as : List α} (hs : I s) (hG : Steps step G s as) : States step I s as := by
  induction as generalizing s with
  | nil => exact hs
  | cons a as ih => exact ⟨hs, fun t ht => ih (hstep s a t hs hG.1 ht) (hG.2 t ht)⟩

theorem States.head {P : σ → Prop} {s : σ} {as : List α} (h : States step P s as) : P s := by
  cases as with
  | nil => exact h
  | cons a as => exact h.1

theorem states_imp {P Q : σ → Prop} (hPQ : ∀ s, P s → Q s) {s : σ} {as : List α}
    (h : States step P s as) : States step Q s as := by
  induction as generalizing s with
  | nil => exact hPQ s h
  | cons a as ih => exact ⟨hPQ s h.1, fun t ht => ih (h.2 t ht)⟩

theorem steps_imp {G H : σ → α → Prop} (hGH : ∀ s a, G s a → H s a) {s : σ} {as : List α}
    (h : Steps step G s as) : Steps step H s as := by
  induction as generalizing s with
  | nil => trivial
  | cons a as ih => exact ⟨hGH s a h.1, fun t ht => ih (h.2 t ht)⟩

/-- Two step conditions that agree in the states of an invariant agree along every run, if the
invariant lasts as long as the second one is met. -/
theorem steps_congr_of_steps {I : σ → Prop} {G H : σ → α → Prop}
    (hstep : ∀ s a t, I s → H s a → step s a = some t → I t) (hGH : ∀ s a, I s → (G s a ↔ H s a))
    {s : σ} (hs : I s) (as : List α) : Steps step G s as ↔ Steps step H s as := by
  induction as generalizing s with
  | nil => rfl
  | cons a as ih =>
    constructor
    · intro ⟨ha, hrest⟩
      have hHa := (hGH s a hs).mp ha
      exact ⟨hHa, fun t ht => (ih (hstep s a t hs hHa ht)).mp (hrest t ht)⟩
    · intro ⟨ha, hrest⟩
      refine ⟨(hGH s a hs).mpr ha, fun t ht => ?_⟩
      exact (ih (hstep s a t hs ha ht)).mpr (hrest t ht)

/-- In particular if the invariant lasts forever. -/
theorem steps_congr {I : σ → Prop} {G H : σ → α → Prop}
    (hstep : ∀ s a t, I s → step s a = some t → I t) (hGH : ∀ s a, I s → (G s a ↔ H s a))
    {s : σ} (hs : I s) (as : List α) : Steps step G s as ↔ Steps step H s as :=
  steps_congr_of_steps (fun s a t hs _ => hstep s a t hs) hGH hs as

/-- If a step out of a good state leads to a good one exactly when it meets `G`, then a run stays
good exactly when all its steps meet `G`. -/
theorem states_iff_steps {I P : σ → Prop} {G : σ → α → Prop}
    (hstep : ∀ s a t, I s → step s a = some t → I t)
    (hG : ∀ s a t, I s → P s → step s a = some t → (P t ↔ G s a))
    {s t : σ} {as : List α} (hI : I s) (hP : P s) (h : run step s as = some t) :
    States step P s as ↔ Steps step G s as := by
  induction as generalizing s with
  | nil => exact iff_of_true hP trivial
  | cons a as ih =>
    obtain ⟨u, hu, h⟩ := (run_cons_eq_some step).mp h
    have hIu := hstep s a u hI hu
    constructor
    · rintro ⟨-, hrest⟩
      have hPu : P u := (hrest u hu).head
      refine ⟨(hG s a u hI hP hu).mp hPu, fun v hv => ?_⟩
      obtain rfl : u = v := Option.some.inj (hu.symm.trans hv)
      exact (ih hIu hPu h).mp (hrest u hu)
    · rintro ⟨hGa, hrest⟩
      have hPu := (hG s a u hI hP hu).mpr hGa
      refine ⟨hP, fun v hv => ?_⟩
      obtain rfl : u = v := Option.some.inj (hu.symm.trans hv)
      exact (ih hIu hPu h).mpr (hrest u hu)

/-- If a step that does not meet `G` spoils a good state for ever, then a run ends in a good state
exactly when all its steps meet `G`. -/
theorem iff_steps_of_spoiled {P : σ → Prop} (Spoiled : σ → Prop) {G : σ → α → Prop}
    (hgood : ∀ s a t, P s → G s a → step s a = some t → P t)
    (hbad : ∀ s a t, P s → ¬ G s a → step s a = some t → Spoiled t)
    (hspoiled : ∀ s a t, Spoiled s → step s a = some t → Spoiled t)
    (hnot : ∀ s, Spoiled s → ¬ P s) {s t : σ} {as : List α} (hP : P s)
    (h : run step s as = some t) : P t ↔ Steps step G s as := by
  have hstays : ∀ as s, Spoiled s → run step s as = some t → Spoiled t := by
    intro as s hs hrun
    exact run_invariant_of_steps (G := fun _ _ => True) (fun s a u hs _ => hspoiled s a u hs) hs
      (steps_of_forall (fun _ _ => trivial) s as) hrun
  induction as generalizing s with
  | nil =>
    obtain rfl : s = t := by simpa using h
    exact iff_of_true hP trivial
  | cons a as ih =>
    obtain ⟨u, hu, h⟩ := (run_cons_eq_some step).mp h
    by_cases hG : G s a
    · have hrest := ih (hgood s a u hP hG hu) h
      constructor
      · intro hPt
        refine ⟨hG, fun v hv => ?_⟩
        rw [← Option.some.inj (hu.symm.trans hv)]
        exact hrest.mp hPt
      · exact fun hsteps => hrest.mpr (hsteps.2 u hu)
    · apply iff_of_false
      · exact hnot t (hstays as u (hbad s a u hP hG hu) h)
      · exact fun hsteps => hG hsteps.1

/-! ### Runs that end -/

/-- Where every step that `G` allows lowers a cost, the cost pays for all steps of a run. -/
theorem length_add_le {G : σ → α → Prop} {cost : σ → ℕ}
    (hcost : ∀ s a t, G s a → step s a = some t → cost t < cost s)
    {s t : σ} {as : List α} (hG : Steps step G s as) (h : run step s as = some t) :
    as.length + cost t ≤ cost s := by
  induction as generalizing s with
  | nil =>
    obtain rfl : s = t := by simpa using h
    exact Nat.le_of_eq (Nat.zero_add _)
  | cons a as ih =>
    obtain ⟨u, hu, h⟩ := (run_cons_eq_some step).mp h
    have hfirst := hcost s a u hG.1 hu
    have hrest := ih (hG.2 u hu) h
    rw [List.length_cons]
    omega

/-- Then some run comes to a state in which no step that `G` allows is enabled. -/
theorem exists_run_to_rest {G : σ → α → Prop} {cost : σ → ℕ}
    (hcost : ∀ s a t, G s a → step s a = some t → cost t < cost s) (s : σ) :
    ∃ as t, Steps step G s as ∧ run step s as = some t ∧ ∀ a, G t a → step t a = none := by
  induction hn : cost s using Nat.strongRecOn generalizing s with
  | ind n ih =>
    by_cases hrest : ∀ a, G s a → step s a = none
    · exact ⟨[], s, trivial, rfl, hrest⟩
    · -- take any step that is allowed and go on from the cheaper state
      push Not at hrest
      obtain ⟨a, hG, hstep⟩ := hrest
      obtain ⟨u, hu⟩ := Option.ne_none_iff_exists'.mp hstep
      obtain ⟨as, t, hsteps, hrun, ht⟩ := ih (cost u) (hn ▸ hcost s a u hG hu) u rfl
      refine ⟨a :: as, t, ⟨hG, fun v hv => ?_⟩, (run_cons_eq_some step).mpr ⟨u, hu, hrun⟩, ht⟩
      rwa [← Option.some.inj (hu.symm.trans hv)]

/-- `G` is met along a run exactly when it is met at the end of every part of the run. -/
theorem steps_iff_forall_split {G : σ → α → Prop} {s : σ} {as : List α} :
    Steps step G s as ↔ ∀ before a after u, as = before ++ a :: after →
      run step s before = some u → G u a := by
  induction as generalizing s with
  | nil =>
    refine iff_of_true trivial fun before a after u heq _ => ?_
    exact absurd heq.symm (List.append_ne_nil_of_right_ne_nil before (List.cons_ne_nil a after))
  | cons b bs ih =>
    constructor
    · intro ⟨hb, hrest⟩ before a after u heq hu
      cases before with
      | nil =>
        obtain ⟨rfl, rfl⟩ : b = a ∧ bs = after := by simpa using heq
        obtain rfl : s = u := by simpa using hu
        exact hb
      | cons c before =>
        obtain ⟨rfl, hbs⟩ : b = c ∧ bs = before ++ a :: after := by simpa using heq
        obtain ⟨t, ht, hu⟩ := (run_cons_eq_some step).mp hu
        exact ih.mp (hrest t ht) before a after u hbs hu
    · intro h
      refine ⟨h [] b bs s rfl rfl, fun t ht => ih.mpr fun before a after u heq hu => ?_⟩
      apply h (b :: before) a after u
      · rw [heq, List.cons_append]
      · exact (run_cons_eq_some step).mpr ⟨t, ht, hu⟩

end EventMachine
