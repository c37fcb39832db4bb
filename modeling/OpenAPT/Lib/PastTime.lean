import Mathlib.Data.List.Basic
import Mathlib.Data.List.Induction
import Mathlib.Tactic.Common
import OpenAPT.Lib.EventMachine

/-! Properties of finite histories that look back: what has held since, and what has always held.
A history is the list of its events, the oldest first, and an event is judged together with the
events before it. -/
namespace PastTime

variable {α : Type*}

/-- There was an event with `q`, and every event after it meets `p`. -/
def Since (p : α → Prop) (q : List α → α → Prop) (h : List α) : Prop :=
  ∃ before a after, h = before ++ a :: after ∧ q before a ∧ ∀ b ∈ after, p b

/-- Every event meets `p`. -/
def Always (p : List α → α → Prop) (h : List α) : Prop :=
  ∀ before a after, h = before ++ a :: after → p before a

/-- What the events of a history yield, the oldest first; `before` comes before the history. -/
def yieldsFrom {β : Type*} (f : List α → α → Option β) : List α → List α → List β
  | _, [] => []
  | before, a :: h => (f before a).toList ++ yieldsFrom f (before ++ [a]) h

def yields {β : Type*} (f : List α → α → Option β) (h : List α) : List β := yieldsFrom f [] h

variable {p : α → Prop} {q : List α → α → Prop} {h l : List α} {a : α}

theorem not_since_nil : ¬ Since p q [] := by
  intro ⟨before, a, after, hnil, _, _⟩
  exact List.append_ne_nil_of_right_ne_nil before (List.cons_ne_nil a after) hnil.symm

/-- An event of a history is the last one, or the last one comes after it. -/
theorem eq_or_eq_of_concat_eq {before after : List α} {b : α}
    (heq : h ++ [a] = before ++ b :: after) :
    before = h ∧ b = a ∧ after = [] ∨ ∃ rest, after = rest ++ [a] ∧ h = before ++ b :: rest := by
  rcases List.eq_nil_or_concat after with rfl | ⟨rest, c, rfl⟩
  · obtain ⟨rfl, hab⟩ := List.append_inj' heq rfl
    obtain rfl : a = b := by simpa using hab
    exact Or.inl ⟨rfl, rfl, rfl⟩
  · have hassoc : before ++ b :: (rest ++ [c]) = (before ++ b :: rest) ++ [c] := by simp
    rw [List.concat_eq_append, hassoc] at heq
    obtain ⟨hbefore, hac⟩ := List.append_inj' heq rfl
    obtain rfl : a = c := by simpa using hac
    exact Or.inr ⟨rest, List.concat_eq_append, hbefore⟩

theorem since_concat : Since p q (h ++ [a]) ↔ q h a ∨ p a ∧ Since p q h := by
  constructor
  · intro ⟨before, b, after, heq, hq, hp⟩
    rcases eq_or_eq_of_concat_eq heq with ⟨rfl, rfl, -⟩ | ⟨rest, rfl, rfl⟩
    · exact Or.inl hq
    · have hpa : p a := hp a (by simp)
      exact Or.inr ⟨hpa, before, b, rest, rfl, hq, fun d hd => hp d (by simp [hd])⟩
  · intro hsince
    rcases hsince with hq | ⟨hpa, before, b, after, rfl, hq, hp⟩
    · exact ⟨h, a, [], rfl, hq, fun b hb => absurd hb List.not_mem_nil⟩
    · refine ⟨before, b, after ++ [a], by simp, hq, fun c hc => ?_⟩
      rcases List.mem_append.mp hc with hc | hc
      · exact hp c hc
      · rwa [List.mem_singleton.mp hc]

/-- What has held since some event of the first part still does when all later events meet `p`. -/
theorem Since.append (hh : Since p q h) (hl : ∀ b ∈ l, p b) : Since p q (h ++ l) := by
  obtain ⟨before, a, after, rfl, hq, hp⟩ := hh
  refine ⟨before, a, after ++ l, by simp, hq, fun b hb => ?_⟩
  exact (List.mem_append.mp hb).elim (hp b) (hl b)

/-- A stronger event gives a stronger property. -/
theorem Since.imp {q' : List α → α → Prop} (hq : ∀ before a, q before a → Since p q' before ∧ p a)
    (hh : Since p q h) : Since p q' h := by
  obtain ⟨before, a, after, rfl, ha, hp⟩ := hh
  obtain ⟨hbefore, hpa⟩ := hq before a ha
  apply hbefore.append
  intro b hb
  rcases List.mem_cons.mp hb with rfl | hb
  · exact hpa
  · exact hp b hb

theorem always_nil {p : List α → α → Prop} : Always p [] := by
  intro before a after hnil
  exact absurd hnil.symm (List.append_ne_nil_of_right_ne_nil before (List.cons_ne_nil a after))

theorem always_concat {p : List α → α → Prop} :
    Always p (h ++ [a]) ↔ Always p h ∧ p h a := by
  constructor
  · intro hall
    refine ⟨fun before b after heq => ?_, hall h a [] rfl⟩
    exact hall before b (after ++ [a]) (by simp [heq])
  · intro ⟨hh, ha⟩ before b after heq
    rcases eq_or_eq_of_concat_eq heq with ⟨rfl, rfl, -⟩ | ⟨rest, -, rfl⟩
    · exact ha
    · exact hh before b rest rfl

theorem always_congr {p r : List α → α → Prop} (hpr : ∀ before a, p before a ↔ r before a) :
    Always p h ↔ Always r h :=
  forall_congr' fun before => forall_congr' fun a => forall_congr' fun _ =>
    forall_congr' fun _ => hpr before a

/-- What does not look back is asked of every event. -/
theorem always_iff_forall_mem : Always (fun _ b => p b) h ↔ ∀ b ∈ h, p b := by
  constructor
  · intro hall b hb
    obtain ⟨before, after, rfl⟩ := List.append_of_mem hb
    exact hall before b after rfl
  · intro hall before b after heq
    apply hall b
    simp [heq]

section Yields

variable {β : Type*} (f : List α → α → Option β)

theorem yieldsFrom_concat (before h : List α) (a : α) :
    yieldsFrom f before (h ++ [a]) = yieldsFrom f before h ++ (f (before ++ h) a).toList := by
  induction h generalizing before with
  | nil => simp only [List.nil_append, yieldsFrom, List.append_nil]
  | cons b h ih =>
    simp only [List.cons_append, yieldsFrom, ih, List.append_assoc, List.nil_append]

@[simp] theorem yields_nil : yields f [] = [] := rfl

theorem yields_concat (h : List α) (a : α) :
    yields f (h ++ [a]) = yields f h ++ (f h a).toList := by
  rw [yields, yields, yieldsFrom_concat, List.nil_append]

/-- The first value that a history yields: it stays once it is there. -/
theorem head?_yields_concat (h : List α) (a : α) :
    (yields f (h ++ [a])).head? = (yields f h).head?.or (f h a) := by
  rw [yields_concat, List.head?_append, Option.head?_toList]

/-- What a value that is set once holds: what the first value that was yielded made of it. -/
theorem eq_head?_yields {γ : Type*} (read : List α → Option γ) {g : β → γ}
    (hnil : read [] = none)
    (hconcat : ∀ h a, read (h ++ [a]) = (read h).or ((f h a).map g)) (h : List α) :
    read h = (yields f h).head?.map g := by
  induction h using List.reverseRecOn with
  | nil => exact hnil
  | append_singleton h a ih => rw [hconcat, ih, head?_yields_concat, Option.map_or]

end Yields

section Machine

open EventMachine

variable {σ : Type*} {step : σ → α → Option σ} {s t : σ} {as : List α}

/-- The events of a run, each with the state that it meets. -/
def trace (step : σ → α → Option σ) : σ → List α → List (σ × α)
  | _, [] => []
  | s, a :: as =>
    match step s a with
    | some t => (s, a) :: trace step t as
    | none => [(s, a)]

theorem trace_concat (h : run step s as = some t) :
    trace step s (as ++ [a]) = trace step s as ++ [(t, a)] := by
  induction as generalizing s with
  | nil =>
    obtain rfl : s = t := by simpa using h
    rw [List.nil_append, trace, trace, List.nil_append]
    cases step s a <;> rfl
  | cons b as ih =>
    obtain ⟨u, hu, hlast⟩ := (run_cons_eq_some _).mp h
    rw [List.cons_append, trace, trace, hu]
    exact congrArg ((s, b) :: ·) (ih hlast)

/-- One more step of a run: the event is asked in the state that it meets. -/
theorem since_trace_concat {p q : σ × α → Prop} (h : run step s as = some t) :
    Since p (fun _ => q) (trace step s (as ++ [a])) ↔
      q (t, a) ∨ p (t, a) ∧ Since p (fun _ => q) (trace step s as) := by
  rw [trace_concat h, since_concat]

/-- A property of the states that a step sets, or keeps, has been set by an event since which every
event has kept it. -/
theorem run_iff_since {R : σ → Prop} {p : α → Prop} {q : List α → α → Prop} (hs : ¬ R s)
    (hstep : ∀ before a u v, run step s before = some u → step u a = some v →
      (R v ↔ q before a ∨ p a ∧ R u))
    (h : run step s as = some t) : R t ↔ Since p q as := by
  induction as using List.reverseRecOn generalizing t with
  | nil =>
    obtain rfl : s = t := by simpa using h
    exact iff_of_false hs not_since_nil
  | append_singleton as a ih =>
    obtain ⟨u, hu, hlast⟩ := run_concat_eq_some.mp h
    rw [hstep as a u t hu hlast, ih hu, since_concat]

/-- What is asked of the steps of a run can be asked of its history, also of the last step, which
need not have a result. -/
theorem steps_iff_always {G : σ → α → Prop} {r : List α → α → Prop}
    (hGr : ∀ before b u, run step s before = some u → (G u b ↔ r before b))
    (h : run step s as = some t) :
    Steps step G s (as ++ [a]) ↔ Always r (as ++ [a]) := by
  rw [steps_iff_forall_split]
  constructor
  · intro hG before b after heq
    -- what comes before an event of the history is a part of the run
    obtain ⟨u, hu⟩ : ∃ u, run step s before = some u := by
      rcases eq_or_eq_of_concat_eq heq with ⟨rfl, -⟩ | ⟨rest, -, rfl⟩
      · exact ⟨t, h⟩
      · obtain ⟨u, hu, -⟩ := run_append_eq_some.mp h
        exact ⟨u, hu⟩
    exact (hGr before b u hu).mp (hG before b after u heq hu)
  · intro hr before b after u heq hu
    exact (hGr before b u hu).mpr (hr before b after heq)

end Machine

end PastTime
