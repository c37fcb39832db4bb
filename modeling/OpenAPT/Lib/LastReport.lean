import OpenAPT.Lib.EventMachine

/-! Documents whose fields are reported by events. An event gives some fields a value; it may fail
to record what it gives, and it may erase fields it does not give. The document holds the latest
report of every field exactly when the latest reports are recorded and not erased afterwards. -/
namespace LastReport

open EventMachine

variable {σ α Q V : Type*}

/-- The last event that gives the field `q` a value is `e`, the value is `v`, and the events after
it are `after`. -/
def Latest (gives : α → Q → Option V) (events : List α) (e : α) (after : List α) (q : Q) (v : V) :
    Prop :=
  (∃ before, events = before ++ e :: after) ∧ gives e q = some v ∧ ∀ a ∈ after, gives a q = none

/-- Every field reads as its latest report says. -/
def Lossless (gives : α → Q → Option V) (events : List α) (read : Q → Option V) : Prop :=
  ∀ e after q v, Latest gives events e after q v → read q = some v

/-- The latest report of a field is recorded, and no later event erases the field. -/
def Kept (gives : α → Q → Option V) (silent : α → Prop) (erases : α → Q → Prop)
    (events : List α) : Prop :=
  ∀ e after q v, Latest gives events e after q v → ¬ silent e ∧ ∀ a ∈ after, ¬ erases a q

/-- `b` does not erase what `a` records. -/
def Apart (gives : α → Q → Option V) (silent : α → Prop) (erases : α → Q → Prop) (a b : α) : Prop :=
  ∀ q v, gives a q = some v → ¬ silent a → ¬ erases b q

/-- What one step does to the fields, in the states of an invariant. -/
structure Law (step : σ → α → Option σ) (read : σ → Q → Option V) (gives : α → Q → Option V)
    (silent : α → Prop) (erases : α → Q → Prop) (I : σ → Prop) : Prop where
  inv : ∀ {s t : σ} {a : α}, I s → step s a = some t → I t
  recorded : ∀ {s t : σ} {a : α} {q : Q} {v : V}, I s → step s a = some t →
    gives a q = some v → ¬ silent a → read t q = some v
  missed : ∀ {s t : σ} {a : α} {q : Q} {v : V}, I s → step s a = some t →
    gives a q = some v → silent a → read t q = read s q ∧ read s q ≠ some v
  kept : ∀ {s t : σ} {a : α} {q : Q}, I s → step s a = some t →
    gives a q = none → ¬ erases a q → read t q = read s q
  erased : ∀ {s t : σ} {a : α} {q : Q}, I s → step s a = some t →
    gives a q = none → erases a q → read t q = none

namespace Law

variable {step : σ → α → Option σ} {read : σ → Q → Option V} {gives : α → Q → Option V}
  {silent : α → Prop} {erases : α → Q → Prop} {I : σ → Prop} {s t : σ} {events : List α}
  {q : Q} {v : V}

theorem run_inv (law : Law step read gives silent erases I) (hs : I s)
    (h : run step s events = some t) : I t :=
  run_invariant_of_steps (G := fun _ _ => True) (fun _ _ _ hu _ => law.inv hu) hs
    (steps_of_forall (fun _ _ => trivial) _ _) h

/-- Events that do not report a field leave it alone, or it is gone. -/
theorem run_unreported (law : Law step read gives silent erases I) (hs : I s)
    (h : run step s events = some t) (hgives : ∀ a ∈ events, gives a q = none) :
    ((∀ a ∈ events, ¬ erases a q) ∧ read t q = read s q) ∨
      ((∃ a ∈ events, erases a q) ∧ read t q = none) := by
  induction events generalizing s with
  | nil =>
    obtain rfl : s = t := by simpa using h
    exact Or.inl ⟨fun a ha => absurd ha List.not_mem_nil, rfl⟩
  | cons a events ih =>
    obtain ⟨u, hu, hrest⟩ := (run_cons_eq_some step).mp h
    have ha : gives a q = none := hgives a List.mem_cons_self
    have hafter := ih (law.inv hs hu) hrest fun b hb => hgives b (List.mem_cons_of_mem a hb)
    by_cases herases : erases a q
    · have hgone : read u q = none := law.erased hs hu ha herases
      refine Or.inr ⟨⟨a, List.mem_cons_self, herases⟩, ?_⟩
      -- what is gone does not come back without a report
      rcases hafter with ⟨-, hsame⟩ | ⟨-, hnone⟩
      · exact hsame.trans hgone
      · exact hnone
    · have hsame : read u q = read s q := law.kept hs hu ha herases
      rcases hafter with ⟨hkept, hread⟩ | ⟨⟨b, hb, herased⟩, hnone⟩
      · refine Or.inl ⟨fun b hb => ?_, hread.trans hsame⟩
        rcases List.mem_cons.mp hb with rfl | hb
        · exact herases
        · exact hkept b hb
      · exact Or.inr ⟨⟨b, List.mem_cons_of_mem a hb, herased⟩, hnone⟩

/-- One field holds its latest report exactly when that was recorded and not erased. -/
theorem latest_iff (law : Law step read gives silent erases I) (hs : I s)
    (h : run step s events = some t) {e : α} {after : List α}
    (hlatest : Latest gives events e after q v) :
    read t q = some v ↔ ¬ silent e ∧ ∀ a ∈ after, ¬ erases a q := by
  obtain ⟨⟨before, rfl⟩, hgives, hafter⟩ := hlatest
  obtain ⟨s₁, hbefore, hrest⟩ := run_append_eq_some.mp h
  obtain ⟨s₂, he, hrun⟩ := (run_cons_eq_some step).mp hrest
  have hs₁ : I s₁ := law.run_inv hs hbefore
  have hs₂ : I s₂ := law.inv hs₁ he
  rcases law.run_unreported hs₂ hrun hafter with ⟨hkept, hread⟩ | ⟨⟨a, ha, herases⟩, hnone⟩
  · rw [hread]
    constructor
    · intro hv
      refine ⟨fun hsilent => ?_, hkept⟩
      obtain ⟨hsame, hne⟩ := law.missed hs₁ he hgives hsilent
      exact hne (hsame.symm.trans hv)
    · intro ⟨hsilent, _⟩
      exact law.recorded hs₁ he hgives hsilent
  · rw [hnone]
    exact iff_of_false nofun fun hkept => hkept.2 a ha herases

theorem lossless_iff (law : Law step read gives silent erases I) (hs : I s)
    (h : run step s events = some t) :
    Lossless gives events (read t) ↔ Kept gives silent erases events := by
  constructor
  · intro hlossless e after q v hlatest
    exact (law.latest_iff hs h hlatest).mp (hlossless e after q v hlatest)
  · intro hkept e after q v hlatest
    exact (law.latest_iff hs h hlatest).mpr (hkept e after q v hlatest)

open Classical in
/-- What one step leaves of a field that it does not report. -/
theorem read_unreported (law : Law step read gives silent erases I) (hs : I s) {a : α}
    (ha : step s a = some t) (hgives : gives a q = none) :
    read t q = if erases a q then none else read s q := by
  split_ifs with herases
  · exact law.erased hs ha hgives herases
  · exact law.kept hs ha hgives herases

open Classical in
/-- Two events in either order, for a field that the second one does not report. -/
theorem commute_at (law : Law step read gives silent erases I) (hs : I s) {a b : α} {t₁ t₂ : σ}
    (hab : run step s [a, b] = some t₁) (hba : run step s [b, a] = some t₂)
    (hb : gives b q = none) :
    read t₁ q = read t₂ q ↔ ∀ v, gives a q = some v → ¬ silent a → ¬ erases b q := by
  obtain ⟨s₁, ha, hrest⟩ := (run_cons_eq_some step).mp hab
  obtain ⟨t, hb₁, ht⟩ := (run_cons_eq_some step).mp hrest
  obtain rfl : t = t₁ := by simpa using ht
  obtain ⟨s₂, hb₂, hrest⟩ := (run_cons_eq_some step).mp hba
  obtain ⟨t', ha₂, ht'⟩ := (run_cons_eq_some step).mp hrest
  obtain rfl : t' = t₂ := by simpa using ht'
  have hs₁ : I s₁ := law.inv hs ha
  have hs₂ : I s₂ := law.inv hs hb₂
  rw [law.read_unreported hs₁ hb₁ hb]
  have hread : read s₂ q = if erases b q then none else read s q := law.read_unreported hs hb₂ hb
  cases hgives : gives a q with
  | some v =>
    by_cases hsilent : silent a
    · -- neither order records anything
      rw [(law.missed hs ha hgives hsilent).1, (law.missed hs₂ ha₂ hgives hsilent).1, hread]
      exact iff_of_true rfl fun _ _ hrecorded => absurd hsilent hrecorded
    · rw [law.recorded hs ha hgives hsilent, law.recorded hs₂ ha₂ hgives hsilent]
      split_ifs with herases
      · exact iff_of_false nofun fun hall => hall v rfl hsilent herases
      · exact iff_of_true rfl fun _ _ _ => herases
  | none =>
    rw [law.read_unreported hs ha hgives, law.read_unreported hs₂ ha₂ hgives, hread]
    refine iff_of_true ?_ nofun
    split_ifs
    all_goals rfl

/-- Two events that report different fields commute exactly when neither erases what the other
records. -/
theorem commute_iff (law : Law step read gives silent erases I) (hs : I s) {a b : α} {t₁ t₂ : σ}
    (hab : run step s [a, b] = some t₁) (hba : run step s [b, a] = some t₂)
    (hdisjoint : ∀ q, gives a q = none ∨ gives b q = none) :
    read t₁ = read t₂ ↔ Apart gives silent erases a b ∧ Apart gives silent erases b a := by
  constructor
  · intro hread
    constructor
    · intro q v hgives
      have hb : gives b q = none := (hdisjoint q).resolve_left (by simp [hgives])
      exact (law.commute_at hs hab hba hb).mp (congrFun hread q) v hgives
    · intro q v hgives
      have ha : gives a q = none := (hdisjoint q).resolve_right (by simp [hgives])
      exact (law.commute_at hs hba hab ha).mp (congrFun hread q).symm v hgives
  · intro ⟨hapart, hapart'⟩
    funext q
    rcases hdisjoint q with ha | hb
    · exact ((law.commute_at hs hba hab ha).mpr (hapart' q)).symm
    · exact (law.commute_at hs hab hba hb).mpr (hapart q)

end Law

end LastReport
