import Mathlib.Data.List.Basic
import Mathlib.Tactic.Common

/-! A list cut at its first element with a property: what a search that hands out a position
finds, and what a change at that position leaves as it was. -/
namespace FirstMatch

variable {α β : Type*} {p q : α → Bool} {l pre post : List α} {x : α}

/-- What stands before the first element with `p`, that element, and what stands after it. -/
def split? (p : α → Bool) : List α → Option (List α × α × List α)
  | [] => none
  | a :: l => if p a then some ([], a, l) else (split? p l).map fun s => (a :: s.1, s.2)

theorem split?_append (h : ∀ a ∈ pre, p a = false) (l : List α) :
    split? p (pre ++ l) = (split? p l).map fun s => (pre ++ s.1, s.2) := by
  induction pre with
  | nil =>
    rw [List.nil_append]
    cases split? p l <;> rfl
  | cons a pre ih =>
    have ha : ¬ p a = true := Bool.eq_false_iff.mp (h a List.mem_cons_self)
    rw [List.cons_append, split?, if_neg ha, ih fun b hb => h b (List.mem_cons_of_mem a hb),
      Option.map_map]
    rfl

theorem split?_append_cons (h : ∀ a ∈ pre, p a = false) (hx : p x = true) (post : List α) :
    split? p (pre ++ x :: post) = some (pre, x, post) := by
  rw [split?_append h, split?, if_pos hx, Option.map_some, List.append_nil]

theorem split?_eq_some_iff :
    split? p l = some (pre, x, post) ↔
      l = pre ++ x :: post ∧ p x = true ∧ ∀ a ∈ pre, p a = false := by
  constructor
  · intro h
    induction l generalizing pre with
    | nil => cases h
    | cons a l ih =>
      rw [split?] at h
      by_cases ha : p a = true
      · rw [if_pos ha] at h
        cases h
        exact ⟨rfl, ha, fun b hb => absurd hb List.not_mem_nil⟩
      · rw [if_neg ha] at h
        obtain ⟨⟨pre', s⟩, hs, heq⟩ := Option.map_eq_some_iff.mp h
        cases heq
        obtain ⟨rfl, hx, hpre⟩ := ih hs
        refine ⟨rfl, hx, fun b hb => ?_⟩
        rcases List.mem_cons.mp hb with rfl | hb
        · exact Bool.eq_false_iff.mpr ha
        · exact hpre b hb
  · rintro ⟨rfl, hx, hpre⟩
    exact split?_append_cons hpre hx post

theorem split?_eq_none_iff : split? p l = none ↔ ∀ a ∈ l, p a = false := by
  constructor
  · intro h
    induction l with
    | nil => exact fun a ha => absurd ha List.not_mem_nil
    | cons b l ih =>
      rw [split?] at h
      by_cases hb : p b = true
      · rw [if_pos hb] at h
        cases h
      · rw [if_neg hb, Option.map_eq_none_iff] at h
        exact List.forall_mem_cons.mpr ⟨Bool.eq_false_iff.mpr hb, ih h⟩
  · intro h
    have happend := split?_append h []
    rwa [List.append_nil, split?, Option.map_none] at happend

theorem split?_map (f : β → α) (l : List β) :
    split? p (l.map f) =
      (split? (p ∘ f) l).map fun s => (s.1.map f, f s.2.1, s.2.2.map f) := by
  induction l with
  | nil => rfl
  | cons b l ih =>
    rw [List.map_cons, split?, split?, ih]
    by_cases hb : p (f b) = true
    · rw [if_pos hb, if_pos (show (p ∘ f) b = true from hb)]
      rfl
    · rw [if_neg hb, if_neg (show ¬ (p ∘ f) b = true from hb), Option.map_map, Option.map_map]
      rfl

/-- After the first match is taken out, there is no other exactly when it was the only one. -/
theorem split?_remove_eq_none_iff (h : split? p l = some (pre, x, post)) :
    split? p (pre ++ post) = none ↔ l.countP p = 1 := by
  obtain ⟨rfl, hx, hpre⟩ := split?_eq_some_iff.mp h
  have hzero : pre.countP p = 0 := List.countP_eq_zero.mpr fun a ha => by simp [hpre a ha]
  have hcount : (pre ++ x :: post).countP p = post.countP p + 1 := by
    rw [List.countP_append, hzero, List.countP_cons_of_pos hx, Nat.zero_add]
  rw [split?_append hpre, Option.map_eq_none_iff, split?_eq_none_iff, hcount]
  have hpost : (∀ a ∈ post, p a = false) ↔ post.countP p = 0 := by
    simp only [List.countP_eq_zero, Bool.not_eq_true]
  rw [hpost]
  omega

end FirstMatch
