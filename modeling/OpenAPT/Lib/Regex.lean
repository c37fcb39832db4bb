import Mathlib.Data.List.Basic
import Mathlib.Data.List.Infix
import Mathlib.Logic.Relation
import Mathlib.Tactic.Common

/-! Regular expressions with classes of characters and the two assertions of a text's ends, which
Mathlib's do not have. What an expression can take off the front of a text is a relation between
what there is before and what is left after; a matcher computes it. -/

inductive Regex (α : Type*)
  | eps
  | cls (p : α → Bool)
  | atBegin
  | atEnd
  | seq (a b : Regex α)
  | alt (a b : Regex α)
  | star (a : Regex α)

namespace Regex

variable {α : Type*}

/-- `a` can take what stands before `t` off `s`, in a text of `n` characters of which `s` is the
end. -/
def Runs (n : ℕ) : Regex α → List α → List α → Prop
  | eps, s, t => s = t
  | cls p, s, t => ∃ c, p c = true ∧ s = c :: t
  | atBegin, s, t => s = t ∧ s.length = n
  | atEnd, s, t => s = t ∧ s = []
  | seq a b, s, t => ∃ u, Runs n a s u ∧ Runs n b u t
  | alt a b, s, t => Runs n a s t ∨ Runs n b s t
  | star a, s, t => Relation.ReflTransGen (Runs n a) s t

/-- `std::regex_match`. -/
def Matches (a : Regex α) (s : List α) : Prop := Runs s.length a s []

/-- `std::regex_search`. -/
def Found (a : Regex α) (s : List α) : Prop := ∃ u t, u <:+ s ∧ Runs s.length a u t

theorem Runs.suffix {n : ℕ} {a : Regex α} {s t : List α} (h : Runs n a s t) : t <:+ s := by
  induction a generalizing s t with
  | eps => exact h ▸ List.suffix_refl s
  | cls p =>
    obtain ⟨c, -, rfl⟩ := h
    exact List.suffix_cons c t
  | atBegin => exact h.1 ▸ List.suffix_refl s
  | atEnd => exact h.1 ▸ List.suffix_refl s
  | seq a b iha ihb =>
    obtain ⟨u, hu, ht⟩ := h
    exact (ihb ht).trans (iha hu)
  | alt a b iha ihb =>
    rcases h with h | h
    · exact iha h
    · exact ihb h
  | star a ih =>
    have hstar : Relation.ReflTransGen (Runs n a) s t := h
    -- the turns of a star are an induction of their own, inside the one on the expression
    induction hstar with
    | refl => exact List.suffix_refl s
    | tail _ hstep ihs => exact (ih hstep).trans (ihs ‹_›)

/-- A star of a class takes any characters of it. -/
theorem runs_star_cls (n : ℕ) (p : α → Bool) (s t : List α) :
    Runs n (star (cls p)) s t ↔ ∃ u, s = u ++ t ∧ ∀ c ∈ u, p c = true := by
  constructor
  · intro h
    have hstar : Relation.ReflTransGen (Runs n (cls p)) s t := h
    induction hstar using Relation.ReflTransGen.head_induction_on with
    | refl => exact ⟨[], rfl, fun c hc => absurd hc List.not_mem_nil⟩
    | head hstep hrest ih =>
      obtain ⟨c, hc, rfl⟩ := hstep
      obtain ⟨u, rfl, hu⟩ := ih hrest
      exact ⟨c :: u, rfl, List.forall_mem_cons.mpr ⟨hc, hu⟩⟩
  · rintro ⟨u, rfl, hu⟩
    induction u with
    | nil => exact Relation.ReflTransGen.refl
    | cons c u ih =>
      obtain ⟨hc, hu⟩ := List.forall_mem_cons.mp hu
      exact Relation.ReflTransGen.head ⟨c, hc, rfl⟩ (ih hu)

/-! ### The matcher -/

/-- What is left after a number of turns, of which each takes something off. -/
def starRuns (f : List α → List (List α)) : ℕ → List α → List (List α)
  | 0, s => [s]
  -- a turn that takes nothing off is not made, so the length bounds the turns
  | k + 1, s => s :: ((f s).filter fun t => t.length < s.length).flatMap (starRuns f k)

def runs (n : ℕ) : Regex α → List α → List (List α)
  | eps, s => [s]
  | cls _, [] => []
  | cls p, c :: t => if p c then [t] else []
  | atBegin, s => if s.length = n then [s] else []
  | atEnd, s => if s.isEmpty then [s] else []
  | seq a b, s => (runs n a s).flatMap (runs n b)
  | alt a b, s => runs n a s ++ runs n b s
  | star a, s => starRuns (runs n a) s.length s

def isMatch (a : Regex α) (s : List α) : Bool := (runs s.length a s).any List.isEmpty

theorem mem_starRuns {n : ℕ} {a : Regex α} (ih : ∀ s t, t ∈ runs n a s ↔ Runs n a s t) {k : ℕ}
    {s t : List α} (hk : s.length ≤ k) :
    t ∈ starRuns (runs n a) k s ↔ Relation.ReflTransGen (Runs n a) s t := by
  constructor
  · intro h
    induction k generalizing s with
    | zero =>
      rw [List.mem_singleton.mp h]
    | succ k ihk =>
      rcases List.mem_cons.mp h with rfl | h
      · exact Relation.ReflTransGen.refl
      · obtain ⟨u, hu, ht⟩ := List.mem_flatMap.mp h
        obtain ⟨hu, hlt⟩ := List.mem_filter.mp hu
        have hlt := of_decide_eq_true hlt
        exact Relation.ReflTransGen.head ((ih s u).mp hu) (ihk (by omega) ht)
  · intro h
    -- a turn that takes nothing off leaves the text as it is
    induction h using Relation.ReflTransGen.head_induction_on generalizing k with
    | refl =>
      cases k with
      | zero => exact List.mem_singleton_self t
      | succ k => exact List.mem_cons_self
    | @head s u hstep _ ihs =>
      have hsuffix := hstep.suffix
      have hle := hsuffix.length_le
      by_cases hlt : u.length < s.length
      · match k, hk with
        | 0, hk => omega
        | k + 1, hk =>
          refine List.mem_cons_of_mem s (List.mem_flatMap.mpr ⟨u, ?_, ihs (by omega)⟩)
          exact List.mem_filter.mpr ⟨(ih s u).mpr hstep, decide_eq_true hlt⟩
      · have heq : u = s := hsuffix.eq_of_length (by omega)
        exact heq ▸ ihs (heq ▸ hk)

theorem mem_runs {n : ℕ} {a : Regex α} {s t : List α} : t ∈ runs n a s ↔ Runs n a s t := by
  induction a generalizing s t with
  | eps => rw [runs, List.mem_singleton, Runs, eq_comm]
  | cls p =>
    rw [Runs]
    cases s with
    | nil => simp [runs]
    | cons c s =>
      rw [runs]
      split_ifs with hp
      · rw [List.mem_singleton]
        constructor
        · rintro rfl
          exact ⟨c, hp, rfl⟩
        · rintro ⟨d, -, hd⟩
          exact (List.cons_eq_cons.mp hd).2.symm
      · constructor
        · intro h
          cases h
        · rintro ⟨d, hd, hcons⟩
          rw [(List.cons_eq_cons.mp hcons).1] at hp
          exact absurd hd hp
  | atBegin =>
    rw [runs, Runs]
    split_ifs with hn
    · rw [List.mem_singleton, eq_comm]
      exact ⟨fun h => ⟨h, hn⟩, And.left⟩
    · constructor
      · intro h
        cases h
      · intro h
        exact absurd h.2 hn
  | atEnd =>
    rw [runs, Runs]
    split_ifs with hs
    · rw [List.mem_singleton, eq_comm]
      exact ⟨fun h => ⟨h, List.isEmpty_iff.mp hs⟩, And.left⟩
    · constructor
      · intro h
        cases h
      · intro h
        exact absurd (List.isEmpty_iff.mpr h.2) hs
  | seq a b iha ihb =>
    rw [runs, Runs, List.mem_flatMap]
    constructor
    · rintro ⟨u, hu, ht⟩
      exact ⟨u, iha.mp hu, ihb.mp ht⟩
    · rintro ⟨u, hu, ht⟩
      exact ⟨u, iha.mpr hu, ihb.mpr ht⟩
  | alt a b iha ihb => rw [runs, Runs, List.mem_append, iha, ihb]
  | star a ih =>
    rw [runs, Runs]
    exact mem_starRuns (fun s t => ih) (Nat.le_refl _)

/-- The matcher decides whether an expression matches. -/
theorem isMatch_iff (a : Regex α) (s : List α) : isMatch a s = true ↔ Matches a s := by
  rw [isMatch, List.any_eq_true, Matches]
  constructor
  · rintro ⟨t, ht, hnil⟩
    rw [List.isEmpty_iff.mp hnil] at ht
    exact mem_runs.mp ht
  · intro h
    exact ⟨[], mem_runs.mpr h, rfl⟩

/-- Whether something can be taken off at some place. -/
def search (a : Regex α) (s : List α) : Bool := s.tails.any fun u => !(runs s.length a u).isEmpty

theorem search_iff (a : Regex α) (s : List α) : search a s = true ↔ Found a s := by
  simp only [search, List.any_eq_true, List.mem_tails, Bool.not_eq_true', List.isEmpty_eq_false_iff,
    List.ne_nil_iff_exists_cons, Found]
  constructor
  · intro ⟨u, hu, t, rest, hruns⟩
    have ht : t ∈ runs s.length a u := by
      rw [hruns]
      exact List.mem_cons_self
    exact ⟨u, t, hu, mem_runs.mp ht⟩
  · intro ⟨u, t, hu, hruns⟩
    obtain ⟨t', rest, hlist⟩ :=
      List.ne_nil_iff_exists_cons.mp (List.ne_nil_of_mem (mem_runs.mpr hruns))
    exact ⟨u, hu, t', rest, hlist⟩

end Regex
