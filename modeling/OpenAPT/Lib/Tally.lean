import Mathlib.Data.List.Induction
import Mathlib.Logic.Function.Iterate
import OpenAPT.Lib.SortedKeys

/-! Counting into an ordered map, and the loop that keeps the first entry with the largest value.
`zero` and `succ` are those of the counters, which need not be natural numbers. -/
namespace KeyedList

variable {K V : Type*} [DecidableEq K] [LT K] [DecidableLT K]

/-- `++m[k]`, where a key that is not there starts from `zero`. -/
def increment (zero : V) (succ : V → V) (m : List (K × V)) (k : K) : List (K × V) :=
  insert k (succ ((find? k m).getD zero)) m

def tally (zero : V) (succ : V → V) (ks : List K) : List (K × V) :=
  ks.foldl (increment zero succ) []

variable {zero : V} {succ : V → V} {ks : List K}

theorem tally_concat (zero : V) (succ : V → V) (ks : List K) (k : K) :
    tally zero succ (ks ++ [k]) = increment zero succ (tally zero succ ks) k := by
  rw [tally, List.foldl_append, List.foldl_cons, List.foldl_nil]
  rfl

/-- There is a counter for every key that occurs, and it was raised as often as the key occurs. -/
theorem find?_tally [BEq K] [LawfulBEq K] (zero : V) (succ : V → V) (ks : List K) (k : K) :
    find? k (tally zero succ ks) = if k ∈ ks then some (succ^[ks.count k] zero) else none := by
  induction ks using List.reverseRecOn with
  | nil => rfl
  | append_singleton ks j ih =>
    have hmem : k ∈ ks ++ [j] ↔ k ∈ ks ∨ k = j := by
      rw [List.mem_append, List.mem_singleton]
    rw [tally_concat, increment, find?_insert, List.count_append]
    by_cases hkj : k = j
    · subst hkj
      have hcounter : (find? k (tally zero succ ks)).getD zero = succ^[ks.count k] zero := by
        rw [ih]
        split_ifs with hks
        · rfl
        · rw [List.count_eq_zero_of_not_mem hks]
          rfl
      rw [if_pos rfl, if_pos (hmem.mpr (Or.inr rfl)), hcounter, List.count_singleton_self,
        Function.iterate_succ_apply']
    · have hother : List.count k [j] = 0 :=
        List.count_eq_zero_of_not_mem (mt List.mem_singleton.mp hkj)
      rw [if_neg hkj, ih, hother, Nat.add_zero]
      simp only [hmem, hkj, or_false]

theorem sorted_tally (h : StrictTotal K) (zero : V) (succ : V → V) (ks : List K) :
    Sorted (tally zero succ ks) := by
  induction ks using List.reverseRecOn with
  | nil => exact sorted_nil
  | append_singleton ks k ih =>
    rw [tally_concat]
    exact ih.insert h k _

theorem mem_tally_iff [BEq K] [LawfulBEq K] (h : StrictTotal K) {k : K} {v : V} :
    (k, v) ∈ tally zero succ ks ↔ k ∈ ks ∧ v = succ^[ks.count k] zero := by
  have hfind := find?_tally zero succ ks k
  constructor
  · intro hmem
    have hvalue : v ∈ (find? k (tally zero succ ks)).toList := by
      rw [← (sorted_tally h zero succ ks).values h]
      exact mem_values_of_mem hmem
    rw [hfind] at hvalue
    split_ifs at hvalue with hk
    · exact ⟨hk, List.mem_singleton.mp hvalue⟩
    · exact absurd hvalue List.not_mem_nil
  · rintro ⟨hk, rfl⟩
    rw [if_pos hk] at hfind
    exact mem_of_find? hfind

/-! ### The first entry with the largest value -/

section FirstMax

variable {K V : Type*} [LT V] [DecidableLT V]

/-- The loop that replaces the best entry by every entry with a larger value. -/
def firstMax (best : K × V) (m : List (K × V)) : K × V :=
  m.foldl (fun best e => if best.2 < e.2 then e else best) best

variable [LE V] [Std.IsLinearOrder V] [Std.LawfulOrderLT V]

/-- All values before the result are smaller, and no value after it is larger. -/
theorem firstMax_split (best : K × V) (m : List (K × V)) :
    ∃ pre post, best :: m = pre ++ firstMax best m :: post ∧
      (∀ e ∈ pre, e.2 < (firstMax best m).2) ∧ ∀ e ∈ post, e.2 ≤ (firstMax best m).2 := by
  induction m using List.reverseRecOn with
  | nil => exact ⟨[], [], rfl, fun _ he => absurd he List.not_mem_nil,
      fun _ he => absurd he List.not_mem_nil⟩
  | append_singleton m e ih =>
    obtain ⟨pre, post, hsplit, hpre, hpost⟩ := ih
    have hconcat : firstMax best (m ++ [e]) =
        if (firstMax best m).2 < e.2 then e else firstMax best m := by
      rw [firstMax, List.foldl_append, List.foldl_cons, List.foldl_nil]
      rfl
    rw [hconcat, ← List.cons_append, hsplit]
    split_ifs with hlt
    · refine ⟨pre ++ firstMax best m :: post, [], rfl, ?_, fun _ he => absurd he List.not_mem_nil⟩
      intro a ha
      rcases List.mem_append.mp ha with ha | ha
      · exact Std.lt_trans (hpre a ha) hlt
      · rcases List.mem_cons.mp ha with rfl | ha
        · exact hlt
        · exact Std.lt_of_le_of_lt (hpost a ha) hlt
    · refine ⟨pre, post ++ [e], by rw [List.append_assoc, List.cons_append], hpre, ?_⟩
      intro a ha
      rcases List.mem_append.mp ha with ha | ha
      · exact hpost a ha
      · rw [List.mem_singleton.mp ha]
        exact Std.not_lt.mp hlt

/-- An entry with the largest value, and of those the one with the smallest key. -/
structure IsFirstMax [LT K] (m : List (K × V)) (r : K × V) : Prop where
  mem : r ∈ m
  le : ∀ e ∈ m, e.2 ≤ r.2
  first : ∀ e ∈ m, e.2 = r.2 → e = r ∨ r.1 < e.1

/-- The loop finds that entry in a sorted list, if some value is larger than the one it starts
from. -/
theorem Sorted.isFirstMax_firstMax [LT K] {m : List (K × V)} (hm : Sorted m) {best : K × V}
    (hbest : ∃ e ∈ m, best.2 < e.2) : IsFirstMax m (firstMax best m) := by
  obtain ⟨pre, post, hsplit, hpre, hpost⟩ := firstMax_split best m
  generalize firstMax best m = r at hsplit hpre hpost ⊢
  cases pre with
  | nil =>
    obtain ⟨rfl, rfl⟩ := List.cons.inj hsplit
    obtain ⟨e, he, hlt⟩ := hbest
    exact absurd (hpost e he) (Std.not_le.mpr hlt)
  | cons first pre =>
    obtain rfl : m = pre ++ r :: post := (List.cons.inj hsplit).2
    have hpre' (e : K × V) (he : e ∈ pre) : e.2 < r.2 := hpre e (List.mem_cons_of_mem first he)
    rw [Sorted, List.map_append, List.map_cons, List.pairwise_append, List.pairwise_cons] at hm
    have hafter (e : K × V) (he : e ∈ post) : r.1 < e.1 := hm.2.1.1 e.1 (List.mem_map_of_mem he)
    refine ⟨List.mem_append_right pre List.mem_cons_self, fun e he => ?_, fun e he heq => ?_⟩
    · rcases List.mem_append.mp he with he | he
      · exact Std.le_of_lt (hpre' e he)
      · rcases List.mem_cons.mp he with rfl | he
        · exact Std.le_refl _
        · exact hpost e he
    · rcases List.mem_append.mp he with he | he
      · exact absurd (heq ▸ hpre' e he) Std.lt_irrefl
      · rcases List.mem_cons.mp he with rfl | he
        · exact Or.inl rfl
        · exact Or.inr (hafter e he)

end FirstMax

end KeyedList
