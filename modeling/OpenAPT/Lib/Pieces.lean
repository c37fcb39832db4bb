import Mathlib.Data.List.Basic
import Mathlib.Tactic.Common

/-! Lists written piece by piece, one piece for each element of another list. -/
namespace Pieces

variable {α β : Type*} {f g : α → List β}

theorem length_flatMap_le (h : ∀ a, (g a).length ≤ (f a).length) (l : List α) :
    (l.flatMap g).length ≤ (l.flatMap f).length := by
  induction l with
  | nil => exact Nat.le_refl 0
  | cons a l ih =>
    rw [List.flatMap_cons, List.flatMap_cons, List.length_append, List.length_append]
    exact Nat.add_le_add (h a) ih

/-- Where the pieces of `f` are those of `g` or longer, equal lengths mean equal lists: nothing
makes up for a piece that is too long. -/
theorem forall_eq_of_length_eq (h : ∀ a, f a = g a ∨ (g a).length < (f a).length) {l : List α}
    (hlength : (l.flatMap f).length = (l.flatMap g).length) : ∀ a ∈ l, f a = g a := by
  have hle (a : α) : (g a).length ≤ (f a).length := by
    rcases h a with heq | hlt
    · exact Nat.le_of_eq (congrArg List.length heq.symm)
    · exact Nat.le_of_lt hlt
  induction l with
  | nil => exact fun _ ha => absurd ha List.not_mem_nil
  | cons a l ih =>
    rw [List.flatMap_cons, List.flatMap_cons, List.length_append, List.length_append] at hlength
    have hrest := length_flatMap_le hle l
    have hhead := hle a
    rw [List.forall_mem_cons]
    refine ⟨?_, ih (by omega)⟩
    rcases h a with heq | hlt
    · exact heq
    · omega

theorem flatMap_eq_of_length_eq (h : ∀ a, f a = g a ∨ (g a).length < (f a).length) {l : List α}
    (hlength : (l.flatMap f).length = (l.flatMap g).length) : l.flatMap f = l.flatMap g :=
  List.flatMap_congr (forall_eq_of_length_eq h hlength)

theorem flatMap_eq_flatMap_iff (h : ∀ a, f a = g a ∨ (g a).length < (f a).length) (l : List α) :
    l.flatMap f = l.flatMap g ↔ ∀ a ∈ l, f a = g a :=
  ⟨fun heq => forall_eq_of_length_eq h (congrArg List.length heq), List.flatMap_congr⟩

theorem length_flatMap_of_forall {n : ℕ} (hlength : ∀ a, (f a).length = n) (l : List α) :
    (l.flatMap f).length = l.length * n := by
  induction l with
  | nil => exact (Nat.zero_mul n).symm
  | cons a l ih =>
    rw [List.flatMap_cons, List.length_append, hlength, ih, List.length_cons, Nat.succ_mul,
      Nat.add_comm]

/-- Different pieces of one length can be read back. -/
theorem flatMap_injective (hf : Function.Injective f) {n : ℕ} (hlength : ∀ a, (f a).length = n)
    (hn : 0 < n) : Function.Injective fun l : List α => l.flatMap f := by
  intro l
  induction l with
  | nil =>
    intro m h
    cases m with
    | nil => rfl
    | cons b m =>
      have hzero := congrArg List.length h
      simp only [List.flatMap_nil, List.flatMap_cons, List.length_nil, List.length_append,
        hlength] at hzero
      omega
  | cons a l ih =>
    intro m h
    cases m with
    | nil =>
      have hzero := congrArg List.length h
      simp only [List.flatMap_nil, List.flatMap_cons, List.length_nil, List.length_append,
        hlength] at hzero
      omega
    | cons b m =>
      simp only [List.flatMap_cons] at h
      obtain ⟨hhead, htail⟩ := List.append_inj h ((hlength a).trans (hlength b).symm)
      rw [hf hhead, ih htail]

end Pieces
