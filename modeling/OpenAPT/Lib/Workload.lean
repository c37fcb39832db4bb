import Mathlib.Algebra.Order.BigOperators.Group.Finset
import Mathlib.Data.Fintype.BigOperators
import OpenAPT.Lib.Monitor
import OpenAPT.Lib.WorkQueue

/-! What the threads of a monitor have still to do: every place where a thread can stand has a
weight, and the weights are added up. -/
namespace Monitor

variable {T : Type*} {O I : T → Type*} [Fintype T]

def load (f : ∀ t, Phase (O t) (I t) → ℕ) (phase : ∀ t, Phase (O t) (I t)) : ℕ :=
  ∑ t, f t (phase t)

variable {f : ∀ t, Phase (O t) (I t) → ℕ} {d : ℕ}

/-- Waking every blocked thread costs at most what waking one costs, for each thread. -/
theorem load_wake_le (hwake : ∀ t ph, f t ph.wake ≤ f t ph + d)
    (phase : ∀ t, Phase (O t) (I t)) :
    load f (fun t => (phase t).wake) ≤ load f phase + Fintype.card T * d := by
  calc load f (fun t => (phase t).wake)
      ≤ ∑ t, (f t (phase t) + d) := Finset.sum_le_sum fun t _ => hwake t (phase t)
    _ = load f phase + Fintype.card T * d := by
      rw [Finset.sum_add_distrib, Finset.sum_const_nat fun _ _ => rfl, Finset.card_univ, load]

variable [DecidableEq T]

/-- When one thread moves, the load changes by what it leaves and what it comes to. -/
theorem load_update (f : ∀ t, Phase (O t) (I t) → ℕ) (phase : ∀ t, Phase (O t) (I t)) (t : T)
    (ph : Phase (O t) (I t)) :
    load f (Function.update phase t ph) + f t (phase t) = load f phase + f t ph := by
  have hsum : load f (Function.update phase t ph) =
      ∑ u, Function.update (fun u => f u (phase u)) t (f t ph) u :=
    Finset.sum_congr rfl fun u _ => Function.apply_update f phase t ph u
  rw [hsum]
  exact WorkQueue.sum_update_add (fun u => f u (phase u)) t (f t ph)

theorem load_notifyOne_le (hwake : ∀ t ph, f t ph.wake ≤ f t ph + d) {m m' : Monitor T O I}
    {target : Option T} (h : m.notifyOne? target = some m') :
    load f m'.phase ≤ load f m.phase + d := by
  obtain ⟨t, i, -, ht, rfl⟩ | ⟨-, -, rfl⟩ := notifyOne?_eq_some h
  · have hload := load_update f m.phase t (.woken i)
    have hwoken := hwake t (.parked i)
    rw [ht] at hload
    simp only [Phase.wake] at hwoken
    simp only [goto]
    omega
  · exact Nat.le_add_right _ _

end Monitor
