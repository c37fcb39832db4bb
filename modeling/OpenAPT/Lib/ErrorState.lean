import Mathlib.Logic.Basic

/-! Programs with a state that may throw, run on a state. A bind goes on where its first part
returned, and is over where that threw. -/
namespace ErrorState

universe u

variable {ε σ α β : Type u} {x : EStateM ε σ α} {f : α → EStateM ε σ β} {s t : σ} {a : α}
  {e : ε}

theorem bind_of_ok (hx : x s = .ok a t) : (x >>= f) s = f a t := by
  change (x >>= f).run s = (f a).run t
  rw [EStateM.run_bind, EStateM.run, hx]

theorem bind_of_error (hx : x s = .error e t) : (x >>= f) s = .error e t := by
  change (x >>= f).run s = .error e t
  rw [EStateM.run_bind, EStateM.run, hx]

theorem get_bind (g : σ → EStateM ε σ β) (s : σ) : (get >>= g) s = g s s := rfl

theorem modify_bind (g : σ → σ) (f : PUnit → EStateM ε σ β) (s : σ) :
    (modify g >>= f) s = f ⟨⟩ (g s) := rfl

theorem ofExcept_bind_of_ok {r : Except ε α} (hr : r = .ok a) :
    ((MonadExcept.ofExcept r : EStateM ε σ α) >>= f) s = f a s := by
  rw [hr]
  exact bind_of_ok rfl

theorem ofExcept_bind_of_error {r : Except ε α} (hr : r = .error e) :
    ((MonadExcept.ofExcept r : EStateM ε σ α) >>= f) s = .error e s := by
  rw [hr]
  exact bind_of_error rfl

/-! ### What a run returns -/

variable {post : σ → Prop}

/-- A run that returned is the only one. -/
theorem exists_ok_iff (hx : x s = .ok a t) : (∃ u, x s = .ok a u ∧ post u) ↔ post t := by
  constructor
  · rintro ⟨u, hu, hpost⟩
    rw [hx] at hu
    obtain rfl : t = u := (EStateM.Result.ok.inj hu).2
    exact hpost
  · intro hpost
    exact ⟨t, hx, hpost⟩

theorem not_exists_ok (hx : x s = .error e t) : ¬ ∃ u, x s = .ok a u ∧ post u := by
  rintro ⟨u, hu, -⟩
  rw [hx] at hu
  cases hu

end ErrorState
