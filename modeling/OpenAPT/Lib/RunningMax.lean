import Mathlib.Order.Lattice
import Mathlib.Order.Nat
import Mathlib.Tactic.Common

/-! A pass that keeps the largest value seen so far, and the first and the last place at which it
was seen. It starts at zero, so only a positive maximum has such places. -/
namespace RunningMax

variable {K : Type*} [LinearOrder K] [Zero K] {v : ℕ → K} {n : ℕ} {max : K} {first last : ℕ}

/-- What was kept after the values before `n`. -/
structure Record (v : ℕ → K) (n : ℕ) (max : K) (first last : ℕ) : Prop where
  nonneg : 0 ≤ max
  le : ∀ j < n, v j ≤ max
  last_lt : 0 < max → last < n
  first_eq : 0 < max → v first = max
  last_eq : 0 < max → v last = max
  between : 0 < max → ∀ j < n, v j = max → first ≤ j ∧ j ≤ last

theorem record_zero (v : ℕ → K) (first last : ℕ) : Record v 0 0 first last where
  nonneg := le_rfl
  le j hj := absurd hj (Nat.not_lt_zero j)
  last_lt hpos := absurd hpos (lt_irrefl 0)
  first_eq hpos := absurd hpos (lt_irrefl 0)
  last_eq hpos := absurd hpos (lt_irrefl 0)
  between hpos := absurd hpos (lt_irrefl 0)

/-- Values that are not positive can be passed over. -/
theorem Record.pass (h : Record v n max first last) {m : ℕ} (hnm : n ≤ m)
    (hv : ∀ j, n ≤ j → j < m → v j ≤ 0) : Record v m max first last where
  nonneg := h.nonneg
  le j hj := by
    rcases Nat.lt_or_ge j n with hlt | hge
    · exact h.le j hlt
    · exact (hv j hge hj).trans h.nonneg
  last_lt hpos := (h.last_lt hpos).trans_le hnm
  first_eq := h.first_eq
  last_eq := h.last_eq
  between hpos j hj heq := by
    rcases Nat.lt_or_ge j n with hlt | hge
    · exact h.between hpos j hlt heq
    · exact absurd hpos (heq ▸ (hv j hge hj).not_gt)

theorem Record.of_lt (h : Record v n max first last) (hv : v n < max) :
    Record v (n + 1) max first last where
  nonneg := h.nonneg
  le := Nat.forall_lt_succ_right.mpr ⟨h.le, hv.le⟩
  last_lt hpos := (h.last_lt hpos).trans (Nat.lt_succ_self n)
  first_eq := h.first_eq
  last_eq := h.last_eq
  between hpos := by
    exact Nat.forall_lt_succ_right.mpr ⟨h.between hpos, fun heq => absurd heq hv.ne⟩

/-- The maximum is seen again. -/
theorem Record.of_eq (h : Record v n max first last) (hv : v n = max) :
    Record v (n + 1) max first n where
  nonneg := h.nonneg
  le := Nat.forall_lt_succ_right.mpr ⟨h.le, hv.le⟩
  last_lt _ := Nat.lt_succ_self n
  first_eq := h.first_eq
  last_eq _ := hv
  between hpos := by
    have hlast := h.between hpos last (h.last_lt hpos) (h.last_eq hpos)
    refine Nat.forall_lt_succ_right.mpr ⟨?_, ?_⟩
    · exact fun j hj heq => ⟨(h.between hpos j hj heq).1, hj.le⟩
    · exact fun _ => ⟨hlast.1.trans (h.last_lt hpos).le, le_rfl⟩

/-- A new maximum. -/
theorem Record.of_gt (h : Record v n max first last) (hv : max < v n) :
    Record v (n + 1) (v n) n n where
  nonneg := h.nonneg.trans hv.le
  le := Nat.forall_lt_succ_right.mpr ⟨fun j hj => (h.le j hj).trans hv.le, le_rfl⟩
  last_lt _ := Nat.lt_succ_self n
  first_eq _ := rfl
  last_eq _ := rfl
  between _ := by
    refine Nat.forall_lt_succ_right.mpr ⟨?_, ?_⟩
    · exact fun j hj heq => absurd heq ((h.le j hj).trans_lt hv).ne
    · exact fun _ => ⟨le_rfl, le_rfl⟩

end RunningMax
