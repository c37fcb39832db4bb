import Mathlib.Data.List.Infix
import Mathlib.Tactic.Common

/-! Trees addressed by paths of keys. A node is only known through `child`, which reads the entry of
a key, and `attach`, which writes it; the laws between the two give the laws of whole paths. -/

/-- Nodes with at most one child per key. `attach` fails on the nodes that can hold no child, and
`fresh` is the node created where a path leads through a missing one. -/
structure KeyedTree (K N : Type*) where
  child : N → K → Option N
  attach : N → K → N → Option N
  fresh : N
  child_attach : ∀ {n n' : N} {k : K} {c : N}, attach n k c = some n' → child n' k = some c
  child_attach_of_ne : ∀ {n n' : N} {j k : K} {c : N},
    attach n k c = some n' → j ≠ k → child n' j = child n j

namespace KeyedTree

variable {K N : Type*} (T : KeyedTree K N)

/-- The node a path leads to. -/
def get : N → List K → Option N
  | n, [] => some n
  | n, k :: ks => (T.child n k).bind fun c => get c ks

/-- Writes `v` at the end of a path, creating the missing nodes on the way. -/
def set (v : N) : N → List K → Option N
  | _, [] => some v
  | n, k :: ks => (set v ((T.child n k).getD T.fresh) ks).bind (T.attach n k)

theorem set_cons_eq_some {v n n' : N} {k : K} {ks : List K} :
    T.set v n (k :: ks) = some n' ↔
      ∃ c, T.set v ((T.child n k).getD T.fresh) ks = some c ∧ T.attach n k c = some n' := by
  simp only [set, Option.bind_eq_some_iff]

/-- What was written at a path is read back there. -/
theorem get_set {v n n' : N} {ks : List K} (h : T.set v n ks = some n') :
    T.get n' ks = some v := by
  induction ks generalizing n n' with
  | nil =>
    obtain rfl : v = n' := Option.some.inj h
    rfl
  | cons k ks ih =>
    obtain ⟨c, hc, hn⟩ := T.set_cons_eq_some.mp h
    simp only [get, T.child_attach hn, Option.bind_some, ih hc]

/-- A path read in two parts. -/
theorem get_append (n : N) (ks js : List K) :
    T.get n (ks ++ js) = (T.get n ks).bind fun c => T.get c js := by
  induction ks generalizing n with
  | nil => rfl
  | cons k ks ih =>
    rw [List.cons_append, get, get]
    cases T.child n k with
    | none => rfl
    | some c => exact ih c

/-- Below the path that was written, the new value is read. -/
theorem get_set_append {v n n' : N} {ks : List K} (h : T.set v n ks = some n') (js : List K) :
    T.get n' (ks ++ js) = T.get v js := by
  rw [get_append, T.get_set h, Option.bind_some]

/-- Writing what is already at the end of a path changes nothing. -/
theorem set_self (hattach : ∀ n k c, T.child n k = some c → T.attach n k c = some n) {v n : N}
    {ks : List K} (h : T.get n ks = some v) : T.set v n ks = some n := by
  induction ks generalizing n with
  | nil => exact h.symm
  | cons k ks ih =>
    obtain ⟨c, hc, hv⟩ := Option.bind_eq_some_iff.mp h
    rw [set, hc, Option.getD_some, ih hv, Option.bind_some, hattach n k c hc]

/-- Nothing is read below a fresh node. -/
theorem get_fresh (hfresh : ∀ k, T.child T.fresh k = none) {js : List K} (hj : js ≠ []) :
    T.get T.fresh js = none := by
  cases js with
  | nil => exact absurd rfl hj
  | cons j js => simp only [get, hfresh, Option.bind_none]

/-- A write is not seen along a path that branches off the written one: neither is a prefix of the
other, so at the first key where they differ the two reads part. -/
theorem get_set_of_branch (hfresh : ∀ k, T.child T.fresh k = none) {v n n' : N} {ks js : List K}
    (h : T.set v n ks = some n') (hjk : ¬ js <+: ks) (hkj : ¬ ks <+: js) :
    T.get n' js = T.get n js := by
  induction ks generalizing n n' js with
  | nil => exact absurd List.nil_prefix hkj
  | cons k ks ih =>
    cases js with
    | nil => exact absurd List.nil_prefix hjk
    | cons j js =>
      obtain ⟨c, hc, hn⟩ := T.set_cons_eq_some.mp h
      by_cases hk : j = k
      · subst hk
        simp only [List.cons_prefix_cons, true_and] at hjk hkj
        have hbelow := ih hc hjk hkj
        have hjs : js ≠ [] := fun hnil => hjk (hnil ▸ List.nil_prefix)
        simp only [get, T.child_attach hn, Option.bind_some, hbelow]
        cases hchild : T.child n j with
        | none => simp only [Option.getD_none, Option.bind_none, T.get_fresh hfresh hjs]
        | some d => simp only [Option.getD_some, Option.bind_some]
      · simp only [get, T.child_attach_of_ne hn hk]

end KeyedTree
