import OpenAPT.Lib.KeyedTree

/-! Several writes in a tree addressed by paths: a write covers every older one at its path or below
it, and writes along paths that branch off each other can be exchanged. -/
namespace KeyedTree

variable {K N : Type*}

/-- The laws of two writes at one node, for the nodes of an invariant. -/
structure Exchanges (T : KeyedTree K N) (Good : N → Prop) : Prop where
  fresh : Good T.fresh
  child : ∀ {n c : N} {k : K}, Good n → T.child n k = some c → Good c
  attach : ∀ {n n' c : N} {k : K}, Good n → Good c → T.attach n k c = some n' → Good n'
  attach_isSome : ∀ {n : N} (k : K) (c d : N), (T.attach n k c).isSome = (T.attach n k d).isSome
  attach_attach : ∀ {n n' : N} {k : K} {c : N} (d : N), Good n → T.attach n k c = some n' →
    T.attach n' k d = T.attach n k d
  attach_after : ∀ {n n' c : N} {j : K}, T.attach n j c = some n' →
    ∀ k d, (T.attach n' k d).isSome = true
  attach_comm : ∀ {n : N} {j k : K} (c d : N), Good n → j ≠ k →
    ((T.attach n j c).bind fun m => T.attach m k d) =
      (T.attach n k d).bind fun m => T.attach m j c

namespace Exchanges

variable {T : KeyedTree K N} {Good : N → Prop} (hT : T.Exchanges Good)
include hT

theorem getD {n : N} (hn : Good n) (k : K) : Good ((T.child n k).getD T.fresh) := by
  cases hchild : T.child n k with
  | none => exact hT.fresh
  | some c => exact hT.child hn hchild

theorem set {v n n' : N} {ks : List K} (hn : Good n) (hv : Good v) (h : T.set v n ks = some n') :
    Good n' := by
  induction ks generalizing n n' with
  | nil =>
    obtain rfl : v = n' := Option.some.inj h
    exact hv
  | cons k ks ih =>
    obtain ⟨c, hc, hn'⟩ := T.set_cons_eq_some.mp h
    exact hT.attach hn (ih (hT.getD hn k) hc) hn'

/-- A write covers an older one at its path or below it. -/
theorem set_of_prefix {v n n' : N} {ks js : List K} (hn : Good n)
    (h : T.set v n (ks ++ js) = some n') (w : N) : T.set w n' ks = T.set w n ks := by
  induction ks generalizing n n' with
  | nil => rfl
  | cons k ks ih =>
    obtain ⟨c, hc, hn'⟩ := T.set_cons_eq_some.mp h
    rw [KeyedTree.set, KeyedTree.set, T.child_attach hn', Option.getD_some, ih (hT.getD hn k) hc]
    exact congrArg _ (funext fun d => hT.attach_attach d hn hn')

/-- Where a write can be made, so can one at the start of its path. -/
theorem isSome_of_prefix {v n n' : N} {ks js : List K} (h : T.set v n (ks ++ js) = some n')
    (w : N) : (T.set w n ks).isSome = true := by
  induction ks generalizing n n' with
  | nil => rfl
  | cons k ks ih =>
    obtain ⟨c, hc, hn'⟩ := T.set_cons_eq_some.mp h
    obtain ⟨d, hd⟩ := Option.isSome_iff_exists.mp (ih hc)
    rw [KeyedTree.set, hd, Option.bind_some, hT.attach_isSome k d c, hn']
    rfl

/-- Two writes below one key. -/
theorem set_bind_set (v w : N) {n : N} (hn : Good n) (k : K) (ks js : List K) :
    ((T.set v n (k :: ks)).bind fun m => T.set w m (k :: js)) =
      ((T.set v ((T.child n k).getD T.fresh) ks).bind fun c => T.set w c js).bind
        (T.attach n k) := by
  rw [KeyedTree.set]
  cases hc : T.set v ((T.child n k).getD T.fresh) ks with
  | none => rfl
  | some c =>
    rw [Option.bind_some, Option.bind_some]
    cases hn' : T.attach n k c with
    | none =>
      -- Where one child cannot be attached, no other can.
      have hnone (d : N) : T.attach n k d = none := by
        have hsome := hT.attach_isSome (n := n) k c d
        rw [hn'] at hsome
        exact Option.not_isSome_iff_eq_none.mp (by rw [← hsome]; exact Bool.false_ne_true)
      cases T.set w c js with
      | none => rfl
      | some d => exact (hnone d).symm
    | some n' =>
      rw [Option.bind_some, KeyedTree.set, T.child_attach hn', Option.getD_some]
      exact congrArg _ (funext fun d => hT.attach_attach d hn hn')

/-- Writes along paths that branch off each other can be exchanged: at the first key where the paths
differ they are writes at one node. -/
theorem set_comm (v w : N) {n : N} (hn : Good n) {ks js : List K} (hkj : ¬ ks <+: js)
    (hjk : ¬ js <+: ks) : ((T.set v n ks).bind fun m => T.set w m js) =
      (T.set w n js).bind fun m => T.set v m ks := by
  induction ks generalizing n js with
  | nil => exact absurd List.nil_prefix hkj
  | cons k ks ih =>
    cases js with
    | nil => exact absurd List.nil_prefix hjk
    | cons j js =>
      by_cases hk : k = j
      · -- the paths go on together, and branch further down
        subst hk
        simp only [List.cons_prefix_cons, true_and] at hkj hjk
        rw [hT.set_bind_set v w hn, hT.set_bind_set w v hn, ih (hT.getD hn k) hkj hjk]
      · -- here they branch: each write makes its child from one the other does not touch
        have hleft {m c : N} (hm : T.attach n k c = some m) : T.set w m (j :: js) =
            (T.set w ((T.child n j).getD T.fresh) js).bind (T.attach m j) := by
          rw [KeyedTree.set, T.child_attach_of_ne hm (Ne.symm hk)]
        have hright {m c : N} (hm : T.attach n j c = some m) : T.set v m (k :: ks) =
            (T.set v ((T.child n k).getD T.fresh) ks).bind (T.attach m k) := by
          rw [KeyedTree.set, T.child_attach_of_ne hm hk]
        rw [KeyedTree.set, KeyedTree.set]
        cases hc : T.set v ((T.child n k).getD T.fresh) ks with
        | none =>
          cases hd : T.set w ((T.child n j).getD T.fresh) js with
          | none => rfl
          | some d =>
            rw [Option.bind_none, Option.bind_none, Option.bind_some]
            cases hm : T.attach n j d with
            | none => rfl
            | some m => rw [Option.bind_some, hright hm, hc, Option.bind_none]
        | some c =>
          cases hd : T.set w ((T.child n j).getD T.fresh) js with
          | none =>
            rw [Option.bind_some, Option.bind_none, Option.bind_none]
            cases hm : T.attach n k c with
            | none => rfl
            | some m => rw [Option.bind_some, hleft hm, hd, Option.bind_none]
          | some d =>
            have hcomm := hT.attach_comm c d hn hk
            rw [Option.bind_some, Option.bind_some]
            calc
              ((T.attach n k c).bind fun m => T.set w m (j :: js)) =
                  (T.attach n k c).bind fun m => T.attach m j d := by
                apply Option.bind_congr
                intro m hm
                rw [hleft hm, hd, Option.bind_some]
              _ = (T.attach n j d).bind fun m => T.attach m k c := hcomm
              _ = (T.attach n j d).bind fun m => T.set v m (k :: ks) := by
                apply Option.bind_congr
                intro m hm
                rw [hright hm, hc, Option.bind_some]

/-- A write that can be made can be made after another that branches off it. -/
theorem set_isSome {v w n n' m : N} (hn : Good n) {ks js : List K} (hkj : ¬ ks <+: js)
    (hjk : ¬ js <+: ks) (hks : T.set v n ks = some n') (hjs : T.set w n js = some m) :
    (T.set w n' js).isSome = true := by
  induction ks generalizing n n' m js with
  | nil => exact absurd List.nil_prefix hkj
  | cons k ks ih =>
    cases js with
    | nil => exact absurd List.nil_prefix hjk
    | cons j js =>
      obtain ⟨c, hc, hn'⟩ := T.set_cons_eq_some.mp hks
      obtain ⟨d, hd, hm⟩ := T.set_cons_eq_some.mp hjs
      rw [KeyedTree.set]
      by_cases hk : k = j
      · subst hk
        simp only [List.cons_prefix_cons, true_and] at hkj hjk
        -- the second write goes on in the child that the first one has attached
        obtain ⟨b, hb⟩ := Option.isSome_iff_exists.mp (ih (hT.getD hn k) hkj hjk hc hd)
        rw [T.child_attach hn', Option.getD_some, hb, Option.bind_some,
          hT.attach_isSome k b c, hT.attach_attach c hn hn', hn']
        rfl
      · rw [T.child_attach_of_ne hn' (Ne.symm hk), hd, Option.bind_some]
        exact hT.attach_after hn' j d

end Exchanges

end KeyedTree
