import OpenAPT.Lib.KeyedList

/-! Association lists in strict key order, which stand for ordered maps: the operations keep the
order, and two such lists with the same values under all keys are equal. -/
namespace KeyedList

variable {K V : Type*} [LT K]

structure StrictTotal (K : Type*) [LT K] : Prop where
  irrefl : ∀ k : K, ¬ k < k
  trans : ∀ {i j k : K}, i < j → j < k → i < k
  trichotomous : ∀ {j k : K}, ¬ j < k → ¬ k < j → j = k

def Sorted (m : List (K × V)) : Prop := (m.map Prod.fst).Pairwise (· < ·)

theorem sorted_nil : Sorted ([] : List (K × V)) := List.Pairwise.nil

theorem sorted_cons {e : K × V} {m : List (K × V)} :
    Sorted (e :: m) ↔ (∀ k ∈ m.map Prod.fst, e.1 < k) ∧ Sorted m := List.pairwise_cons

variable [DecidableEq K]

omit [LT K] in
theorem keys_replace (k : K) (v : V) (m : List (K × V)) :
    (replace k v m).map Prod.fst = m.map Prod.fst := by
  induction m with
  | nil => rfl
  | cons e m ih =>
    obtain ⟨j, w⟩ := e
    rw [replace]
    split_ifs
    · rfl
    · rw [List.map_cons, ih, List.map_cons]

theorem Sorted.replace {m : List (K × V)} (hm : Sorted m) (k : K) (v : V) :
    Sorted (replace k v m) := by
  rw [Sorted, keys_replace]
  exact hm

theorem Sorted.eraseAll {m : List (K × V)} (hm : Sorted m) (k : K) : Sorted (eraseAll k m) :=
  hm.sublist (List.filter_sublist.map Prod.fst)

/-- The head of a sorted list is not under a key of the tail. -/
theorem Sorted.find?_tail (h : StrictTotal K) {e : K × V} {m : List (K × V)}
    (hm : Sorted (e :: m)) : find? e.1 m = none := by
  rw [← Option.not_isSome_iff_eq_none, find?_isSome_iff]
  intro hmem
  exact h.irrefl e.1 ((sorted_cons.mp hm).1 e.1 hmem)

omit [DecidableEq K] in
theorem Sorted.place [DecidableLT K] (h : StrictTotal K) {k : K} {m : List (K × V)}
    (hm : Sorted m) (hk : k ∉ m.map Prod.fst) (v : V) : Sorted (place k v m) := by
  induction m with
  | nil => exact sorted_cons.mpr ⟨fun _ hj => absurd hj List.not_mem_nil, sorted_nil⟩
  | cons e m ih =>
    obtain ⟨j, w⟩ := e
    obtain ⟨hj, hm'⟩ := sorted_cons.mp hm
    rw [List.map_cons, List.mem_cons, not_or] at hk
    rw [KeyedList.place]
    split_ifs with hlt
    · refine sorted_cons.mpr ⟨fun i hi => ?_, hm⟩
      rcases List.mem_cons.mp hi with rfl | hi
      · exact hlt
      · exact h.trans hlt (hj i hi)
    · have hjk : j < k := by
        by_contra hnot
        exact hk.1 (h.trichotomous hlt hnot)
      refine sorted_cons.mpr ⟨fun i hi => ?_, ih hm' hk.2⟩
      rcases List.mem_cons.mp ((place_perm k v m).map Prod.fst |>.mem_iff.mp hi) with rfl | hi
      · exact hjk
      · exact hj i hi

theorem Sorted.insert [DecidableLT K] (h : StrictTotal K) {m : List (K × V)} (hm : Sorted m)
    (k : K) (v : V) : Sorted (insert k v m) := by
  cases hfind : find? k m with
  | none =>
    rw [insert_eq_place hfind]
    apply hm.place h
    rw [← find?_isSome_iff, hfind]
    exact Bool.false_ne_true
  | some w =>
    rw [insert_eq_replace hfind]
    exact hm.replace k v

omit [LT K] in
/-- All values under a key, in the order of the list. -/
def values (k : K) (m : List (K × V)) : List V :=
  m.filterMap fun e => if e.1 = k then some e.2 else none

omit [LT K] in
theorem values_cons (k : K) (e : K × V) (m : List (K × V)) :
    values k (e :: m) = if e.1 = k then e.2 :: values k m else values k m := by
  unfold values
  rw [List.filterMap_cons]
  split_ifs with he
  · rfl
  · rfl

omit [LT K] in
theorem values_append (k : K) (m n : List (K × V)) :
    values k (m ++ n) = values k m ++ values k n := List.filterMap_append

omit [LT K] in
theorem mem_values_of_mem {k : K} {v : V} {m : List (K × V)} (h : (k, v) ∈ m) : v ∈ values k m :=
  List.mem_filterMap.mpr ⟨(k, v), h, if_pos rfl⟩

omit [LT K] in
theorem mem_of_mem_values {k : K} {v : V} {m : List (K × V)} (h : v ∈ values k m) :
    (k, v) ∈ m := by
  obtain ⟨e, he, hv⟩ := List.mem_filterMap.mp h
  split_ifs at hv with hk
  obtain rfl := Option.some.inj hv
  rw [← hk]
  exact he

omit [LT K] in
theorem values_of_find?_none {k : K} {m : List (K × V)} (h : find? k m = none) :
    values k m = [] := by
  rw [List.eq_nil_iff_forall_not_mem]
  intro v hv
  have hsome := find?_isSome_iff.mpr (List.mem_map_of_mem (mem_of_mem_values hv))
  rw [h] at hsome
  cases hsome

/-- A sorted list has at most one value under a key. -/
theorem Sorted.values (h : StrictTotal K) {m : List (K × V)} (hm : Sorted m) (k : K) :
    values k m = (find? k m).toList := by
  induction m with
  | nil => rfl
  | cons e m ih =>
    obtain ⟨j, w⟩ := e
    rw [values_cons]
    by_cases hj : j = k
    · have htail : KeyedList.values k m = [] := values_of_find?_none (hj ▸ hm.find?_tail h)
      simp only [hj, ↓reduceIte, find?, htail, Option.toList_some]
    · simp only [hj, ↓reduceIte, find?, ih (sorted_cons.mp hm).2]

/-- Of two lists with the same values, neither has its first key behind that of the other. -/
theorem not_lt_of_find?_eq (h : StrictTotal K) {e f : K × V} {m n : List (K × V)}
    (hn : Sorted (f :: n)) (heq : find? e.1 (e :: m) = find? e.1 (f :: n)) : ¬ e.1 < f.1 := by
  intro hlt
  have hmem : e.1 ∈ (f :: n).map Prod.fst := by
    rw [← find?_isSome_iff, ← heq, find?_isSome_iff]
    exact List.mem_cons_self
  rcases List.mem_cons.mp hmem with hef | htail
  · rw [hef] at hlt
    exact h.irrefl f.1 hlt
  · exact h.irrefl e.1 (h.trans hlt ((sorted_cons.mp hn).1 e.1 htail))

theorem Sorted.ext (h : StrictTotal K) {m n : List (K × V)} (hm : Sorted m) (hn : Sorted n)
    (heq : ∀ k, find? k m = find? k n) : m = n := by
  induction m generalizing n with
  | nil =>
    cases n with
    | nil => rfl
    | cons f n =>
      have hf := heq f.1
      simp only [find?, ↓reduceIte, reduceCtorEq] at hf
  | cons e m ih =>
    cases n with
    | nil =>
      have he := heq e.1
      simp only [find?, ↓reduceIte, reduceCtorEq] at he
    | cons f n =>
      have hkey : e.1 = f.1 :=
        h.trichotomous (not_lt_of_find?_eq h hn (heq e.1))
          (not_lt_of_find?_eq h hm (heq f.1).symm)
      obtain ⟨j, w⟩ := e
      obtain ⟨i, u⟩ := f
      dsimp only at hkey
      subst hkey
      have hhead := heq j
      simp only [find?, ↓reduceIte, Option.some.injEq] at hhead
      have htail : m = n := by
        apply ih (sorted_cons.mp hm).2 (sorted_cons.mp hn).2
        intro k
        by_cases hk : j = k
        · rw [← hk]
          exact (hm.find?_tail h).trans (hn.find?_tail h).symm
        · have hrest := heq k
          simpa only [find?, hk, ↓reduceIte] using hrest
      rw [hhead, htail]

theorem Sorted.insert_insert [DecidableLT K] (h : StrictTotal K) {m : List (K × V)}
    (hm : Sorted m) (k : K) (v w : V) :
    KeyedList.insert k w (KeyedList.insert k v m) = KeyedList.insert k w m := by
  apply ((hm.insert h k v).insert h k w).ext h (hm.insert h k w)
  intro i
  rw [find?_insert, find?_insert, find?_insert]
  split_ifs
  · rfl
  · rfl

theorem Sorted.insert_comm [DecidableLT K] (h : StrictTotal K) {m : List (K × V)} (hm : Sorted m)
    {j k : K} (hne : j ≠ k) (v w : V) :
    KeyedList.insert k w (KeyedList.insert j v m) =
      KeyedList.insert j v (KeyedList.insert k w m) := by
  apply ((hm.insert h j v).insert h k w).ext h ((hm.insert h k w).insert h j v)
  intro i
  simp only [find?_insert]
  split_ifs with hk hj
  · exact absurd (hj.symm.trans hk) hne
  · rfl
  · rfl
  · rfl

theorem Sorted.foldl_insert [DecidableLT K] (h : StrictTotal K) {m : List (K × V)} (hm : Sorted m)
    (l : List (K × V)) : Sorted (l.foldl (fun m e => KeyedList.insert e.1 e.2 m) m) := by
  induction l generalizing m with
  | nil => exact hm
  | cons e l ih => exact ih (hm.insert h e.1 e.2)

omit [DecidableEq K] in
theorem Sorted.nodup (h : StrictTotal K) {m : List (K × V)} (hm : Sorted m) :
    (m.map Prod.fst).Nodup := by
  refine List.Pairwise.imp ?_ hm
  intro a b hlt heq
  rw [heq] at hlt
  exact h.irrefl b hlt

/-- The entries of a sorted list, inserted one after another, give the list again. -/
theorem foldl_insert_of_sorted [DecidableLT K] (h : StrictTotal K) {l : List (K × V)}
    (hl : Sorted l) : l.foldl (fun m e => insert e.1 e.2 m) [] = l := by
  have hnodup := hl.nodup h
  have hover : overwritten [] l = [] :=
    overwritten_eq_nil_iff.mpr ⟨hnodup, fun _ _ => rfl⟩
  have hperm := foldl_insert_perm [] l
  rw [hover, List.append_nil, List.nil_append] at hperm
  apply (sorted_nil.foldl_insert h l).ext h hl
  intro k
  exact (find?_of_perm hperm.symm hnodup k).symm

end KeyedList
