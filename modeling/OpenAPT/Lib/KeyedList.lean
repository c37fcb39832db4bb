import Mathlib.Data.List.Basic
import Mathlib.Tactic.Common

/-! Ordered maps as association lists. Reading takes the first entry of a key, writing keeps the
place of a key that is there. The laws need no order axioms, so they hold of every list. -/
namespace KeyedList

variable {K V : Type*} [DecidableEq K]

/-- The value under a key. -/
def find? (k : K) : List (K × V) → Option V
  | [] => none
  | (j, v) :: m => if j = k then some v else find? k m

/-- Overwrites the value of an entry that is there. -/
def replace (k : K) (v : V) : List (K × V) → List (K × V)
  | [] => []
  | (j, w) :: m => if j = k then (j, v) :: m else (j, w) :: replace k v m

/-- Drops the entry of `k`. -/
def erase (k : K) : List (K × V) → List (K × V)
  | [] => []
  | (j, w) :: m => if j = k then m else (j, w) :: erase k m

/-- Drops every entry of `k`. -/
def eraseAll (k : K) (m : List (K × V)) : List (K × V) := m.filter fun e => e.1 ≠ k

/-- Adds an entry before the first greater key. -/
def place [LT K] [DecidableLT K] (k : K) (v : V) : List (K × V) → List (K × V)
  | [] => [(k, v)]
  | (j, w) :: m => if k < j then (k, v) :: (j, w) :: m else (j, w) :: place k v m

/-- Adds an entry for `k` unless there is one. -/
def emplace [LT K] [DecidableLT K] (k : K) (v : V) (m : List (K × V)) : List (K × V) :=
  if (find? k m).isSome then m else place k v m

/-- Overwrites the entry of `k` or adds one. -/
def insert [LT K] [DecidableLT K] (k : K) (v : V) (m : List (K × V)) : List (K × V) :=
  replace k v (emplace k v m)

@[simp] theorem find?_nil (k : K) : find? k ([] : List (K × V)) = none := rfl

/-- There is a value exactly under the keys of the list. -/
theorem find?_isSome_iff {k : K} {m : List (K × V)} :
    (find? k m).isSome ↔ k ∈ m.map Prod.fst := by
  induction m with
  | nil => simp
  | cons e m ih =>
    obtain ⟨j, w⟩ := e
    rw [List.map_cons, List.mem_cons, ← ih]
    by_cases hj : j = k
    · simp only [find?, hj, ↓reduceIte, Option.isSome_some, true_or]
    · simp only [find?, hj, Ne.symm hj, ↓reduceIte, false_or]

theorem find?_eraseAll_self (k : K) (m : List (K × V)) : find? k (eraseAll k m) = none := by
  rw [← Option.not_isSome_iff_eq_none, find?_isSome_iff, List.mem_map]
  rintro ⟨e, he, hk⟩
  have hne := (List.mem_filter.mp he).2
  exact of_decide_eq_true hne hk

theorem find?_eraseAll_of_ne {j k : K} (h : j ≠ k) (m : List (K × V)) :
    find? j (eraseAll k m) = find? j m := by
  induction m with
  | nil => rfl
  | cons e m ih =>
    obtain ⟨i, w⟩ := e
    have ih' : find? j (m.filter fun e => decide (e.1 ≠ k)) = find? j m := ih
    by_cases hi : i = k
    · subst hi
      simp only [eraseAll, List.filter_cons, ne_eq, not_true_eq_false, decide_false,
        Bool.false_eq_true, ↓reduceIte, find?, h.symm]
      exact ih'
    · simp only [eraseAll, List.filter_cons, ne_eq, hi, not_false_eq_true, decide_true, ↓reduceIte,
        find?]
      rw [ih']

/-- Erasing a key that is not there changes nothing. -/
theorem eraseAll_of_find?_none {k : K} {m : List (K × V)} (h : find? k m = none) :
    eraseAll k m = m := by
  apply List.filter_eq_self.mpr
  intro e he
  have hnot : k ∉ m.map Prod.fst := by
    rw [← find?_isSome_iff, h]
    exact Bool.false_ne_true
  exact decide_eq_true fun hk => hnot (hk ▸ List.mem_map_of_mem he)

/-- The entry that is found is the head, or it is found in the tail. -/
theorem find?_induction {k : K} {v : V} {m : List (K × V)} (h : find? k m = some v)
    (p : List (K × V) → Prop) (hhead : ∀ m, p ((k, v) :: m))
    (htail : ∀ j w m, j ≠ k → p m → p ((j, w) :: m)) : p m := by
  induction m with
  | nil => cases h
  | cons e m ih =>
    obtain ⟨j, w⟩ := e
    by_cases hj : j = k
    · simp only [find?, hj, ↓reduceIte, Option.some.injEq] at h
      rw [hj, h]
      exact hhead m
    · simp only [find?, hj, ↓reduceIte] at h
      exact htail j w m hj (ih h)

theorem mem_of_find? {k : K} {v : V} {m : List (K × V)} (h : find? k m = some v) : (k, v) ∈ m := by
  apply find?_induction h (fun m => (k, v) ∈ m)
  · intro m
    exact List.mem_cons_self
  · intro j w m _ ih
    exact List.mem_cons_of_mem _ ih

/-- With distinct keys the order of the list does not matter. -/
theorem find?_of_perm {m n : List (K × V)} (hperm : m.Perm n) (hm : (m.map Prod.fst).Nodup) (k : K) :
    find? k m = find? k n := by
  induction hperm with
  | nil => rfl
  | cons e _ ih =>
    rw [List.map_cons, List.nodup_cons] at hm
    rw [find?, find?, ih hm.2]
  | swap e f m =>
    rw [List.map_cons, List.nodup_cons, List.map_cons, List.mem_cons, not_or] at hm
    have hne : f.1 ≠ e.1 := hm.1.1
    simp only [find?]
    split_ifs with hf he he
    · exact absurd (hf.trans he.symm) hne
    · rfl
    · rfl
    · rfl
  | trans hmn _ ih ih' => exact (ih hm).trans (ih' ((hmn.map Prod.fst).nodup_iff.mp hm))

/-- Two lists with the same keys in the same order have related values under each key. -/
theorem find?_of_forall₂ {W : Type*} {R : K → V → W → Prop} {m : List (K × V)} {n : List (K × W)}
    (h : List.Forall₂ (fun e f => e.1 = f.1 ∧ R e.1 e.2 f.2) m n) (k : K) :
    (find? k m = none ∧ find? k n = none) ∨
      ∃ v w, find? k m = some v ∧ find? k n = some w ∧ R k v w := by
  induction h with
  | nil => exact Or.inl ⟨rfl, rfl⟩
  | @cons e f m n hef _ ih =>
    obtain ⟨j, v⟩ := e
    obtain ⟨i, w⟩ := f
    obtain ⟨hji, hR⟩ := hef
    dsimp only at hji hR
    subst hji
    by_cases hj : j = k
    · subst hj
      exact Or.inr ⟨v, w, by simp only [find?, ↓reduceIte], by simp only [find?, ↓reduceIte], hR⟩
    · simpa only [find?, hj, ↓reduceIte] using ih

theorem find?_replace_self {k : K} {v : V} {m : List (K × V)} (h : (find? k m).isSome) :
    find? k (replace k v m) = some v := by
  obtain ⟨w, hw⟩ := Option.isSome_iff_exists.mp h
  apply find?_induction hw (fun m => find? k (replace k v m) = some v)
  · intro m
    simp only [replace, find?, ↓reduceIte]
  · intro j w m hj ih
    simp only [replace, find?, hj, ↓reduceIte, ih]

theorem find?_replace_of_ne {j k : K} (h : j ≠ k) (v : V) (m : List (K × V)) :
    find? j (replace k v m) = find? j m := by
  induction m with
  | nil => rfl
  | cons e m ih =>
    obtain ⟨i, w⟩ := e
    by_cases hi : i = k
    · subst hi
      simp only [replace, ↓reduceIte, find?, h.symm]
    · simp only [replace, hi, ↓reduceIte, find?, ih]

/-- Writing back what is there changes nothing. -/
theorem replace_eq_self {k : K} {v : V} {m : List (K × V)} (h : find? k m = some v) :
    replace k v m = m := by
  apply find?_induction h (fun m => replace k v m = m)
  · intro m
    simp only [replace, ↓reduceIte]
  · intro j w m hj ih
    simp only [replace, hj, ↓reduceIte, ih]

theorem length_replace (k : K) (v : V) (m : List (K × V)) : (replace k v m).length = m.length := by
  induction m with
  | nil => rfl
  | cons e m ih =>
    obtain ⟨j, w⟩ := e
    rw [replace]
    split_ifs
    · rfl
    · rw [List.length_cons, ih, List.length_cons]

theorem mem_replace {k : K} {v : V} {m : List (K × V)} {e : K × V} (h : e ∈ replace k v m) :
    e = (k, v) ∨ e ∈ m := by
  induction m with
  | nil => cases h
  | cons d m ih =>
    obtain ⟨j, w⟩ := d
    rw [replace] at h
    split_ifs at h with hj
    · obtain he | he := List.mem_cons.mp h
      · exact Or.inl (hj ▸ he)
      · exact Or.inr (List.mem_cons_of_mem (j, w) he)
    · obtain he | he := List.mem_cons.mp h
      · exact Or.inr (he ▸ List.mem_cons_self)
      · exact (ih he).imp_right (List.mem_cons_of_mem (j, w))

/-- Dropping an entry takes it out of every count. -/
theorem countP_erase (p : K × V → Bool) {k : K} {v : V} {m : List (K × V)}
    (h : find? k m = some v) :
    m.countP p = (erase k m).countP p + if p (k, v) then 1 else 0 := by
  apply find?_induction h (fun m => m.countP p = (erase k m).countP p + if p (k, v) then 1 else 0)
  · intro m
    simp only [erase, ↓reduceIte, List.countP_cons]
  · intro j w m hj ih
    simp only [erase, hj, ↓reduceIte, List.countP_cons, ih]
    omega

theorem erase_sublist (k : K) (m : List (K × V)) : (erase k m).Sublist m := by
  induction m with
  | nil => exact List.Sublist.slnil
  | cons e m ih =>
    obtain ⟨j, w⟩ := e
    rw [erase]
    split_ifs
    · exact List.sublist_cons_self (j, w) m
    · exact ih.cons_cons (j, w)

theorem find?_erase_self {k : K} {m : List (K × V)} (hm : (m.map Prod.fst).Nodup) :
    find? k (erase k m) = none := by
  induction m with
  | nil => rfl
  | cons e m ih =>
    obtain ⟨j, w⟩ := e
    rw [List.map_cons, List.nodup_cons] at hm
    by_cases hj : j = k
    · rw [erase, if_pos hj, ← Option.not_isSome_iff_eq_none, find?_isSome_iff, ← hj]
      exact hm.1
    · rw [erase, if_neg hj, find?, if_neg hj]
      exact ih hm.2

theorem find?_erase_of_ne {j k : K} (h : j ≠ k) (m : List (K × V)) :
    find? j (erase k m) = find? j m := by
  induction m with
  | nil => rfl
  | cons e m ih =>
    obtain ⟨i, w⟩ := e
    by_cases hi : i = k
    · have hij : i ≠ j := fun hij => h (hij.symm.trans hi)
      rw [erase, if_pos hi, find?, if_neg hij]
    · rw [erase, if_neg hi, find?, find?, ih]

theorem map_fst_replace (k : K) (v : V) (m : List (K × V)) :
    (replace k v m).map Prod.fst = m.map Prod.fst := by
  induction m with
  | nil => rfl
  | cons e m ih =>
    obtain ⟨j, w⟩ := e
    rw [replace]
    split_ifs
    · rfl
    · rw [List.map_cons, List.map_cons, ih]

variable [LT K] [DecidableLT K]

theorem find?_place_self {k : K} {v : V} {m : List (K × V)} (h : find? k m = none) :
    find? k (place k v m) = some v := by
  induction m with
  | nil => simp only [place, find?, ↓reduceIte]
  | cons e m ih =>
    obtain ⟨j, w⟩ := e
    have hj : j ≠ k := by
      rintro rfl
      simp only [find?, ↓reduceIte, reduceCtorEq] at h
    simp only [find?, hj, ↓reduceIte] at h
    simp only [place]
    split_ifs
    · simp only [find?, ↓reduceIte]
    · simp only [find?, hj, ↓reduceIte, ih h]

theorem find?_place_of_ne {j k : K} (h : j ≠ k) (v : V) (m : List (K × V)) :
    find? j (place k v m) = find? j m := by
  induction m with
  | nil => simp only [place, find?, h.symm, ↓reduceIte]
  | cons e m ih =>
    simp only [place]
    split_ifs
    · simp only [find?, h.symm, ↓reduceIte]
    · simp only [find?, ih]

theorem find?_emplace_isSome (k : K) (v : V) (m : List (K × V)) :
    (find? k (emplace k v m)).isSome := by
  unfold emplace
  split_ifs with h
  · exact h
  · rw [find?_place_self (Option.not_isSome_iff_eq_none.mp h), Option.isSome_some]

theorem find?_emplace_of_ne {j k : K} (h : j ≠ k) (v : V) (m : List (K × V)) :
    find? j (emplace k v m) = find? j m := by
  unfold emplace
  split_ifs
  · rfl
  · exact find?_place_of_ne h v m

theorem find?_emplace (j k : K) (v : V) (m : List (K × V)) :
    find? j (emplace k v m) = (find? j m).or (if j = k then some v else none) := by
  by_cases hjk : j = k
  · subst hjk
    rw [if_pos rfl]
    unfold emplace
    split_ifs with h
    · obtain ⟨w, hw⟩ := Option.isSome_iff_exists.mp h
      rw [hw]
      rfl
    · rw [find?_place_self (Option.not_isSome_iff_eq_none.mp h),
        Option.not_isSome_iff_eq_none.mp h, Option.none_or]
  · rw [find?_emplace_of_ne hjk, if_neg hjk, Option.or_none]

omit [DecidableEq K] in
theorem place_perm (k : K) (v : V) (m : List (K × V)) : (place k v m).Perm ((k, v) :: m) := by
  induction m with
  | nil => exact List.Perm.refl _
  | cons e m ih =>
    obtain ⟨j, w⟩ := e
    rw [place]
    split_ifs
    · exact List.Perm.refl _
    · exact (ih.cons (j, w)).trans (List.Perm.swap (k, v) (j, w) m)

/-- Keys stay distinct. -/
theorem nodup_keys_emplace {k : K} {v : V} {m : List (K × V)} (hm : (m.map Prod.fst).Nodup) :
    ((emplace k v m).map Prod.fst).Nodup := by
  unfold emplace
  split_ifs with h
  · exact hm
  · have hperm := (place_perm k v m).map Prod.fst
    rw [List.map_cons] at hperm
    rw [hperm.nodup_iff, List.nodup_cons, ← find?_isSome_iff]
    exact ⟨h, hm⟩

theorem nodup_keys_insert {k : K} {v : V} {m : List (K × V)} (hm : (m.map Prod.fst).Nodup) :
    ((insert k v m).map Prod.fst).Nodup := by
  rw [insert, map_fst_replace]
  exact nodup_keys_emplace hm

@[simp] theorem find?_insert_self (k : K) (v : V) (m : List (K × V)) :
    find? k (insert k v m) = some v :=
  find?_replace_self (find?_emplace_isSome k v m)

theorem find?_insert_of_ne {j k : K} (h : j ≠ k) (v : V) (m : List (K × V)) :
    find? j (insert k v m) = find? j m :=
  (find?_replace_of_ne h v _).trans (find?_emplace_of_ne h v m)

theorem find?_insert (j k : K) (v : V) (m : List (K × V)) :
    find? j (insert k v m) = if j = k then some v else find? j m := by
  split_ifs with h
  · rw [h, find?_insert_self]
  · exact find?_insert_of_ne h v m

theorem insert_eq_place {k : K} {m : List (K × V)} (h : find? k m = none) (v : V) :
    insert k v m = place k v m := by
  have hplace : emplace k v m = place k v m := by
    rw [emplace, h, Option.isSome_none, if_neg Bool.false_ne_true]
  rw [insert, hplace, replace_eq_self (find?_place_self h)]

@[simp] theorem insert_nil (k : K) (v : V) : insert k v [] = [(k, v)] := insert_eq_place rfl v

theorem insert_eq_replace {k : K} {w : V} {m : List (K × V)} (h : find? k m = some w) (v : V) :
    insert k v m = replace k v m := by
  rw [insert, emplace, h, Option.isSome_some, if_pos rfl]

/-- The value of an added entry can be given before or after it is placed. -/
theorem replace_emplace (k : K) (v w : V) (m : List (K × V)) :
    replace k v (emplace k w m) = insert k v m := by
  rw [insert]
  cases hfind : find? k m with
  | some u => simp only [emplace, hfind, Option.isSome_some, ↓reduceIte]
  | none =>
    simp only [emplace, hfind, Option.isSome_none, Bool.false_eq_true, ↓reduceIte]
    induction m with
    | nil => simp only [place, replace, ↓reduceIte]
    | cons e m ih =>
      obtain ⟨j, u⟩ := e
      rw [find?] at hfind
      split_ifs at hfind with hj
      rw [place, place]
      split_ifs
      · simp only [replace, ↓reduceIte]
      · simp only [replace, hj, ↓reduceIte, ih hfind]

theorem mem_insert {k : K} {v : V} {m : List (K × V)} {e : K × V} (h : e ∈ insert k v m) :
    e = (k, v) ∨ e ∈ m := by
  cases hfind : find? k m with
  | none =>
    rw [insert_eq_place hfind, (place_perm k v m).mem_iff] at h
    exact List.mem_cons.mp h
  | some w =>
    rw [insert_eq_replace hfind] at h
    exact mem_replace h

/-- An insertion adds its entry and takes out the one it overwrites. -/
theorem insert_perm (k : K) (v : V) (m : List (K × V)) :
    (insert k v m ++ (find? k m).toList.map fun w => (k, w)).Perm ((k, v) :: m) := by
  cases h : find? k m with
  | none =>
    rw [insert_eq_place h, Option.toList_none, List.map_nil, List.append_nil]
    exact place_perm k v m
  | some w =>
    rw [insert_eq_replace h, Option.toList_some, List.map_singleton]
    apply find?_induction h (fun m => (replace k v m ++ [(k, w)]).Perm ((k, v) :: m))
    · intro m
      simp only [replace, ↓reduceIte, List.cons_append]
      exact (List.perm_append_singleton (k, w) m).cons (k, v)
    · intro j u m hj ih
      simp only [replace, hj, ↓reduceIte, List.cons_append]
      exact (ih.cons (j, u)).trans (List.Perm.swap (k, v) (j, u) m)

/-- What an insertion adds to a count, and what it takes out by overwriting. -/
theorem countP_insert (p : K × V → Bool) (k : K) (v : V) (m : List (K × V)) :
    (insert k v m).countP p + ((find? k m).toList.countP fun w => p (k, w)) =
      m.countP p + if p (k, v) then 1 else 0 := by
  have hcount := (insert_perm k v m).countP_eq p
  rw [List.countP_append, List.countP_map, List.countP_cons] at hcount
  exact hcount

/-- The entries overwritten while those of a list are inserted. -/
def overwritten : List (K × V) → List (K × V) → List (K × V)
  | _, [] => []
  | m, e :: l =>
    ((find? e.1 m).toList.map fun w => (e.1, w)) ++ overwritten (insert e.1 e.2 m) l

theorem overwritten_eq_nil_iff {m l : List (K × V)} : overwritten m l = [] ↔
    (l.map Prod.fst).Nodup ∧ ∀ k ∈ l.map Prod.fst, find? k m = none := by
  induction l generalizing m with
  | nil => simp [overwritten]
  | cons e l ih =>
    rw [overwritten, List.append_eq_nil_iff, List.map_eq_nil_iff, Option.toList_eq_nil_iff, ih,
      List.map_cons, List.nodup_cons, List.forall_mem_cons]
    constructor
    · intro ⟨he, hl, hrest⟩
      have hne (k : K) (hk : k ∈ l.map Prod.fst) : k ≠ e.1 ∧ find? k m = none := by
        have hnone := hrest k hk
        rw [find?_insert] at hnone
        split_ifs at hnone with hke
        exact ⟨hke, hnone⟩
      exact ⟨⟨fun hmem => (hne e.1 hmem).1 rfl, hl⟩, he, fun k hk => (hne k hk).2⟩
    · intro ⟨⟨hnot, hl⟩, he, hrest⟩
      refine ⟨he, hl, fun k hk => ?_⟩
      have hke : k ≠ e.1 := fun h => hnot (h ▸ hk)
      rw [find?_insert_of_ne hke]
      exact hrest k hk

theorem foldl_insert_perm (m l : List (K × V)) :
    ((l.foldl (fun m e => insert e.1 e.2 m) m) ++ overwritten m l).Perm (m ++ l) := by
  induction l generalizing m with
  | nil => exact List.Perm.refl _
  | cons e l ih =>
    let added := insert e.1 e.2 m
    let old := (find? e.1 m).toList.map fun w => (e.1, w)
    let result := l.foldl (fun m e => insert e.1 e.2 m) added
    calc
      List.Perm (result ++ (old ++ overwritten added l)) (old ++ (result ++ overwritten added l)) :=
        List.perm_append_comm_assoc _ _ _
      List.Perm _ (old ++ (added ++ l)) := (ih added).append_left old
      List.Perm _ (added ++ old ++ l) := by
        rw [← List.append_assoc]
        exact List.perm_append_comm.append_right l
      List.Perm _ (e :: m ++ l) := (insert_perm e.1 e.2 m).append_right l
      List.Perm _ (m ++ e :: l) := List.perm_middle.symm

theorem mem_foldl_insert {m l : List (K × V)} {e : K × V}
    (h : e ∈ l.foldl (fun m e => insert e.1 e.2 m) m) : e ∈ m ++ l :=
  (foldl_insert_perm m l).mem_iff.mp (List.mem_append_left _ h)

end KeyedList
