import OpenAPT.Json
import OpenAPT.Lib.SortedKeys

/-! `merge_patch` of `nlohmann::json`, which follows RFC 7396, and lists of patches applied one
after another. -/
namespace OpenAPT

open KeyedList (StrictTotal Sorted values)

theorem strictTotal_bytes : StrictTotal Bytes where
  irrefl := List.lt_irrefl
  trans := List.lt_trans
  trichotomous h h' := Std.Trichotomous.trichotomous _ _ h h'

namespace Json

/-- The members of an object. Another value is replaced by an empty object. -/
def members : Json → List (Bytes × Json)
  | object o => o
  | _ => []

mutual

/-- `target.merge_patch(patch)`. -/
def mergePatch (target : Json) : Json → Json
  | object o => object (mergeMembers target.members o)
  | patch => patch

/-- The loop over the members of the patch. -/
def mergeMembers (m : List (Bytes × Json)) : List (Bytes × Json) → List (Bytes × Json)
  | [] => m
  | e :: o => mergeMembers (mergeMember m e) o

/-- One turn: `erase(key)` for a null, and otherwise `operator[](key).merge_patch(patch)`. -/
def mergeMember (m : List (Bytes × Json)) : Bytes × Json → List (Bytes × Json)
  | (key, null) => KeyedList.eraseAll key m
  | (key, patch) =>
    KeyedList.insert key (mergePatch ((KeyedList.find? key m).getD null) patch) m

end

/-- What a patch makes of the value of a member, `none` where there is no member. -/
def patchMember (x : Option Json) (patch : Json) : Option Json :=
  match patch with
  | null => none
  | patch => some (mergePatch (x.getD null) patch)

theorem sizeOf_member_lt {o : List (Bytes × Json)} {e : Bytes × Json} (he : e ∈ o) :
    sizeOf e.2 < 1 + sizeOf o := by
  have hmem := List.sizeOf_lt_of_mem he
  have hsnd : sizeOf e.2 < sizeOf e := by
    cases e
    simp only [Prod.mk.sizeOf_spec]
    omega
  omega

/-- Induction over the objects in a value. -/
theorem object_induction {P : Json → Prop} (hleaf : ∀ j, (∀ o, j ≠ object o) → P j)
    (hobject : ∀ o, (∀ e ∈ o, P e.2) → P (object o)) : (j : Json) → P j
  | object o => hobject o fun e he =>
    have := sizeOf_member_lt he
    object_induction hleaf hobject e.2
  | null => hleaf _ fun _ => nofun
  | boolean _ => hleaf _ fun _ => nofun
  | numberInteger _ => hleaf _ fun _ => nofun
  | numberUnsigned _ => hleaf _ fun _ => nofun
  | numberFloat _ => hleaf _ fun _ => nofun
  | string _ => hleaf _ fun _ => nofun
  | binary _ _ => hleaf _ fun _ => nofun
  | array _ => hleaf _ fun _ => nofun
termination_by j => sizeOf j

theorem mergeMembers_eq_foldl (m o : List (Bytes × Json)) :
    mergeMembers m o = o.foldl mergeMember m := by
  induction o generalizing m with
  | nil => rfl
  | cons e o ih => exact ih _

theorem mergePatch_leaf {j : Json} (hj : ∀ o, j ≠ object o) (target : Json) :
    mergePatch target j = j := by
  cases j with
  | object o => exact absurd rfl (hj o)
  | _ => rfl

/-- What every turn keeps, the loop over a patch keeps. -/
theorem mergeMembers_induction {P : List (Bytes × Json) → Prop} {o : List (Bytes × Json)}
    (hstep : ∀ e ∈ o, ∀ m, P m → P (mergeMember m e)) {m : List (Bytes × Json)} (hm : P m) :
    P (mergeMembers m o) := by
  induction o generalizing m with
  | nil => exact hm
  | cons e o ih =>
    rw [List.forall_mem_cons] at hstep
    exact ih hstep.2 (hstep.1 m hm)

theorem mergeMember_of_ne_null {patch : Json} (h : patch ≠ null) (m : List (Bytes × Json))
    (key : Bytes) : mergeMember m (key, patch) =
      KeyedList.insert key (mergePatch ((KeyedList.find? key m).getD null) patch) m := by
  cases patch with
  | null => exact absurd rfl h
  | _ => rfl

theorem find?_mergeMember (m : List (Bytes × Json)) (e : Bytes × Json) (k : Bytes) :
    KeyedList.find? k (mergeMember m e) =
      if e.1 = k then patchMember (KeyedList.find? k m) e.2 else KeyedList.find? k m := by
  obtain ⟨key, patch⟩ := e
  dsimp only
  by_cases hk : key = k
  · subst hk
    rw [if_pos rfl]
    cases patch with
    | null => exact KeyedList.find?_eraseAll_self key m
    | _ => exact KeyedList.find?_insert_self key _ m
  · rw [if_neg hk]
    cases patch with
    | null => exact KeyedList.find?_eraseAll_of_ne (Ne.symm hk) m
    | _ => exact KeyedList.find?_insert_of_ne (Ne.symm hk) _ m

/-- The value under a key after a merge: all values under that key in the patch, one after
another. -/
theorem find?_mergeMembers (m o : List (Bytes × Json)) (k : Bytes) :
    KeyedList.find? k (mergeMembers m o) =
      (values k o).foldl patchMember (KeyedList.find? k m) := by
  induction o generalizing m with
  | nil => rfl
  | cons e o ih =>
    rw [mergeMembers, ih, find?_mergeMember, KeyedList.values_cons]
    split_ifs
    · rfl
    · rfl

/-- Objects merged one after another act on each member by all their values under its key. -/
theorem find?_foldl_mergePatch {l : List Json} (hl : ∀ p ∈ l, ∃ o, p = object o) (j : Json)
    (k : Bytes) : (l.foldl mergePatch j).find? k =
      (values k (l.flatMap members)).foldl patchMember (j.find? k) := by
  induction l generalizing j with
  | nil => rfl
  | cons p l ih =>
    rw [List.forall_mem_cons] at hl
    obtain ⟨⟨o, rfl⟩, hrest⟩ := hl
    have hmembers : KeyedList.find? k j.members = j.find? k := by
      cases j with
      | object m => rfl
      | _ => rfl
    rw [List.foldl_cons, ih hrest, mergePatch, find?, find?_mergeMembers, hmembers,
      List.flatMap_cons, KeyedList.values_append, List.foldl_append]
    rfl

/-- Objects have their keys in order, as a `std::map` keeps them. -/
inductive Ordered : Json → Prop
  | leaf {j : Json} (h : ∀ o, j ≠ object o) : Ordered j
  | object {o : List (Bytes × Json)} (hkeys : Sorted o) (hmembers : ∀ e ∈ o, Ordered e.2) :
    Ordered (object o)

/-- The same of the members of an object. -/
structure OrderedMembers (m : List (Bytes × Json)) : Prop where
  sorted : Sorted m
  ordered : ∀ e ∈ m, Ordered e.2

theorem Ordered.members {j : Json} (h : Ordered j) : OrderedMembers j.members := by
  cases h with
  | leaf hleaf =>
    cases j with
    | object o => exact absurd rfl (hleaf o)
    | _ => exact ⟨KeyedList.sorted_nil, nofun⟩
  | object hkeys hmembers => exact ⟨hkeys, hmembers⟩

theorem OrderedMembers.find? {m : List (Bytes × Json)} (h : OrderedMembers m) {k : Bytes} {j : Json}
    (hj : KeyedList.find? k m = some j) : Ordered j := h.ordered _ (KeyedList.mem_of_find? hj)

theorem ordered_getD {x : Option Json} (hx : ∀ j ∈ x, Ordered j) : Ordered (x.getD null) := by
  cases x with
  | none => exact .leaf nofun
  | some j => exact hx j rfl

theorem OrderedMembers.getD {m : List (Bytes × Json)} (h : OrderedMembers m) (k : Bytes) :
    Ordered ((KeyedList.find? k m).getD null) := ordered_getD fun _ hj => h.find? hj

/-- One turn keeps the order if the merge of the two values does. -/
theorem OrderedMembers.mergeMember {m : List (Bytes × Json)} (hm : OrderedMembers m)
    {e : Bytes × Json} (he : ∀ {target}, Ordered target → Ordered (mergePatch target e.2)) :
    OrderedMembers (mergeMember m e) := by
  obtain ⟨key, patch⟩ := e
  cases patch with
  | null => exact ⟨hm.sorted.eraseAll key, fun e he => hm.ordered e (List.mem_filter.mp he).1⟩
  | _ =>
    refine ⟨hm.sorted.insert strictTotal_bytes _ _, fun f hf => ?_⟩
    rcases KeyedList.mem_insert hf with rfl | hf
    · exact he (hm.getD key)
    · exact hm.ordered f hf

/-- A merge keeps the order, whatever the patch is. -/
theorem Ordered.mergePatch {target : Json} (h : Ordered target) (patch : Json) :
    Ordered (mergePatch target patch) := by
  induction patch using object_induction generalizing target with
  | hleaf j hj =>
    rw [mergePatch_leaf hj]
    exact .leaf hj
  | hobject o ih =>
    have hresult : OrderedMembers (Json.mergeMembers target.members o) :=
      mergeMembers_induction (fun e he _ hm => hm.mergeMember (ih e he)) h.members
    exact .object hresult.sorted hresult.ordered

theorem OrderedMembers.mergeMembers {m : List (Bytes × Json)} (hm : OrderedMembers m)
    (o : List (Bytes × Json)) : OrderedMembers (mergeMembers m o) :=
  (Ordered.mergePatch (.object hm.sorted hm.ordered) (object o)).members

theorem patchMember_object (x : Option Json) (o : List (Bytes × Json)) :
    patchMember x (object o) = some (object (mergeMembers (x.getD null).members o)) := by
  simp only [patchMember, mergePatch]

theorem patchMember_of_ne_null {patch : Json} (h : patch ≠ null) (x : Option Json) :
    patchMember x patch = some (mergePatch (x.getD null) patch) := by
  cases patch with
  | null => exact absurd rfl h
  | _ => rfl

/-- Without a null among them, patches are merged into a member as into any value. -/
theorem foldl_patchMember_some {l : List Json} (hl : ∀ p ∈ l, p ≠ null) (j : Json) :
    l.foldl patchMember (some j) = some (l.foldl mergePatch j) := by
  induction l generalizing j with
  | nil => rfl
  | cons p l ih =>
    rw [List.forall_mem_cons] at hl
    rw [List.foldl_cons, patchMember_of_ne_null hl.1, ih hl.2]
    rfl

/-- A patch that is no object does not look at the target. -/
theorem patchMember_leaf {p : Json} (hp : ∀ o, p ≠ object o) (x y : Option Json) :
    patchMember x p = patchMember y p := by
  cases p with
  | object o => exact absurd rfl (hp o)
  | _ => rfl

theorem foldl_patchMember_leaf {l : List Json} {p : Json} (hmem : p ∈ l)
    (hp : ∀ o, p ≠ object o) (x y : Option Json) :
    l.foldl patchMember x = l.foldl patchMember y := by
  obtain ⟨front, back, rfl⟩ := List.append_of_mem hmem
  simp only [List.foldl_append, List.foldl_cons]
  rw [patchMember_leaf hp _ (front.foldl patchMember y)]

/-- Objects one after another do what one object with all their members does. -/
theorem foldl_patchMember_objects {l : List Json} (hl : l ≠ [])
    (hobjects : ∀ p ∈ l, ∃ o, p = object o) (x : Option Json) :
    l.foldl patchMember x =
      some (object (mergeMembers (x.getD null).members (l.flatMap members))) := by
  induction l generalizing x with
  | nil => exact absurd rfl hl
  | cons p l ih =>
    rw [List.forall_mem_cons] at hobjects
    obtain ⟨⟨o, rfl⟩, hrest⟩ := hobjects
    rw [List.foldl_cons, patchMember_object, List.flatMap_cons, mergeMembers_eq_foldl,
      mergeMembers_eq_foldl, List.foldl_append]
    by_cases hnil : l = []
    · rw [hnil]
      rfl
    · rw [ih hnil hrest, mergeMembers_eq_foldl]
      rfl

/-- The sizes of some values together. -/
noncomputable def totalSize : List Json → ℕ
  | [] => 0
  | j :: l => sizeOf j + totalSize l

theorem totalSize_append (l l' : List Json) :
    totalSize (l ++ l') = totalSize l + totalSize l' := by
  induction l with
  | nil => exact (Nat.zero_add _).symm
  | cons j l ih => rw [List.cons_append, totalSize, ih, totalSize, Nat.add_assoc]

theorem totalSize_values_le (k : Bytes) (o : List (Bytes × Json)) :
    totalSize (values k o) ≤ sizeOf o := by
  induction o with
  | nil => exact Nat.zero_le _
  | cons e o ih =>
    have hsnd := sizeOf_member_lt (List.mem_cons_self (a := e) (l := o))
    have hcons : sizeOf (e :: o) = 1 + sizeOf e + sizeOf o := rfl
    have hpair : sizeOf e.2 ≤ sizeOf e := by
      cases e
      simp only [Prod.mk.sizeOf_spec]
      omega
    rw [KeyedList.values_cons]
    split_ifs
    · have hsum : totalSize (e.2 :: values k o) = sizeOf e.2 + totalSize (values k o) := rfl
      omega
    · omega

/-- Under one key there is less than in all of the objects. -/
theorem totalSize_values_lt {l : List Json} (hl : l ≠ []) (hobjects : ∀ p ∈ l, ∃ o, p = object o)
    (k : Bytes) : totalSize (values k (l.flatMap members)) < totalSize l := by
  have hlength : totalSize (values k (l.flatMap members)) + l.length ≤ totalSize l := by
    clear hl
    induction l with
    | nil => exact Nat.le_refl 0
    | cons p l ih =>
      rw [List.forall_mem_cons] at hobjects
      obtain ⟨⟨o, rfl⟩, hrest⟩ := hobjects
      have hhead : totalSize (object o :: l) = 1 + sizeOf o + totalSize l := by
        rw [totalSize, object.sizeOf_spec]
      have hvalues : totalSize (values k ((object o :: l).flatMap members)) =
          totalSize (values k o) + totalSize (values k (l.flatMap members)) := by
        rw [List.flatMap_cons, KeyedList.values_append, totalSize_append]
        rfl
      have hle := totalSize_values_le k o
      have hih := ih hrest
      rw [List.length_cons]
      omega
  have hpos := List.length_pos_iff.mpr hl
  omega

/-- Whether two orders of the same patches give the same does not depend on the target. -/
theorem foldl_patchMember_of_perm {l l' : List Json} (hperm : l.Perm l') {x y : Option Json}
    (hx : ∀ j ∈ x, Ordered j) (hy : ∀ j ∈ y, Ordered j)
    (h : l.foldl patchMember x = l'.foldl patchMember x) :
    l.foldl patchMember y = l'.foldl patchMember y := by
  induction hn : totalSize l using Nat.strong_induction_on generalizing l l' x y with
  | _ n ih =>
    by_cases hobjects : ∀ p ∈ l, ∃ o, p = object o
    · by_cases hl : l = []
      · subst hl
        rw [List.nil_perm.mp hperm]
      · -- objects only merge their members, so the two results are compared key by key
        have hl' : l' ≠ [] := fun hnil => hl (hnil ▸ hperm).eq_nil
        have hobjects' : ∀ p ∈ l', ∃ o, p = object o := fun p hp => hobjects p (hperm.mem_iff.mpr hp)
        have hmembers : (l.flatMap members).Perm (l'.flatMap members) := hperm.flatMap_right _
        rw [foldl_patchMember_objects hl hobjects, foldl_patchMember_objects hl' hobjects'] at h ⊢
        have hagree : mergeMembers (x.getD null).members (l.flatMap members) =
            mergeMembers (x.getD null).members (l'.flatMap members) :=
          object.inj (Option.some.inj h)
        have hmy := (ordered_getD hy).members
        apply congrArg (some ∘ object)
        apply (hmy.mergeMembers _).sorted.ext strictTotal_bytes (hmy.mergeMembers _).sorted
        intro k
        have hk := congrArg (KeyedList.find? k) hagree
        rw [find?_mergeMembers, find?_mergeMembers] at hk ⊢
        -- the values under one key are again two orders of the same patches
        apply ih _ (hn ▸ totalSize_values_lt hl hobjects k) (hmembers.filterMap _) _ _ hk rfl
        · exact fun j hj => (ordered_getD hx).members.find? hj
        · exact fun j hj => hmy.find? hj
    · -- a patch that is no object hides the target
      obtain ⟨p, hp, hleaf⟩ : ∃ p ∈ l, ∀ o, p ≠ object o := by
        simpa only [not_forall, not_exists, exists_prop] using hobjects
      calc
        l.foldl patchMember y = l.foldl patchMember x := foldl_patchMember_leaf hp hleaf y x
        _ = l'.foldl patchMember x := h
        _ = l'.foldl patchMember y := foldl_patchMember_leaf (hperm.mem_iff.mp hp) hleaf x y

/-- No object in the value has a null member. -/
inductive Plain : Json → Prop
  | leaf {j : Json} (h : ∀ o, j ≠ object o) : Plain j
  | object {o : List (Bytes × Json)} (hnull : ∀ e ∈ o, e.2 ≠ null) (hmembers : ∀ e ∈ o, Plain e.2) :
    Plain (object o)

/-- The same of the members of an object. -/
structure PlainMembers (m : List (Bytes × Json)) : Prop where
  ne_null : ∀ e ∈ m, e.2 ≠ null
  plain : ∀ e ∈ m, Plain e.2

theorem Plain.members {j : Json} (h : Plain j) : PlainMembers j.members := by
  cases h with
  | leaf hleaf =>
    cases j with
    | object o => exact absurd rfl (hleaf o)
    | _ => exact ⟨nofun, nofun⟩
  | object hnull hmembers => exact ⟨hnull, hmembers⟩

theorem PlainMembers.getD {m : List (Bytes × Json)} (h : PlainMembers m) (k : Bytes) :
    Plain ((KeyedList.find? k m).getD null) := by
  cases hfind : KeyedList.find? k m with
  | none => exact .leaf nofun
  | some j => exact h.plain _ (KeyedList.mem_of_find? hfind)

theorem mergePatch_ne_null {patch : Json} (h : patch ≠ null) (target : Json) :
    mergePatch target patch ≠ null := by
  cases patch with
  | null => exact absurd rfl h
  | _ => exact nofun

theorem PlainMembers.mergeMember {m : List (Bytes × Json)} (hm : PlainMembers m)
    {e : Bytes × Json} (he : ∀ {target}, Plain target → Plain (mergePatch target e.2)) :
    PlainMembers (mergeMember m e) := by
  obtain ⟨key, patch⟩ := e
  by_cases hnull : patch = null
  · subst hnull
    exact ⟨fun e he => hm.ne_null e (List.mem_filter.mp he).1,
      fun e he => hm.plain e (List.mem_filter.mp he).1⟩
  · rw [mergeMember_of_ne_null hnull]
    constructor
    · intro f hf
      rcases KeyedList.mem_insert hf with rfl | hf
      · exact mergePatch_ne_null hnull _
      · exact hm.ne_null f hf
    · intro f hf
      rcases KeyedList.mem_insert hf with rfl | hf
      · exact he (hm.getD key)
      · exact hm.plain f hf

/-- A merge never leaves a null member behind. -/
theorem Plain.mergePatch {target : Json} (h : Plain target) (patch : Json) :
    Plain (mergePatch target patch) := by
  induction patch using object_induction generalizing target with
  | hleaf j hj =>
    rw [mergePatch_leaf hj]
    exact .leaf hj
  | hobject o ih =>
    have hresult : PlainMembers (mergeMembers target.members o) :=
      mergeMembers_induction (fun e he _ hm => hm.mergeMember (ih e he)) h.members
    exact .object hresult.ne_null hresult.plain

/-- Merged into nothing, a patch gives itself exactly where no object in it has a null member. -/
theorem mergePatch_null_eq_iff {j : Json} (hj : Ordered j) : mergePatch null j = j ↔ Plain j := by
  constructor
  · intro h
    have hnull : Plain null := .leaf nofun
    rw [← h]
    exact hnull.mergePatch j
  · intro h
    induction h with
    | leaf hleaf => exact mergePatch_leaf hleaf null
    | @object o hnull _ ih =>
      have ho : OrderedMembers o := hj.members
      apply congrArg object
      have hnil : OrderedMembers [] := ⟨KeyedList.sorted_nil, List.forall_mem_nil _⟩
      apply (hnil.mergeMembers o).sorted.ext strictTotal_bytes ho.sorted
      intro k
      rw [find?_mergeMembers]
      rw [ho.sorted.values strictTotal_bytes]
      cases hfind : KeyedList.find? k o with
      | none => rfl
      | some v =>
        have hmem := KeyedList.mem_of_find? hfind
        have hself := ih _ hmem (ho.find? hfind)
        exact (patchMember_of_ne_null (hnull _ hmem) none).trans (congrArg some hself)

end Json


end OpenAPT
