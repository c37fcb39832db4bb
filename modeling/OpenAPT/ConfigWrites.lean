import OpenAPT.ConfigManager
import OpenAPT.Lib.TreeWrites
import OpenAPT.MergePatch

/-! Several calls of `setValue` one after another. -/
namespace OpenAPT

namespace Json

/-- A null takes a member as an empty object does, and only objects take others. -/
theorem attach_eq (j : Json) (key : Bytes) (c : Json) : tree.attach j key c =
    match j with
    | null => some (object (KeyedList.insert key c []))
    | object o => some (object (KeyedList.insert key c o))
    | _ => none := by
  cases j with
  | null =>
    simp only [tree, index, Except.toOption, Option.map_some, store, KeyedList.replace, ↓reduceIte,
      KeyedList.insert_nil]
  | object o =>
    simp only [tree, index, Except.toOption, Option.map_some, store, KeyedList.replace_emplace]
  | _ => rfl

/-- Where a member is attached, the result is the object of the members with it. -/
theorem attach_eq_some {j j' c : Json} {key : Bytes} (h : tree.attach j key c = some j') :
    j' = object (KeyedList.insert key c j.members) ∧
      ∀ other d, tree.attach j other d = some (object (KeyedList.insert other d j.members)) := by
  rw [attach_eq] at h
  cases j with
  | null => exact ⟨(Option.some.inj h).symm, fun other d => attach_eq null other d⟩
  | object o => exact ⟨(Option.some.inj h).symm, fun other d => attach_eq (object o) other d⟩
  | _ => cases h

theorem exchanges_ordered : tree.Exchanges Ordered where
  fresh := .leaf nofun
  child := by
    intro n c k hn hc
    cases n with
    | object o => exact hn.members.find? hc
    | _ => cases hc
  attach := by
    intro n n' c k hn hc h
    obtain ⟨rfl, -⟩ := attach_eq_some h
    refine .object (hn.members.sorted.insert strictTotal_bytes k c) fun e he => ?_
    rcases KeyedList.mem_insert he with rfl | he
    · exact hc
    · exact hn.members.ordered e he
  attach_isSome := by
    intro n k c d
    rw [attach_eq, attach_eq]
    cases n with
    | _ => rfl
  attach_attach := by
    intro n n' k c d hn h
    obtain ⟨rfl, hattach⟩ := attach_eq_some h
    rw [attach_eq, hattach k d]
    exact congrArg (some ∘ object) (hn.members.sorted.insert_insert strictTotal_bytes k c d)
  attach_after := by
    intro n n' c j h k d
    obtain ⟨rfl, -⟩ := attach_eq_some h
    rw [attach_eq]
    rfl
  attach_comm := by
    intro n j k c d hn hne
    cases hj : tree.attach n j c with
    | none =>
      have hnone : tree.attach n k d = none := by
        rw [attach_eq] at hj ⊢
        cases n with
        | null => cases hj
        | object o => cases hj
        | _ => rfl
      rw [hnone]
      rfl
    | some m =>
      obtain ⟨rfl, hattach⟩ := attach_eq_some hj
      rw [hattach k d, Option.bind_some, Option.bind_some, attach_eq, attach_eq]
      exact congrArg (some ∘ object) (hn.members.sorted.insert_comm strictTotal_bytes hne c d)

end Json

namespace ConfigManager

/-- Where the tree can be written, the walk of `setValue` returns with the node the write makes. -/
theorem setKeys_of_set {value p p' : Json} {key : Bytes} {keys : List Bytes}
    (h : Json.tree.set value p (key :: keys) = some p') :
    setKeys value p key keys = (.ok (), p') := by
  induction keys generalizing p p' key with
  | nil =>
    obtain ⟨c, hc, hattach⟩ := Json.tree.set_cons_eq_some.mp h
    obtain rfl : value = c := Option.some.inj hc
    obtain ⟨q, hq, rfl⟩ := Option.map_eq_some_iff.mp hattach
    simp only [setKeys, Json.ok_of_toOption hq]
  | cons next keys ih =>
    obtain ⟨c, hc, hattach⟩ := Json.tree.set_cons_eq_some.mp h
    obtain ⟨q, hq, rfl⟩ := Option.map_eq_some_iff.mp hattach
    have hindex := Json.ok_of_toOption hq
    cases hchild : p.find? key with
    | some child =>
      -- `operator[]` only finds the member, so the node is still the one it was
      have hT : Json.tree.child p key = some child := hchild
      rw [hT, Option.getD_some] at hc
      obtain rfl : p = q := by
        rw [Json.index_of_find?_some hchild] at hindex
        exact Except.ok.inj hindex
      rw [setKeys_of_find?_some value hchild, ih hc]
    | none =>
      -- it emplaces a null, from which the walk goes on
      have hT : Json.tree.child p key = none := hchild
      have hfresh : Json.tree.fresh = .null := rfl
      rw [hT, Option.getD_none, hfresh] at hc
      rw [setKeys_of_find?_none value hchild hindex, ih hc]

/-- A call of `setValue` as a write of the tree that may be refused. -/
theorem setValue_eq (config : ConfigManager) (key_path : Bytes) (value : Json) :
    (config.setValue key_path value).2 =
      ⟨(Json.tree.set value config.config_ (keysOf key_path).1).getD config.config_⟩ := by
  rw [keysOf_eq_cons key_path]
  cases hset : Json.tree.set value config.config_
      ((keysOf key_path).1.head (keysOf key_path).2 :: (keysOf key_path).1.tail) with
  | some p =>
    simp only [setValue, setKeys_of_set hset, Option.getD_some]
  | none =>
    rcases setKeys_refines value config.config_ ((keysOf key_path).1.head (keysOf key_path).2)
      (keysOf key_path).1.tail with ⟨p, -, hp⟩ | ⟨e, he⟩
    · rw [hset] at hp
      cases hp
    · simp only [setValue, he, Option.getD_none]

/-- Neither path leads through the end of the other. -/
def Branch (p q : Bytes) : Prop :=
  ¬ (keysOf p).1 <+: (keysOf q).1 ∧ ¬ (keysOf q).1 <+: (keysOf p).1

instance (p q : Bytes) : Decidable (Branch p q) := inferInstanceAs (Decidable (_ ∧ _))

/-- The calls of `setValue` on some paths and values, in order; one that throws changes nothing. -/
def writes (config : ConfigManager) (l : List (Bytes × Json)) : ConfigManager :=
  l.foldl (fun config write => (config.setValue write.1 write.2).2) config

theorem ordered_setValue {config : ConfigManager} (h : config.config_.Ordered) (key_path : Bytes)
    {value : Json} (hvalue : value.Ordered) :
    (config.setValue key_path value).2.config_.Ordered := by
  rw [setValue_eq]
  cases hset : Json.tree.set value config.config_ (keysOf key_path).1 with
  | none => exact h
  | some j => exact Json.exchanges_ordered.set h hvalue hset

/-- A write covers an older one at its path or below it. -/
theorem setValue_covers {config : ConfigManager} (h : config.config_.Ordered) {p q : Bytes}
    (hpre : (keysOf p).1 <+: (keysOf q).1) (v w : Json) :
    ((config.setValue q v).2.setValue p w).2 = (config.setValue p w).2 := by
  obtain ⟨rest, hrest⟩ := hpre
  rw [setValue_eq config q]
  cases hset : Json.tree.set v config.config_ (keysOf q).1 with
  | none => rfl
  | some j =>
    rw [← hrest] at hset
    have hsome := Json.exchanges_ordered.isSome_of_prefix hset w
    obtain ⟨i, hi⟩ := Option.isSome_iff_exists.mp hsome
    rw [Option.getD_some, setValue_eq, setValue_eq,
      Json.exchanges_ordered.set_of_prefix h hset w, hi]
    rfl

/-- Two writes that branch off each other can be exchanged, whether or not they throw. -/
theorem setValue_comm {config : ConfigManager} (h : config.config_.Ordered) {p q : Bytes}
    (hbranch : Branch p q) (v w : Json) :
    ((config.setValue p v).2.setValue q w).2 = ((config.setValue q w).2.setValue p v).2 := by
  have hT := Json.exchanges_ordered
  have hcomm := hT.set_comm v w h hbranch.1 hbranch.2
  rw [setValue_eq, setValue_eq, setValue_eq, setValue_eq]
  -- a write that throws does so in both orders, since the other one is elsewhere
  cases hp : Json.tree.set v config.config_ (keysOf p).1 with
  | none =>
    rw [hp, Option.bind_none] at hcomm
    cases hq : Json.tree.set w config.config_ (keysOf q).1 with
    | none => simp only [Option.getD_none, hp, hq]
    | some j =>
      rw [hq, Option.bind_some] at hcomm
      simp only [Option.getD_none, Option.getD_some, hq, ← hcomm]
  | some i =>
    rw [hp, Option.bind_some] at hcomm
    cases hq : Json.tree.set w config.config_ (keysOf q).1 with
    | none =>
      rw [hq, Option.bind_none] at hcomm
      simp only [Option.getD_none, Option.getD_some, hp, hcomm]
    | some j =>
      rw [hq, Option.bind_some] at hcomm
      -- neither write keeps the other one from being made
      obtain ⟨a, ha⟩ := Option.isSome_iff_exists.mp
        (hT.set_isSome h hbranch.1 hbranch.2 hp hq)
      rw [ha] at hcomm
      simp only [Option.getD_some, ha, ← hcomm]

/-- `setValue` calls on paths that branch off each other give the same configuration in every order,
and each of them covers all older ones at its path or below it. -/
theorem writes_perm {config : ConfigManager} (h : config.config_.Ordered)
    {l l' : List (Bytes × Json)} (hvalues : ∀ write ∈ l, write.2.Ordered)
    (hbranch : l.Pairwise fun a b => Branch a.1 b.1) (hperm : l.Perm l') :
    config.writes l = config.writes l' ∧
      ∀ p w, (∀ write ∈ l, (keysOf p).1 <+: (keysOf write.1).1) →
        ((config.writes l).setValue p w).2 = (config.setValue p w).2 := by
  constructor
  · induction hperm generalizing config with
    | nil => rfl
    | cons a _ ih =>
      rw [List.forall_mem_cons] at hvalues
      rw [List.pairwise_cons] at hbranch
      exact ih (ordered_setValue h a.1 hvalues.1) hvalues.2 hbranch.2
    | swap a b l =>
      rw [List.pairwise_cons, List.forall_mem_cons] at hbranch
      have hcomm := setValue_comm h hbranch.1.1 b.2 a.2
      exact congrArg (fun config => writes config l) hcomm
    | trans hlm _ ih ih' =>
      have hsymm : ∀ {a b : Bytes × Json}, Branch a.1 b.1 → Branch b.1 a.1 := And.symm
      exact (ih h hvalues hbranch).trans (ih' h
        (fun write hwrite => hvalues write (hlm.mem_iff.mpr hwrite))
        ((hlm.pairwise_iff hsymm).mp hbranch))
  · -- each write is undone from the last one on
    intro p w hcovers
    clear hbranch hperm
    induction l generalizing config with
    | nil => rfl
    | cons a l ih =>
      rw [List.forall_mem_cons] at hvalues hcovers
      have hrest := ih (ordered_setValue h a.1 hvalues.1) hvalues.2 hcovers.2
      exact hrest.trans (setValue_covers h hcovers.1 a.2 w)

/-- Two cameras written in either order, and the parent of both written over them. -/
theorem writes_perm_cameras :
    (⟨.null⟩ : ConfigManager).writes
        [(bytes "camera/main", .boolean true), (bytes "camera/guide", .boolean false)] =
      (⟨.null⟩ : ConfigManager).writes
        [(bytes "camera/guide", .boolean false), (bytes "camera/main", .boolean true)] ∧
    (((⟨.null⟩ : ConfigManager).writes
        [(bytes "camera/main", .boolean true), (bytes "camera/guide", .boolean false)]).setValue
          (bytes "camera") .null).2 =
      ((⟨.null⟩ : ConfigManager).setValue (bytes "camera") .null).2 := by
  have hordered : (Json.null).Ordered := .leaf nofun
  have hvalues : ∀ write ∈ [(bytes "camera/main", Json.boolean true),
      (bytes "camera/guide", Json.boolean false)], write.2.Ordered :=
    List.forall_mem_cons.mpr ⟨.leaf nofun, List.forall_mem_singleton.mpr (.leaf nofun)⟩
  have hbranch : [(bytes "camera/main", Json.boolean true),
      (bytes "camera/guide", Json.boolean false)].Pairwise fun a b => Branch a.1 b.1 :=
    List.pairwise_pair.mpr (by decide)
  have h := @writes_perm ⟨.null⟩ hordered _ _ hvalues hbranch (.swap _ _ _)
  refine ⟨h.1, h.2 (bytes "camera") .null ?_⟩
  exact List.forall_mem_cons.mpr ⟨by decide, List.forall_mem_singleton.mpr (by decide)⟩

end ConfigManager

end OpenAPT
