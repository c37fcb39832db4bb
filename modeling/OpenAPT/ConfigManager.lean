import OpenAPT.Json
import OpenAPT.Lib.Occurrence

/-! `ConfigManager`: values of a JSON tree addressed by slash-separated key paths. The tree walks of
`setValue` and `getValue` are the writes and reads of `Json.tree`. -/
namespace OpenAPT.ConfigManager

open Occurrence

/-- `s.find(delimiter)`: where the delimiter first occurs. -/
def find (delimiter : Bytes) : Bytes → Option ℕ
  | [] => if delimiter = [] then some 0 else none
  | c :: s => if delimiter <+: c :: s then some 0 else (find delimiter s).map (· + 1)

/-- The `while` loop of `split`, `none` if it is still running when the fuel is used up. -/
def splitLoop (delimiter : Bytes) : ℕ → Bytes → List Bytes → Option (List Bytes)
  | 0, _, _ => none
  | fuel + 1, tempStr, tokens =>
    match find delimiter tempStr with
    | some pos =>
      splitLoop delimiter fuel (tempStr.drop (pos + delimiter.length))
        (tokens ++ [tempStr.take pos])
    | none => some (tokens ++ [tempStr])

/-- `split`. Each turn of the loop takes at least one byte unless the delimiter is empty, and then
the source does not terminate either. -/
def split (s delimiter : Bytes) : Option (List Bytes) := splitLoop delimiter (s.length + 1) s []

variable {delimiter s : Bytes}

theorem isFirst_of_find {pos : ℕ} (h : find delimiter s = some pos) :
    IsFirst delimiter s pos := by
  induction s generalizing pos with
  | nil =>
    obtain ⟨hnil, hzero⟩ := Option.ite_none_right_eq_some.mp h
    obtain rfl := Option.some.inj hzero
    rw [hnil]
    exact isFirst_zero List.nil_prefix
  | cons c s ih =>
    rw [find] at h
    by_cases hprefix : delimiter <+: c :: s
    · rw [if_pos hprefix] at h
      obtain rfl := Option.some.inj h
      exact isFirst_zero hprefix
    · rw [if_neg hprefix] at h
      obtain ⟨p, hp, rfl⟩ := Option.map_eq_some_iff.mp h
      exact (ih hp).cons hprefix

theorem not_infix_of_find (h : find delimiter s = none) : ¬ delimiter <:+: s := by
  induction s with
  | nil =>
    intro hinfix
    rw [find, if_pos (List.infix_nil.mp hinfix)] at h
    cases h
  | cons c s ih =>
    rw [find] at h
    by_cases hprefix : delimiter <+: c :: s
    · rw [if_pos hprefix] at h
      cases h
    · rw [if_neg hprefix, Option.map_eq_none_iff] at h
      intro hinfix
      rcases List.infix_cons_iff.mp hinfix with hbegin | hlater
      · exact hprefix hbegin
      · exact ih h hlater

/-- The loop puts the pieces of what is left of the string after the tokens it has. -/
theorem splitLoop_eq_append (hd : delimiter ≠ []) {fuel : ℕ} {tempStr : Bytes}
    (tokens : List Bytes) (hfuel : tempStr.length < fuel) :
    ∃ pieces, splitLoop delimiter fuel tempStr tokens = some (tokens ++ pieces) ∧
      IsSplit delimiter tempStr pieces := by
  induction fuel generalizing tempStr tokens with
  | zero => exact absurd hfuel (Nat.not_lt_zero _)
  | succ fuel ih =>
    rw [splitLoop]
    cases hpos : find delimiter tempStr with
    | none => exact ⟨[tempStr], rfl, isSplit_singleton (not_infix_of_find hpos)⟩
    | some pos =>
      have hfirst := isFirst_of_find hpos
      -- a turn takes the delimiter off, so what is left is shorter
      have hshorter : (tempStr.drop (pos + delimiter.length)).length < fuel := by
        have hlength := List.length_pos_iff.mpr hd
        have hle := hfirst.add_length_le hd
        rw [List.length_drop]
        omega
      obtain ⟨pieces, hloop, hpieces⟩ := ih (tokens ++ [tempStr.take pos]) hshorter
      rw [List.append_assoc, List.singleton_append] at hloop
      exact ⟨tempStr.take pos :: pieces, hloop, hpieces.cons hd hfirst⟩

/-- `split` ends, and what it returns are pieces that give the string again and in which the
delimiter does not occur. -/
theorem split_isSplit (s : Bytes) (hd : delimiter ≠ []) :
    ∃ tokens, split s delimiter = some tokens ∧ tokens ≠ [] ∧
      List.intercalate delimiter tokens = s ∧ ∀ token ∈ tokens, ¬ delimiter <:+: token := by
  obtain ⟨pieces, hloop, hpieces⟩ := splitLoop_eq_append hd [] (Nat.lt_succ_self s.length)
  exact ⟨pieces, hloop, hpieces.ne_nil, hpieces.intercalate_eq, hpieces.not_infix⟩

/-- The delimiter occurs twice in `aaa`, and only its first occurrence is taken. -/
theorem split_isSplit_overlap :
    split (bytes "aaa") (bytes "aa") = some [[], bytes "a"] ∧
      ∃ tokens, split (bytes "aaa") (bytes "aa") = some tokens ∧ tokens ≠ [] ∧
        List.intercalate (bytes "aa") tokens = bytes "aaa" ∧
          ∀ token ∈ tokens, ¬ bytes "aa" <:+: token :=
  ⟨by decide, split_isSplit (bytes "aaa") (by decide)⟩

theorem split_slash (key_path : Bytes) :
    ∃ front last, split key_path (bytes "/") = some (front ++ [last]) := by
  have hslash : bytes "/" ≠ [] := by decide
  obtain ⟨pieces, hloop, hpieces⟩ :=
    splitLoop_eq_append hslash [] (Nat.lt_succ_self key_path.length)
  refine ⟨pieces.dropLast, pieces.getLast hpieces.ne_nil, ?_⟩
  rw [List.dropLast_append_getLast]
  exact hloop

/-- The keys of a path: `split` at the slashes, which gives at least one. -/
def keysOf (key_path : Bytes) : {keys : List Bytes // keys ≠ []} :=
  ⟨(split key_path (bytes "/")).get (by
      obtain ⟨front, last, h⟩ := split_slash key_path
      simp only [h, Option.isSome_some]), by
    obtain ⟨front, last, h⟩ := split_slash key_path
    simp only [h, Option.get_some, ne_eq, List.append_eq_nil_iff, List.cons_ne_self, and_false,
      not_false_eq_true]⟩

end OpenAPT.ConfigManager

namespace OpenAPT

structure ConfigManager where
  config_ : Json

namespace ConfigManager

/-- The walk of `setValue` from the node `p` and the write at its end. What it returns is how the
call ends and what `p` has become, also where the call throws. -/
def setKeys (value : Json) : Json → Bytes → List Bytes → Except StdException Unit × Json
  | p, key, [] =>
    match p.index key with
    | .ok p' => (.ok (), p'.store key value)
    | .error e => (.error e, p)
  | p, key, next :: keys =>
    match p.find? key with
    | some child =>
      let r := setKeys value child next keys
      (r.1, p.store key r.2)
    | none =>
      -- `(*p)[key] = json()` may throw; the walk then continues in the null just stored
      match p.index key with
      | .ok p' =>
        let r := setKeys value .null next keys
        (r.1, p'.store key r.2)
      | .error e => (.error e, p)

def setValue (config : ConfigManager) (key_path : Bytes) (value : Json) :
    Except StdException Unit × ConfigManager :=
  let keys := keysOf key_path
  let r := setKeys value config.config_ (keys.1.head keys.2) keys.1.tail
  (r.1, ⟨r.2⟩)

/-- The walk of `getValue`; it stops with a null at the first key that is not there. -/
def getKeys : Json → List Bytes → Json
  | p, [] => p
  | p, key :: keys =>
    match p.find? key with
    | some child => getKeys child keys
    | none => .null

def getValue (config : ConfigManager) (key_path : Bytes) : Json :=
  getKeys config.config_ (keysOf key_path).1

/-- The walk of `deleteValue`. Only the last key is erased without a look at what the node is. -/
def deleteKeys : Json → Bytes → List Bytes → Except StdException Unit × Json
  | p, key, [] =>
    match p.erase key with
    | .ok p' => (.ok (), p')
    | .error e => (.error e, p)
  | p, key, next :: keys =>
    match p.find? key with
    | some child =>
      let r := deleteKeys child next keys
      (r.1, p.store key r.2)
    | none => (.ok (), p)

def deleteValue (config : ConfigManager) (key_path : Bytes) :
    Except StdException Unit × ConfigManager :=
  let keys := keysOf key_path
  let r := deleteKeys config.config_ (keys.1.head keys.2) keys.1.tail
  (r.1, ⟨r.2⟩)

theorem getKeys_eq (p : Json) (keys : List Bytes) :
    getKeys p keys = (Json.tree.get p keys).getD .null := by
  induction keys generalizing p with
  | nil => rfl
  | cons key keys ih =>
    simp only [getKeys, KeyedTree.get, Json.tree]
    cases hchild : p.find? key with
    | none => rfl
    | some child => exact ih child

theorem tree_attach_of_index {p p' : Json} {key : Bytes} (h : p.index key = .ok p') (c : Json) :
    Json.tree.attach p key c = some (p'.store key c) := by
  simp only [Json.tree, h, Except.toOption, Option.map_some]

/-- Below a null every node is created on the way, so nothing throws. -/
theorem setKeys_null (value : Json) (key : Bytes) (keys : List Bytes) :
    (setKeys value .null key keys).1 = .ok () := by
  induction keys generalizing key with
  | nil => rfl
  | cons next keys ih => exact ih next

theorem setKeys_of_find?_some (value : Json) {p child : Json} {key : Bytes}
    (h : p.find? key = some child) (next : Bytes) (keys : List Bytes) :
    setKeys value p key (next :: keys) =
      ((setKeys value child next keys).1, p.store key (setKeys value child next keys).2) := by
  simp only [setKeys, h]

theorem setKeys_of_find?_none (value : Json) {p p' : Json} {key : Bytes}
    (h : p.find? key = none) (hi : p.index key = .ok p') (next : Bytes) (keys : List Bytes) :
    setKeys value p key (next :: keys) =
      (.ok (), p'.store key (setKeys value .null next keys).2) := by
  simp only [setKeys, h, hi, setKeys_null]

theorem setKeys_of_index_error (value : Json) {p : Json} {key : Bytes} {e : StdException}
    (hi : p.index key = .error e) (keys : List Bytes) :
    setKeys value p key keys = (.error e, p) := by
  cases keys with
  | nil => simp only [setKeys, hi]
  | cons next keys =>
    cases hchild : p.find? key with
    | none => simp only [setKeys, hchild, hi]
    | some child =>
      rw [Json.index_of_find?_some hchild] at hi
      cases hi

/-- The walk of `setValue` is a write of the tree: it returns normally with the node the write
makes, or throws and leaves the node as it was. -/
theorem setKeys_refines (value p : Json) (key : Bytes) (keys : List Bytes) :
    (∃ p', setKeys value p key keys = (.ok (), p') ∧
      Json.tree.set value p (key :: keys) = some p') ∨
    ∃ e, setKeys value p key keys = (.error e, p) := by
  induction keys generalizing p key with
  | nil =>
    cases hi : p.index key with
    | error e => exact Or.inr ⟨e, setKeys_of_index_error value hi []⟩
    | ok p' =>
      refine Or.inl ⟨p'.store key value, by simp only [setKeys, hi], ?_⟩
      exact tree_attach_of_index hi value
  | cons next keys ih =>
    cases hchild : p.find? key with
    | some child =>
      have hT : Json.tree.child p key = some child := hchild
      rcases ih child next with ⟨c, hc, hset⟩ | ⟨e, hc⟩
      · refine Or.inl ⟨p.store key c, by rw [setKeys_of_find?_some value hchild, hc], ?_⟩
        rw [KeyedTree.set, hT, Option.getD_some, hset, Option.bind_some,
          tree_attach_of_index (Json.index_of_find?_some hchild)]
      · refine Or.inr ⟨e, ?_⟩
        rw [setKeys_of_find?_some value hchild, hc, Json.store_of_find?_some hchild]
    | none =>
      have hT : Json.tree.child p key = none := hchild
      cases hi : p.index key with
      | error e => exact Or.inr ⟨e, setKeys_of_index_error value hi _⟩
      | ok p' =>
        rcases ih .null next with ⟨c, hc, hset⟩ | ⟨e, hc⟩
        · refine Or.inl ⟨p'.store key c, by rw [setKeys_of_find?_none value hchild hi, hc], ?_⟩
          have hfresh : Json.tree.fresh = .null := rfl
          rw [KeyedTree.set, hT, Option.getD_none, hfresh, hset, Option.bind_some,
            tree_attach_of_index hi]
        · have hnull := setKeys_null value next keys
          rw [hc] at hnull
          cases hnull

theorem find_slash_of_not_mem {s : Bytes} (h : ∀ c ∈ s, c ∉ bytes "/") :
    find (bytes "/") s = none := by
  induction s with
  | nil => rfl
  | cons c s ih =>
    rw [List.forall_mem_cons] at h
    have hprefix : ¬ bytes "/" <+: c :: s := by
      intro hp
      exact h.1 (List.mem_singleton.mpr (List.cons_prefix_cons.mp hp).1.symm)
    rw [find, if_neg hprefix, ih h.2, Option.map_none]

/-- A path without a slash is its only key. -/
theorem keysOf_of_not_mem {key_path : Bytes} (h : ∀ c ∈ key_path, c ∉ bytes "/") :
    (keysOf key_path).1 = [key_path] := by
  have hsplit : split key_path (bytes "/") = some [key_path] := by
    rw [split, splitLoop, find_slash_of_not_mem h]
    rfl
  simp only [keysOf, hsplit, Option.get_some]

theorem keysOf_eq_cons (key_path : Bytes) :
    (keysOf key_path).1 =
      (keysOf key_path).1.head (keysOf key_path).2 :: (keysOf key_path).1.tail :=
  (List.cons_head_tail _).symm

/-- What a call of `setValue` does: the write of the tree at the keys of the path, or nothing. -/
theorem setValue_cases (config : ConfigManager) (key_path : Bytes) (value : Json) :
    (∃ config', config.setValue key_path value = (.ok (), config') ∧
      Json.tree.set value config.config_ (keysOf key_path).1 = some config'.config_) ∨
    ∃ e, config.setValue key_path value = (.error e, config) := by
  rw [keysOf_eq_cons key_path]
  rcases setKeys_refines value config.config_ ((keysOf key_path).1.head (keysOf key_path).2)
    (keysOf key_path).1.tail with ⟨p, hp, hset⟩ | ⟨e, hp⟩
  · exact Or.inl ⟨⟨p⟩, by simp only [setValue, hp], hset⟩
  · exact Or.inr ⟨e, by simp only [setValue, hp]⟩

/-- `setValue` and `getValue` are a lens: a value that was set is read back, and paths that branch
off are not touched, whether or not the call throws. -/
theorem setValue_getValue_lens (config : ConfigManager) (key_path : Bytes) (value : Json) :
    ((config.setValue key_path value).1 = .ok () →
      (config.setValue key_path value).2.getValue key_path = value) ∧
    ∀ q : Bytes, ¬ (keysOf q).1 <+: (keysOf key_path).1 →
      ¬ (keysOf key_path).1 <+: (keysOf q).1 →
      (config.setValue key_path value).2.getValue q = config.getValue q := by
  rcases setValue_cases config key_path value with ⟨config', hrun, hset⟩ | ⟨e, hrun⟩
  · rw [hrun]
    refine ⟨fun _ => ?_, fun q hq hkey => ?_⟩
    · rw [getValue, getKeys_eq, Json.tree.get_set hset, Option.getD_some]
    · have hfresh : ∀ k, Json.tree.child Json.tree.fresh k = none := fun _ => rfl
      rw [getValue, getValue, getKeys_eq, getKeys_eq,
        Json.tree.get_set_of_branch hfresh hset hq hkey]
  · rw [hrun]
    exact ⟨nofun, fun _ _ _ => rfl⟩

/-- Setting "a/b" and reading it back, with "a/c" left alone. -/
theorem setValue_getValue_lens_nested :
    ((⟨.object []⟩ : ConfigManager).setValue (bytes "a/b") (.boolean true)).2.getValue
        (bytes "a/b") = .boolean true ∧
    ((⟨.object []⟩ : ConfigManager).setValue (bytes "a/b") (.boolean true)).2.getValue
        (bytes "a/c") = (⟨.object []⟩ : ConfigManager).getValue (bytes "a/c") := by
  have h := setValue_getValue_lens ⟨.object []⟩ (bytes "a/b") (.boolean true)
  exact ⟨h.1 rfl, h.2 (bytes "a/c") (by decide) (by decide)⟩

/-- A call of `setValue` that throws leaves the configuration as it was: a missing key is only
created below a null or an object, and from there on nothing throws. -/
theorem setValue_error_unchanged (config : ConfigManager) (key_path : Bytes) (value : Json)
    (e : StdException) (h : (config.setValue key_path value).1 = .error e) :
    (config.setValue key_path value).2 = config := by
  rcases setValue_cases config key_path value with ⟨config', hrun, hset⟩ | ⟨e', hrun⟩
  · rw [hrun] at h
    cases h
  · rw [hrun]

/-- Below the number under "a" there is no "b" to set. -/
theorem setValue_error_unchanged_number :
    ((⟨.object [(bytes "a", .numberInteger 5)]⟩ : ConfigManager).setValue (bytes "a/b") .null).2 =
      ⟨.object [(bytes "a", .numberInteger 5)]⟩ := by
  have herror : ∃ e, ((⟨.object [(bytes "a", .numberInteger 5)]⟩ : ConfigManager).setValue
      (bytes "a/b") .null).1 = .error e := ⟨_, rfl⟩
  obtain ⟨e, he⟩ := herror
  exact setValue_error_unchanged _ _ _ e he

/-- Where the walk ends before the last key, nothing is erased. -/
theorem deleteKeys_of_get_none {p : Json} {key : Bytes} {keys : List Bytes}
    (h : Json.tree.get p (key :: keys).dropLast = none) : deleteKeys p key keys = (.ok (), p) := by
  induction keys generalizing p key with
  | nil => cases h
  | cons next keys ih =>
    rw [List.dropLast_cons_cons, KeyedTree.get] at h
    rw [deleteKeys]
    cases hchild : p.find? key with
    | none => rfl
    | some child =>
      have hT : Json.tree.child p key = some child := hchild
      rw [hT, Option.bind_some] at h
      simp only [ih h, Json.store_of_find?_some hchild]

/-- Otherwise the last key is erased from the node that the keys before it lead to. -/
theorem deleteKeys_of_erase_ok {p parent parent' : Json} {key : Bytes} {keys : List Bytes}
    (h : Json.tree.get p (key :: keys).dropLast = some parent)
    (he : parent.erase ((key :: keys).getLast (List.cons_ne_nil _ _)) = .ok parent') :
    ∃ p', deleteKeys p key keys = (.ok (), p') ∧
      Json.tree.set parent' p (key :: keys).dropLast = some p' := by
  induction keys generalizing p key with
  | nil =>
    obtain rfl : p = parent := Option.some.inj h
    have he' : p.erase key = .ok parent' := he
    exact ⟨parent', by simp only [deleteKeys, he'], rfl⟩
  | cons next keys ih =>
    rw [List.dropLast_cons_cons, KeyedTree.get] at h
    obtain ⟨child, hchild, hget⟩ := Option.bind_eq_some_iff.mp h
    have hfind : p.find? key = some child := hchild
    obtain ⟨c, hc, hset⟩ := ih hget he
    refine ⟨p.store key c, by simp only [deleteKeys, hfind, hc], ?_⟩
    rw [List.dropLast_cons_cons, KeyedTree.set, hchild, Option.getD_some, hset, Option.bind_some,
      tree_attach_of_index (Json.index_of_find?_some hfind)]

theorem deleteKeys_of_erase_error {p parent : Json} {key : Bytes} {keys : List Bytes}
    {e : StdException} (h : Json.tree.get p (key :: keys).dropLast = some parent)
    (he : parent.erase ((key :: keys).getLast (List.cons_ne_nil _ _)) = .error e) :
    deleteKeys p key keys = (.error e, p) := by
  induction keys generalizing p key with
  | nil =>
    obtain rfl : p = parent := Option.some.inj h
    have he' : p.erase key = .error e := he
    simp only [deleteKeys, he']
  | cons next keys ih =>
    rw [List.dropLast_cons_cons, KeyedTree.get] at h
    obtain ⟨child, hchild, hget⟩ := Option.bind_eq_some_iff.mp h
    have hfind : p.find? key = some child := hchild
    simp only [deleteKeys, hfind, ih hget he, Json.store_of_find?_some hfind]

/-- The keys of a path before its last one. -/
def parentKeys (key_path : Bytes) : List Bytes := (keysOf key_path).1.dropLast

def lastKey (key_path : Bytes) : Bytes := (keysOf key_path).1.getLast (keysOf key_path).2

theorem parentKeys_append_lastKey (key_path : Bytes) :
    parentKeys key_path ++ [lastKey key_path] = (keysOf key_path).1 :=
  List.dropLast_append_getLast _

/-- What a call of `deleteValue` does: nothing, a write of the node without its last key, or a
throw. -/
theorem deleteValue_cases (config : ConfigManager) (key_path : Bytes) :
    (Json.tree.get config.config_ (parentKeys key_path) = none ∧
      config.deleteValue key_path = (.ok (), config)) ∨
    ∃ parent, Json.tree.get config.config_ (parentKeys key_path) = some parent ∧
      ((∃ parent' config', parent.erase (lastKey key_path) = .ok parent' ∧
          config.deleteValue key_path = (.ok (), config') ∧
          Json.tree.set parent' config.config_ (parentKeys key_path) = some config'.config_) ∨
        ∃ e, parent.erase (lastKey key_path) = .error e ∧
          config.deleteValue key_path = (.error e, config)) := by
  have hkeys := keysOf_eq_cons key_path
  have hparent : parentKeys key_path = ((keysOf key_path).1.head (keysOf key_path).2 ::
      (keysOf key_path).1.tail).dropLast := congrArg List.dropLast hkeys
  have hlast : lastKey key_path = ((keysOf key_path).1.head (keysOf key_path).2 ::
      (keysOf key_path).1.tail).getLast (List.cons_ne_nil _ _) := by
    unfold lastKey
    congr 1
  rw [hparent, hlast]
  unfold deleteValue
  dsimp only
  generalize (keysOf key_path).1.head (keysOf key_path).2 = key
  generalize (keysOf key_path).1.tail = keys
  cases hget : Json.tree.get config.config_ (key :: keys).dropLast with
  | none => exact Or.inl ⟨rfl, by rw [deleteKeys_of_get_none hget]⟩
  | some parent =>
    refine Or.inr ⟨parent, rfl, ?_⟩
    cases he : parent.erase ((key :: keys).getLast (List.cons_ne_nil _ _)) with
    | ok parent' =>
      obtain ⟨p', hrun, hset⟩ := deleteKeys_of_erase_ok hget he
      exact Or.inl ⟨parent', ⟨p'⟩, rfl, by rw [hrun], hset⟩
    | error e => exact Or.inr ⟨e, rfl, by rw [deleteKeys_of_erase_error hget he]⟩

/-- `deleteValue` returns, the path leads nowhere afterwards, paths that branch off are not touched,
and nothing changes if the path led nowhere before. -/
def Deletes (config : ConfigManager) (key_path : Bytes) : Prop :=
  (config.deleteValue key_path).1 = .ok () ∧
  (config.deleteValue key_path).2.getValue key_path = .null ∧
  (∀ q : Bytes, ¬ (keysOf q).1 <+: (keysOf key_path).1 →
    ¬ (keysOf key_path).1 <+: (keysOf q).1 →
    (config.deleteValue key_path).2.getValue q = config.getValue q) ∧
  (Json.tree.get config.config_ (keysOf key_path).1 = none →
    (config.deleteValue key_path).2 = config)

theorem deletes_of_get_none {config : ConfigManager} {key_path : Bytes}
    (h : Json.tree.get config.config_ (parentKeys key_path) = none)
    (hrun : config.deleteValue key_path = (.ok (), config)) : Deletes config key_path := by
  rw [Deletes, hrun]
  refine ⟨rfl, ?_, fun _ _ _ => rfl, fun _ => rfl⟩
  rw [getValue, getKeys_eq, ← parentKeys_append_lastKey, KeyedTree.get_append, h, Option.bind_none,
    Option.getD_none]

/-- A path that branches off leaves the written node before its end, or passes through it to
another key than the erased one. -/
theorem get_erased_of_branch {p p' parent parent' : Json} {key_path q : Bytes}
    (hget : Json.tree.get p (parentKeys key_path) = some parent)
    (he : parent.erase (lastKey key_path) = .ok parent')
    (hset : Json.tree.set parent' p (parentKeys key_path) = some p')
    (hq : ¬ (keysOf q).1 <+: (keysOf key_path).1) (hkey : ¬ (keysOf key_path).1 <+: (keysOf q).1) :
    Json.tree.get p' (keysOf q).1 = Json.tree.get p (keysOf q).1 := by
  rw [← parentKeys_append_lastKey key_path] at hq hkey
  by_cases hthrough : parentKeys key_path <+: (keysOf q).1
  · obtain ⟨js, hjs⟩ := hthrough
    rw [← hjs] at hq hkey ⊢
    rw [Json.tree.get_set_append hset, KeyedTree.get_append, hget, Option.bind_some]
    cases js with
    | nil =>
      rw [List.append_nil] at hq
      exact absurd (List.prefix_append _ _) hq
    | cons j js =>
      have hj : j ≠ lastKey key_path := by
        rintro rfl
        apply hkey
        rw [List.prefix_append_right_inj, List.cons_prefix_cons]
        exact ⟨rfl, List.nil_prefix⟩
      have hchild : Json.tree.child parent' j = Json.tree.child parent j :=
        Json.find?_erase_of_ne he hj
      rw [KeyedTree.get, KeyedTree.get, hchild]
  · have hfresh : ∀ k, Json.tree.child Json.tree.fresh k = none := fun _ => rfl
    apply Json.tree.get_set_of_branch hfresh hset
    · exact fun hpre => hq (hpre.trans (List.prefix_append _ _))
    · exact hthrough

theorem deletes_of_erase_ok {config config' : ConfigManager} {key_path : Bytes}
    {parent parent' : Json}
    (hget : Json.tree.get config.config_ (parentKeys key_path) = some parent)
    (he : parent.erase (lastKey key_path) = .ok parent')
    (hrun : config.deleteValue key_path = (.ok (), config'))
    (hset : Json.tree.set parent' config.config_ (parentKeys key_path) = some config'.config_) :
    Deletes config key_path := by
  rw [Deletes, hrun]
  refine ⟨rfl, ?_, fun q hq hkey => ?_, fun hnone => ?_⟩
  · have hchild : Json.tree.child parent' (lastKey key_path) = none := Json.find?_erase_self he
    rw [getValue, getKeys_eq, ← parentKeys_append_lastKey, Json.tree.get_set_append hset,
      KeyedTree.get, hchild, Option.bind_none, Option.getD_none]
  · rw [getValue, getValue, getKeys_eq, getKeys_eq, get_erased_of_branch hget he hset hq hkey]
  · -- the last key was not there, so the node is written back as it was
    rw [← parentKeys_append_lastKey, KeyedTree.get_append, hget, Option.bind_some,
      KeyedTree.get] at hnone
    have hchild : parent.find? (lastKey key_path) = none := by
      cases hfind : parent.find? (lastKey key_path) with
      | none => rfl
      | some child =>
        have hT : Json.tree.child parent (lastKey key_path) = some child := hfind
        rw [hT, Option.bind_some, KeyedTree.get] at hnone
        cases hnone
    rw [Json.erase_of_find?_none he hchild,
      Json.tree.set_self (fun _ _ _ => Json.tree_attach_of_child) hget] at hset
    exact congrArg ConfigManager.mk (Option.some.inj hset).symm

/-- `deleteValue` does what it should exactly when the node that the last key is erased from is an
object or not there: `erase` throws on every other node, the null of an empty configuration
included. -/
theorem deletes_iff (config : ConfigManager) (key_path : Bytes) :
    Deletes config key_path ↔
      ∀ parent, Json.tree.get config.config_ (parentKeys key_path) = some parent →
        ∃ o, parent = .object o := by
  rcases deleteValue_cases config key_path with ⟨hget, hrun⟩ | ⟨parent, hget, hcases⟩
  · constructor
    · intro _ parent hparent
      rw [hget] at hparent
      cases hparent
    · exact fun _ => deletes_of_get_none hget hrun
  · rcases hcases with ⟨parent', config', he, hrun, hset⟩ | ⟨e, he, hrun⟩
    · constructor
      · intro _ p hp
        obtain rfl : parent = p := Option.some.inj (hget.symm.trans hp)
        exact Json.erase_eq_ok_iff.mp ⟨parent', he⟩
      · exact fun _ => deletes_of_erase_ok hget he hrun hset
    · constructor
      · intro hdel
        rw [Deletes, hrun] at hdel
        cases hdel.1
      · intro hobject
        obtain ⟨parent', hok⟩ := Json.erase_eq_ok_iff.mpr (hobject parent hget)
        rw [hok] at he
        cases he

/-- Deleting "a/b" where "a" is a number throws. -/
theorem not_deletes_number :
    ¬ Deletes ⟨.object [(bytes "a", .numberInteger 5)]⟩ (bytes "a/b") := by
  intro h
  cases h.1

end ConfigManager

end OpenAPT
