import OpenAPT.Bytes
import OpenAPT.Lib.KeyedList
import OpenAPT.Lib.KeyedTree

/-! The values of `nlohmann::json` and the members of it the components use. -/
namespace OpenAPT

/-- An exception derived from `std::exception`, by its `what()` text. -/
structure StdException where
  what : Bytes
  deriving DecidableEq

/-- A `nlohmann::json` value. Objects are `std::map`s in key order, and a float is kept as the bits
of its binary64. -/
inductive Json
  | null
  | boolean (b : Bool)
  | numberInteger (i : Int64)
  | numberUnsigned (n : UInt64)
  | numberFloat (bits : UInt64)
  | string (s : Bytes)
  | binary (data : Bytes) (subtype : Option UInt64)
  | array (a : List Json)
  | object (o : List (Bytes × Json))

namespace Json

def typeName : Json → Bytes
  | null => bytes "null"
  | object _ => bytes "object"
  | array _ => bytes "array"
  | string _ => bytes "string"
  | boolean _ => bytes "boolean"
  | binary _ _ => bytes "binary"
  | numberInteger _ | numberUnsigned _ | numberFloat _ => bytes "number"

def empty : Json → Bool
  | null => true
  | array a => a.isEmpty
  | object o => o.isEmpty
  | _ => false

/-- `contains(key)` followed by the const `operator[](key)`: `none` where `contains` is false. -/
def find? (key : Bytes) : Json → Option Json
  | object o => KeyedList.find? key o
  | _ => none

def contains (j : Json) (key : Bytes) : Bool := (j.find? key).isSome

/-- `get<std::string>()`. -/
def getString : Json → Except StdException Bytes
  | string s => .ok s
  | j => .error ⟨bytes "[json.exception.type_error.302] type must be string, but is " ++ j.typeName⟩

/-- `get<bool>()`. -/
def getBool : Json → Except StdException Bool
  | boolean b => .ok b
  | j =>
    .error ⟨bytes "[json.exception.type_error.302] type must be boolean, but is " ++ j.typeName⟩

/-- The const `operator[](key)`. A missing member of an object is not allowed there. -/
def constIndex (key : Bytes) : Json → Except StdException Json
  | object o => .ok ((KeyedList.find? key o).getD .null)
  | j => .error ⟨bytes
      "[json.exception.type_error.305] cannot use operator[] with a string argument with " ++
      j.typeName⟩

/-- `get<int>()`: integers are cut to 32 bits, and the conversion of a float is given. -/
def getInt (floatToInt : UInt64 → Int32) : Json → Except StdException Int32
  | boolean b => .ok (if b then 1 else 0)
  | numberInteger i => .ok i.toInt32
  | numberUnsigned n => .ok n.toUInt32.toInt32
  | numberFloat bits => .ok (floatToInt bits)
  | j => .error ⟨bytes "[json.exception.type_error.302] type must be number, but is " ++ j.typeName⟩

/-- The node after the non-const `operator[](key)`: a null becomes an object, and a missing entry
is added with the value null. -/
def index (key : Bytes) : Json → Except StdException Json
  | null => .ok (object [(key, null)])
  | object o => .ok (object (KeyedList.emplace key null o))
  | j => .error ⟨bytes
      "[json.exception.type_error.305] cannot use operator[] with a string argument with " ++
      j.typeName⟩

/-- A write through the reference `operator[](key)` returned. -/
def store (j : Json) (key : Bytes) (value : Json) : Json :=
  match j with
  | object o => object (KeyedList.replace key value o)
  | j => j

/-- The node after `erase(key)`. -/
def erase (key : Bytes) : Json → Except StdException Json
  | object o => .ok (object (KeyedList.eraseAll key o))
  | j => .error ⟨bytes "[json.exception.type_error.307] cannot use erase() with " ++ j.typeName⟩

mutual

/-- Whether `dump()` returns: in strict mode it throws on the first string or key that is not
valid UTF-8. -/
def dumpable : Json → Bool
  | string s => validUtf8 s
  | array a => dumpableElements a
  | object o => dumpableMembers o
  | _ => true

def dumpableElements : List Json → Bool
  | [] => true
  | j :: a => j.dumpable && dumpableElements a

def dumpableMembers : List (Bytes × Json) → Bool
  | [] => true
  | m :: o => dumpableMember m && dumpableMembers o

def dumpableMember : Bytes × Json → Bool
  | (key, j) => validUtf8 key && j.dumpable

end

theorem dumpableElements_eq (a : List Json) : dumpableElements a = a.all dumpable := by
  induction a with
  | nil => rfl
  | cons j a ih => rw [dumpableElements, List.all_cons, ih]

theorem dumpableMembers_eq (o : List (Bytes × Json)) : dumpableMembers o = o.all dumpableMember := by
  induction o with
  | nil => rfl
  | cons m o ih => rw [dumpableMembers, List.all_cons, ih]

theorem find?_index_store_self {key : Bytes} {value j j' : Json} (h : j.index key = .ok j') :
    (j'.store key value).find? key = some value := by
  cases j with
  | null =>
    obtain rfl := Except.ok.inj h
    simp only [store, find?, KeyedList.replace, KeyedList.find?, ↓reduceIte]
  | object o =>
    obtain rfl := Except.ok.inj h
    exact KeyedList.find?_replace_self (KeyedList.find?_emplace_isSome key null o)
  | _ => cases h

theorem find?_index_store_of_ne {key other : Bytes} {value j j' : Json} (h : j.index key = .ok j')
    (hne : other ≠ key) : (j'.store key value).find? other = j.find? other := by
  cases j with
  | null =>
    obtain rfl := Except.ok.inj h
    simp only [store, find?, KeyedList.replace, KeyedList.find?, hne.symm, ↓reduceIte]
  | object o =>
    obtain rfl := Except.ok.inj h
    exact (KeyedList.find?_replace_of_ne hne value _).trans
      (KeyedList.find?_emplace_of_ne hne null o)
  | _ => cases h

/-- On an entry that is there, `operator[]` changes nothing. -/
theorem index_of_find?_some {key : Bytes} {j child : Json} (h : j.find? key = some child) :
    j.index key = .ok j := by
  cases j with
  | object o =>
    simp only [find?] at h
    simp only [index, KeyedList.emplace, h, Option.isSome_some, ↓reduceIte]
  | _ => cases h

theorem store_of_find?_some {key : Bytes} {j child : Json} (h : j.find? key = some child) :
    j.store key child = j := by
  cases j with
  | object o => exact congrArg object (KeyedList.replace_eq_self h)
  | _ => cases h

theorem erase_eq_ok_iff {key : Bytes} {j : Json} :
    (∃ j', j.erase key = .ok j') ↔ ∃ o, j = object o := by
  cases j with
  | object o => exact ⟨fun _ => ⟨o, rfl⟩, fun _ => ⟨_, rfl⟩⟩
  | _ => constructor <;> rintro ⟨_, ⟨⟩⟩

theorem find?_erase_self {key : Bytes} {j j' : Json} (h : j.erase key = .ok j') :
    j'.find? key = none := by
  obtain ⟨o, rfl⟩ := erase_eq_ok_iff.mp ⟨j', h⟩
  obtain rfl := Except.ok.inj h
  exact KeyedList.find?_eraseAll_self key o

theorem find?_erase_of_ne {key other : Bytes} {j j' : Json} (h : j.erase key = .ok j')
    (hne : other ≠ key) : j'.find? other = j.find? other := by
  obtain ⟨o, rfl⟩ := erase_eq_ok_iff.mp ⟨j', h⟩
  obtain rfl := Except.ok.inj h
  exact KeyedList.find?_eraseAll_of_ne hne o

theorem erase_of_find?_none {key : Bytes} {j j' : Json} (h : j.erase key = .ok j')
    (hnone : j.find? key = none) : j' = j := by
  obtain ⟨o, rfl⟩ := erase_eq_ok_iff.mp ⟨j', h⟩
  obtain rfl := Except.ok.inj h
  exact congrArg object (KeyedList.eraseAll_of_find?_none hnone)

theorem ok_of_toOption {ε α : Type*} {x : Except ε α} {a : α} (h : x.toOption = some a) :
    x = .ok a := by
  cases x with
  | error e => cases h
  | ok b => exact congrArg Except.ok (Option.some.inj h)

/-- JSON nodes as a tree of keys: an object's members are its children, `operator[]` followed by a
write attaches one, and null is the node created on the way. -/
def tree : KeyedTree Bytes Json where
  child j key := j.find? key
  attach j key c := (j.index key).toOption.map fun j' => j'.store key c
  fresh := null
  child_attach := by
    intro n n' key c h
    obtain ⟨m, hm, rfl⟩ := Option.map_eq_some_iff.mp h
    exact find?_index_store_self (ok_of_toOption hm)
  child_attach_of_ne := by
    intro n n' j key c h hne
    obtain ⟨m, hm, rfl⟩ := Option.map_eq_some_iff.mp h
    exact find?_index_store_of_ne (ok_of_toOption hm) hne

/-- Attaching the child that is there changes nothing. -/
theorem tree_attach_of_child {j child : Json} {key : Bytes} (h : tree.child j key = some child) :
    tree.attach j key child = some j := by
  have hindex := index_of_find?_some h
  have hstore := store_of_find?_some h
  simp only [tree, hindex, Except.toOption, Option.map_some, hstore]

end Json

end OpenAPT
