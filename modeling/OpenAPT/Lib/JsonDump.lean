import OpenAPT.Lib.JsonText

/-! The writer of JSON texts as one that can throw inside a string. What it has written until then
stays in the stream. -/
namespace JsonText
open Readers

/-- A part of the writer: it takes what is in the stream, and returns what is in it then, as an
error where it throws. -/
abbrev Writer := Text → Except Text Text

namespace Writer

def put (w : Text) : Writer := fun out => .ok (out ++ w)

def andThen (first second : Writer) : Writer := fun out => first out >>= second

/-- The writer adds `w`. -/
def Puts (writer : Writer) (w : Text) : Prop := ∀ out, writer out = .ok (out ++ w)

def Throws (writer : Writer) : Prop := ∀ out, ∃ out', writer out = .error out'

variable {first second : Writer} {w₁ w₂ : Text}

theorem puts_put (w : Text) : Puts (put w) w := fun _ => rfl

theorem Puts.andThen (h₁ : Puts first w₁) (h₂ : Puts second w₂) :
    Puts (first.andThen second) (w₁ ++ w₂) := by
  intro out
  show (first out >>= second) = _
  rw [h₁]
  show second (out ++ w₁) = _
  rw [h₂, List.append_assoc]

theorem Throws.andThen_left (h : Throws first) (second : Writer) :
    Throws (first.andThen second) := by
  intro out
  obtain ⟨out', hout'⟩ := h out
  refine ⟨out', ?_⟩
  show (first out >>= second) = _
  rw [hout']
  rfl

/-- Whether the first one throws or not, what comes after it does. -/
theorem Throws.andThen_right (h : Throws second) (first : Writer) :
    Throws (first.andThen second) := by
  intro out
  show ∃ out', (first out >>= second) = _
  cases first out with
  | error out' => exact ⟨out', rfl⟩
  | ok out' => exact h out'

end Writer

open Writer

section

variable (string : Text → Writer)

def dumpString (s : Text) : Writer :=
  (put [quote]).andThen ((string s).andThen (put [quote]))

mutual

def dump (step indent : ℕ) : Value → Writer
  | .null => put nullText
  | .boolean b => put (boolText b)
  | .number w => put w
  | .string s => dumpString string s
  | .array elements =>
    if elements.isEmpty then put [0x5B, 0x5D]
    else (put [0x5B]).andThen ((dumpElements step (indent + step) elements).andThen
      (put (line indent ++ [0x5D])))
  | .object members =>
    if members.isEmpty then put [0x7B, 0x7D]
    else (put [0x7B]).andThen ((dumpMembers step (indent + step) members).andThen
      (put (line indent ++ [0x7D])))

def dumpElements (step indent : ℕ) : List Value → Writer
  | [] => put []
  | [v] => (put (line indent)).andThen (dump step indent v)
  | v :: next :: elements =>
    ((put (line indent)).andThen (dump step indent v)).andThen
      ((put [comma]).andThen (dumpElements step indent (next :: elements)))

def dumpMembers (step indent : ℕ) : List (Text × Value) → Writer
  | [] => put []
  | [m] => dumpMember step indent m
  | m :: next :: members =>
    (dumpMember step indent m).andThen
      ((put [comma]).andThen (dumpMembers step indent (next :: members)))

def dumpMember (step indent : ℕ) : Text × Value → Writer
  | (key, v) => (put (line indent)).andThen ((dumpString string key).andThen
      ((put [colon, 0x20]).andThen (dump step indent v)))

end

/-- Writers of elements with commas between them. -/
def dumpJoined {α : Type} (writer : α → Writer) : List α → Writer
  | [] => put []
  | [a] => writer a
  | a :: b :: as => (writer a).andThen ((put [comma]).andThen (dumpJoined writer (b :: as)))

theorem dumpElements_eq (step indent : ℕ) (elements : List Value) :
    dumpElements string step indent elements =
      dumpJoined (fun v => (put (line indent)).andThen (dump string step indent v)) elements := by
  induction elements with
  | nil => rfl
  | cons v elements ih =>
    cases elements with
    | nil => rfl
    | cons next elements => rw [dumpElements, dumpJoined, ih]

theorem dumpMembers_eq (step indent : ℕ) (members : List (Text × Value)) :
    dumpMembers string step indent members =
      dumpJoined (dumpMember string step indent) members := by
  induction members with
  | nil => rfl
  | cons m members ih =>
    cases members with
    | nil => rfl
    | cons next members => rw [dumpMembers, dumpJoined, ih]

variable {string}

theorem puts_dumpJoined {α : Type} {writer : α → Writer} {write : α → Text} {as : List α}
    (h : ∀ a ∈ as, Puts (writer a) (write a)) : Puts (dumpJoined writer as) (joined write as) := by
  induction as with
  | nil => exact puts_put []
  | cons a as ih =>
    rw [List.forall_mem_cons] at h
    cases as with
    | nil => exact h.1
    | cons b as => exact h.1.andThen ((puts_put [comma]).andThen (ih h.2))

theorem throws_dumpJoined {α : Type} {writer : α → Writer} {a : α} {as : List α} (ha : a ∈ as)
    (h : Throws (writer a)) : Throws (dumpJoined writer as) := by
  induction as with
  | nil => cases ha
  | cons b as ih =>
    cases as with
    | nil =>
      rw [List.mem_singleton] at ha
      exact ha ▸ h
    | cons c as =>
      rcases List.mem_cons.mp ha with rfl | ha
      · exact h.andThen_left _
      · exact ((ih ha).andThen_right (put [comma])).andThen_right (writer b)

section Whole

variable {d : Dialect}

theorem puts_dumpString (hputs : ∀ s, d.takesString s = true → Puts (string s) (escape s))
    {s : Text} (h : d.takesString s = true) :
    Puts (dumpString string s) (quote :: (escape s ++ [quote])) :=
  (puts_put [quote]).andThen ((hputs s h).andThen (puts_put [quote]))

/-- A value whose strings the writer takes is written whole. -/
theorem puts_dump (hputs : ∀ s, d.takesString s = true → Puts (string s) (escape s)) {v : Value}
    (h : Written d v) (step : ℕ) :
    ∀ indent, Puts (dump string step indent v) (write step indent v) := by
  induction h with
  | null => exact fun _ => puts_put nullText
  | boolean b => exact fun _ => puts_put (boolText b)
  | number hw htakes => exact fun _ => puts_put _
  | string htakes => exact fun _ => puts_dumpString hputs htakes
  | array helements ih =>
    rename_i elements
    intro indent
    by_cases hne : elements = []
    · subst hne
      exact puts_put [0x5B, 0x5D]
    · rw [write_array hne, dump, if_neg (by simpa using hne), dumpElements_eq]
      refine (puts_put [0x5B]).andThen (Puts.andThen (puts_dumpJoined fun v hv => ?_) (puts_put _))
      exact (puts_put _).andThen (ih v hv (indent + step))
  | object hkeys hmembers ih =>
    rename_i members
    intro indent
    by_cases hne : members = []
    · subst hne
      exact puts_put [0x7B, 0x7D]
    · rw [write_object hne, dump, if_neg (by simpa using hne), dumpMembers_eq]
      refine (puts_put [0x7B]).andThen (Puts.andThen (puts_dumpJoined fun m hm => ?_) (puts_put _))
      obtain ⟨key, v⟩ := m
      have hkey := puts_dumpString hputs (hkeys (key, v) hm)
      have hmember := (puts_put (line (indent + step))).andThen
        (hkey.andThen ((puts_put [colon, 0x20]).andThen (ih (key, v) hm (indent + step))))
      rw [writeMember, dumpMember]
      simpa only [List.cons_append, List.append_assoc, List.nil_append] using hmember

end Whole

/-- Some string of the value is refused. -/
inductive Refused (refuses : Text → Prop) : Value → Prop
  | string {s : Text} (hs : refuses s) : Refused refuses (.string s)
  | element {elements : List Value} {v : Value} (hv : v ∈ elements) (h : Refused refuses v) :
      Refused refuses (.array elements)
  | key {members : List (Text × Value)} {m : Text × Value} (hm : m ∈ members) (h : refuses m.1) :
      Refused refuses (.object members)
  | member {members : List (Text × Value)} {m : Text × Value} (hm : m ∈ members)
      (h : Refused refuses m.2) : Refused refuses (.object members)

section Thrown

variable {refuses : Text → Prop}

theorem throws_dumpString (hthrows : ∀ s, refuses s → Throws (string s)) {s : Text}
    (h : refuses s) : Throws (dumpString string s) :=
  ((hthrows s h).andThen_left (put [quote])).andThen_right (put [quote])

theorem throws_object {step indent : ℕ} {members : List (Text × Value)} {m : Text × Value}
    (hm : m ∈ members) (h : Throws (dumpMember string step (indent + step) m)) :
    Throws (dump string step indent (.object members)) := by
  have hne : members ≠ [] := List.ne_nil_of_mem hm
  rw [dump, if_neg (by simpa using hne), dumpMembers_eq]
  exact ((throws_dumpJoined hm h).andThen_left _).andThen_right (put [0x7B])

/-- A value with a refused string is not written whole. -/
theorem throws_dump (hthrows : ∀ s, refuses s → Throws (string s)) {v : Value}
    (h : Refused refuses v) (step : ℕ) : ∀ indent, Throws (dump string step indent v) := by
  induction h with
  | string hs => exact fun _ => throws_dumpString hthrows hs
  | element hv h ih =>
    intro indent
    have hne := List.ne_nil_of_mem hv
    rw [dump, if_neg (by simpa using hne), dumpElements_eq]
    have helement := (ih (indent + step)).andThen_right (put (line (indent + step)))
    have helements : Throws (dumpJoined (fun v =>
        (put (line (indent + step))).andThen (dump string step (indent + step) v)) _) :=
      throws_dumpJoined hv helement
    exact (helements.andThen_left _).andThen_right (put [0x5B])
  | key hm h =>
    intro indent
    apply throws_object hm
    rw [dumpMember]
    exact ((throws_dumpString hthrows h).andThen_left _).andThen_right _
  | member hm h ih =>
    intro indent
    apply throws_object hm
    rw [dumpMember]
    exact (((ih (indent + step)).andThen_right (put [colon, 0x20])).andThen_right _).andThen_right _

end Thrown

end

end JsonText
