import OpenAPT.AchievementList
import OpenAPT.Lib.JsonNumber
import OpenAPT.MergePatch

/-! `dump` and `operator>>` of `nlohmann::json`: a value as a text and what is read back. -/
namespace OpenAPT
open JsonText (Value Dialect Writable IsNumber IsInteger IsFraction IsExponent)

/-- How a finite binary64 is printed, and what `strtod` makes of a number text. -/
structure FloatText where
  text : UInt64 → Bytes
  value : Bytes → UInt64

namespace FloatText

/-- `std::isfinite` of the binary64 with these bits. -/
def isFinite (bits : UInt64) : Bool := (bits >>> 52) &&& 0x7FF ≠ 0x7FF

/-- Every finite binary64 is printed with a point or an exponent, and `strtod` gives it back. -/
structure Exact (floats : FloatText) : Prop where
  number : ∀ bits, isFinite bits = true → ∃ i f e, floats.text bits = i ++ (f ++ e) ∧
    IsInteger i ∧ IsFraction f ∧ IsExponent e ∧ (f ≠ [] ∨ e ≠ [])
  value : ∀ bits, isFinite bits = true → floats.value (floats.text bits) = bits

end FloatText

namespace Json

variable (floats : FloatText)

mutual

/-- The value that `dump` writes. An infinity or a NaN becomes a null. The text of a binary is left
out. -/
def toValue : Json → Value
  | null | binary _ _ => .null
  | boolean b => .boolean b
  | numberInteger i => .number (Decimals.intText i.toInt)
  | numberUnsigned n => .number (Decimals.natText n.toNat)
  | numberFloat bits => if FloatText.isFinite bits then .number (floats.text bits) else .null
  | string s => .string s
  | array a => .array (toElements a)
  | object o => .object (toMembers o)

def toElements : List Json → List Value
  | [] => []
  | j :: a => toValue j :: toElements a

def toMembers : List (Bytes × Json) → List (Bytes × Value)
  | [] => []
  | m :: o => toMember m :: toMembers o

def toMember : Bytes × Json → Bytes × Value
  | (key, j) => (key, toValue j)

end

/-- What the lexer makes of an integer text, `none` where it falls back to a float. -/
def integer? : Bytes → Option Json
  -- a minus makes the number signed, and nothing else does
  | 0x2D :: w => (Decimals.nat? w).bind fun n =>
    if n ≤ 2 ^ 63 then some (numberInteger (Int64.ofInt (-n))) else none
  | w => (Decimals.nat? w).bind fun n =>
    if n < 2 ^ 64 then some (numberUnsigned (UInt64.ofNat n)) else none

def ofNumber (w : Bytes) : Json := (integer? w).getD (numberFloat (floats.value w))

/-- The parser takes valid UTF-8, and no number that overflows. -/
def dialect : Dialect where
  takesString := validUtf8
  takesNumber w := (integer? w).isSome || FloatText.isFinite (floats.value w)

mutual

/-- The value made of what was parsed; the last of equal keys stands. -/
def ofValue : Value → Json
  | .null => null
  | .boolean b => boolean b
  | .number w => ofNumber floats w
  | .string s => string s
  | .array elements => array (ofElements elements)
  | .object members =>
    object ((ofMembers members).foldl (fun m e => KeyedList.insert e.1 e.2 m) [])

def ofElements : List Value → List Json
  | [] => []
  | v :: elements => ofValue v :: ofElements elements

def ofMembers : List (Bytes × Value) → List (Bytes × Json)
  | [] => []
  | m :: members => ofMember m :: ofMembers members

def ofMember : Bytes × Value → Bytes × Json
  | (key, v) => (key, ofValue v)

end

mutual

/-- A value after it was written and read: a number that is not negative comes back unsigned, and an
infinity or a NaN as a null. -/
def reread : Json → Json
  | numberInteger i => if 0 ≤ i then numberUnsigned i.toUInt64 else numberInteger i
  | numberFloat bits => if FloatText.isFinite bits then numberFloat bits else null
  | array a => array (rereadElements a)
  | object o => object (rereadMembers o)
  | j => j

def rereadElements : List Json → List Json
  | [] => []
  | j :: a => reread j :: rereadElements a

def rereadMembers : List (Bytes × Json) → List (Bytes × Json)
  | [] => []
  | m :: o => rereadMember m :: rereadMembers o

def rereadMember : Bytes × Json → Bytes × Json
  | (key, j) => (key, reread j)

end

/-- Every object in the value has its keys in order, and there is no binary in it. -/
inductive Textual : Json → Prop
  | null : Textual null
  | boolean (b : Bool) : Textual (boolean b)
  | numberInteger (i : Int64) : Textual (numberInteger i)
  | numberUnsigned (n : UInt64) : Textual (numberUnsigned n)
  | numberFloat (bits : UInt64) : Textual (numberFloat bits)
  | string (s : Bytes) : Textual (string s)
  | array {a : List Json} (helements : ∀ j ∈ a, Textual j) : Textual (array a)
  | object {o : List (Bytes × Json)} (hkeys : KeyedList.Sorted o)
      (hmembers : ∀ e ∈ o, Textual e.2) : Textual (object o)

variable {floats}

theorem toElements_eq_map (a : List Json) : toElements floats a = a.map (toValue floats) := by
  induction a with
  | nil => rfl
  | cons j a ih => exact congrArg (toValue floats j :: ·) ih

theorem toMembers_eq_map (o : List (Bytes × Json)) :
    toMembers floats o = o.map fun e => (e.1, toValue floats e.2) := by
  induction o with
  | nil => rfl
  | cons e o ih =>
    obtain ⟨key, j⟩ := e
    exact congrArg ((key, toValue floats j) :: ·) ih

theorem ofElements_eq_map (elements : List Value) :
    ofElements floats elements = elements.map (ofValue floats) := by
  induction elements with
  | nil => rfl
  | cons v elements ih => exact congrArg (ofValue floats v :: ·) ih

theorem ofMembers_eq_map (members : List (Bytes × Value)) :
    ofMembers floats members = members.map fun m => (m.1, ofValue floats m.2) := by
  induction members with
  | nil => rfl
  | cons m members ih =>
    obtain ⟨key, v⟩ := m
    exact congrArg ((key, ofValue floats v) :: ·) ih

theorem rereadElements_eq_map (a : List Json) : rereadElements a = a.map reread := by
  induction a with
  | nil => rfl
  | cons j a ih => exact congrArg (reread j :: ·) ih

theorem rereadMembers_eq_map (o : List (Bytes × Json)) :
    rereadMembers o = o.map fun e => (e.1, reread e.2) := by
  induction o with
  | nil => rfl
  | cons e o ih =>
    obtain ⟨key, j⟩ := e
    exact congrArg ((key, reread j) :: ·) ih

/-! Number texts. -/

theorem nat?_of_not_digit {w : Bytes} {b : UInt8} (hb : b ∈ w) (h : Readers.isDigit b = false) :
    Decimals.nat? w = none := by
  rw [Decimals.nat?, if_neg]
  intro hw
  have hdigit := List.all_eq_true.mp hw.2 b hb
  rw [h] at hdigit
  exact Bool.false_ne_true hdigit

theorem integer?_of_digit {b : UInt8} {w : Bytes} (h : Readers.isDigit b = true) :
    integer? (b :: w) = (Decimals.nat? (b :: w)).bind fun n =>
      if n < 2 ^ 64 then some (numberUnsigned (UInt64.ofNat n)) else none := by
  have hsign : b ≠ 0x2D := by
    rintro rfl
    exact absurd h (by decide)
  rw [integer?]
  intro w' hw
  exact hsign (List.cons.inj hw).1

theorem integer?_natText {n : ℕ} (h : n < 2 ^ 64) :
    integer? (Decimals.natText n) = some (numberUnsigned (UInt64.ofNat n)) := by
  have hnat := Decimals.nat?_natText n
  cases htext : Decimals.natText n with
  | nil => exact absurd htext (Decimals.natText_ne_nil n)
  | cons b w =>
    have hdigit := Decimals.isDigit_natText n b (htext ▸ List.mem_cons_self)
    rw [htext] at hnat
    rw [integer?_of_digit hdigit, hnat, Option.bind_some, if_pos h]

theorem integer?_intText (i : Int64) :
    integer? (Decimals.intText i.toInt) = some (reread (numberInteger i)) := by
  have hbounds := And.intro i.le_toInt i.toInt_lt
  have hof : Int64.ofInt i.toInt = i := Int64.ofInt_toInt i
  -- the sign decides which of the two types the text is read as
  cases hi : i.toInt with
  | ofNat n =>
    have hn : n < 2 ^ 64 := by
      rw [hi] at hbounds
      have hlt : (n : ℤ) < 2 ^ 63 := hbounds.2
      omega
    have hpos : 0 ≤ i := by
      rw [Int64.le_iff_toInt_le, hi]
      exact Int.natCast_nonneg n
    have hunsigned : UInt64.ofNat n = i.toUInt64 := by
      rw [← hof, hi]
      rfl
    rw [Decimals.intText, integer?_natText hn, reread, if_pos hpos, hunsigned]
  | negSucc n =>
    have hn : n + 1 ≤ 2 ^ 63 := by
      rw [hi] at hbounds
      have hle := hbounds.1
      omega
    have hneg : ¬ 0 ≤ i := by
      rw [Int64.le_iff_toInt_le, hi]
      exact Int.not_le.mpr (Int.negSucc_lt_zero n)
    have hvalue : Int64.ofInt (-((n + 1 : ℕ) : ℤ)) = i := by
      rw [← hof, hi]
      rfl
    rw [Decimals.intText, integer?, Decimals.nat?_natText, Option.bind_some, if_pos hn, hvalue,
      reread, if_neg hneg]

/-- A text with a point or an exponent is no integer. -/
theorem integer?_of_fraction {i f e : Bytes} (hi : IsInteger i) (hf : IsFraction f)
    (he : IsExponent e) (hne : f ≠ [] ∨ e ≠ []) : integer? (i ++ (f ++ e)) = none := by
  -- the point or the letter of the exponent stops the digits
  have hother : ∃ b ∈ f ++ e, Readers.isDigit b = false := by
    rcases hf with rfl | ⟨d, rfl, -⟩
    · rcases he with rfl | ⟨b, sign, d, rfl, hb, -⟩
      · exact absurd hne (by simp only [ne_eq, not_true_eq_false, or_self, not_false_eq_true])
      · refine ⟨b, List.mem_cons_self, ?_⟩
        rcases hb with rfl | rfl
        · rfl
        · rfl
    · exact ⟨0x2E, List.mem_append_left _ List.mem_cons_self, rfl⟩
  obtain ⟨b, hb, hdigit⟩ := hother
  have hdecimal {d : Bytes} : Decimals.nat? (d ++ (f ++ e)) = none :=
    nat?_of_not_digit (List.mem_append_right d hb) hdigit
  rcases hi with hi | ⟨d, rfl, -⟩
  · cases i with
    | nil => exact absurd rfl hi.ne_nil
    | cons c d =>
      have hnone : Decimals.nat? (c :: (d ++ (f ++ e))) = none := hdecimal (d := c :: d)
      rw [List.cons_append, integer?_of_digit (hi.digits c List.mem_cons_self), hnone]
      rfl
  · rw [List.cons_append, integer?, hdecimal]
    rfl

/-- The texts in a value stay the same. -/
theorem dumpable_reread {j : Json} (h : Textual j) : (reread j).dumpable = j.dumpable := by
  induction h with
  | numberInteger i =>
    rw [reread]
    split_ifs
    · rfl
    · rfl
  | numberFloat bits =>
    rw [reread]
    split_ifs
    · rfl
    · rfl
  | @array a _ ih =>
    rw [reread, dumpable, dumpable, dumpableElements_eq, dumpableElements_eq,
      rereadElements_eq_map, List.all_map, Bool.eq_iff_iff, List.all_eq_true, List.all_eq_true]
    exact forall₂_congr fun j hj => by rw [Function.comp_apply, ih j hj]
  | @object o _ _ ih =>
    rw [reread, dumpable, dumpable, dumpableMembers_eq, dumpableMembers_eq, rereadMembers_eq_map,
      List.all_map, Bool.eq_iff_iff, List.all_eq_true, List.all_eq_true]
    exact forall₂_congr fun e he => by
      rw [Function.comp_apply, dumpableMember, dumpableMember, ih e he]
  | _ => rfl

theorem find?_reread (j : Json) (key : Bytes) : (reread j).find? key = (j.find? key).map reread := by
  cases j with
  | numberInteger i =>
    rw [reread]
    split_ifs
    · rfl
    · rfl
  | numberFloat bits =>
    rw [reread]
    split_ifs
    · rfl
    · rfl
  | object o =>
    rw [reread, find?, find?, rereadMembers_eq_map]
    induction o with
    | nil => rfl
    | cons e o ih =>
      obtain ⟨k, j⟩ := e
      rw [List.map_cons, KeyedList.find?, KeyedList.find?, ih]
      split_ifs
      · rfl
      · rfl
  | _ => rfl

theorem ordered_ofNumber (w : Bytes) : Ordered (ofNumber floats w) := by
  have hinteger : ∀ j ∈ integer? w, ∀ o, j ≠ object o := by
    intro j hj o
    unfold integer? at hj
    split at hj
    · obtain ⟨n, -, hn⟩ := Option.bind_eq_some_iff.mp hj
      rw [← (Option.some.inj (Option.ite_none_right_eq_some.mp hn).2)]
      exact nofun
    · obtain ⟨n, -, hn⟩ := Option.bind_eq_some_iff.mp hj
      rw [← (Option.some.inj (Option.ite_none_right_eq_some.mp hn).2)]
      exact nofun
  rw [ofNumber]
  cases hw : integer? w with
  | none => exact .leaf fun _ => nofun
  | some j => exact .leaf (hinteger j hw)

mutual

/-- What the parser makes of a text has its keys in order. -/
theorem ordered_ofValue : (v : Value) → Ordered (ofValue floats v)
  | .object members => by
    rw [ofValue]
    refine .object (KeyedList.sorted_nil.foldl_insert strictTotal_bytes _) fun e he => ?_
    exact ordered_ofMembers members e (KeyedList.mem_foldl_insert he)
  | .number w => by
    rw [ofValue]
    exact ordered_ofNumber w
  | .null | .boolean _ | .string _ | .array _ => by
    rw [ofValue]
    exact .leaf fun _ => nofun

theorem ordered_ofMembers : (members : List (Bytes × Value)) →
    ∀ e ∈ ofMembers floats members, Ordered e.2
  | [], _, he => absurd he List.not_mem_nil
  | m :: members, e, he => by
    rcases List.mem_cons.mp he with rfl | he
    · exact ordered_ofMember m
    · exact ordered_ofMembers members e he

theorem ordered_ofMember : (m : Bytes × Value) → Ordered (ofMember floats m).2
  | (_, v) => ordered_ofValue v

end

/-! The round trip. -/

variable (hfloats : floats.Exact)
include hfloats

theorem writable_toValue {j : Json} (h : Textual j) (hdump : j.dumpable = true) :
    Writable (dialect floats) (toValue floats j) := by
  have htakes {w : Bytes} {j : Json} (hw : integer? w = some j) :
      (dialect floats).takesNumber w = true := by
    simp only [dialect, hw, Option.isSome_some, Bool.true_or]
  induction h with
  | null => exact .null
  | boolean b => exact .boolean b
  | numberInteger i =>
    exact .number (JsonText.isInteger_intText i.toInt).isNumber (htakes (integer?_intText i))
  | numberUnsigned n =>
    have hinteger := JsonText.isInteger_intText (n.toNat : ℤ)
    exact .number hinteger.isNumber (htakes (integer?_natText n.toNat_lt))
  | numberFloat bits =>
    rw [toValue]
    split_ifs with hfinite
    -- what is printed is read back, so it is finite when it is read
    · obtain ⟨i, f, e, htext, hi, hf, he, hne⟩ := hfloats.number bits hfinite
      have hnumber : IsNumber (floats.text bits) := ⟨i, f, e, hi, hf, he, htext⟩
      apply Writable.number hnumber
      have hvalue := hfloats.value bits hfinite
      simp only [dialect, hvalue, hfinite, Bool.or_true]
    · exact .null
  | string s => exact .string hdump
  | array _ ih =>
    rw [dumpable, dumpableElements_eq, List.all_eq_true] at hdump
    rw [toValue, toElements_eq_map]
    apply Writable.array
    intro v hv
    obtain ⟨j, hj, rfl⟩ := List.mem_map.mp hv
    exact ih j hj (hdump j hj)
  | @object o _ _ ih =>
    rw [dumpable, dumpableMembers_eq, List.all_eq_true] at hdump
    have hmember (e : Bytes × Json) (he : e ∈ o) : validUtf8 e.1 = true ∧ e.2.dumpable = true := by
      have hboth := hdump e he
      rwa [dumpableMember, Bool.and_eq_true] at hboth
    rw [toValue, toMembers_eq_map]
    apply Writable.object
    · intro m hm
      obtain ⟨e, he, rfl⟩ := List.mem_map.mp hm
      exact (hmember e he).1
    · intro m hm
      obtain ⟨e, he, rfl⟩ := List.mem_map.mp hm
      exact ih e he (hmember e he).2

/-- What is written is read back up to the signs and the nulls. -/
theorem ofValue_toValue {j : Json} (h : Textual j) :
    ofValue floats (toValue floats j) = reread j := by
  induction h with
  | null => rfl
  | boolean b => rfl
  | numberInteger i =>
    rw [toValue, ofValue, ofNumber, integer?_intText]
    rfl
  | numberUnsigned n =>
    rw [toValue, ofValue, ofNumber, integer?_natText n.toNat_lt, UInt64.ofNat_toNat]
    rfl
  | numberFloat bits =>
    rw [toValue, reread]
    split_ifs with hfinite
    · obtain ⟨i, f, e, htext, hi, hf, he, hne⟩ := hfloats.number bits hfinite
      have hnone := integer?_of_fraction hi hf he hne
      rw [← htext] at hnone
      rw [ofValue, ofNumber, hnone, hfloats.value bits hfinite]
      rfl
    · rfl
  | string s => rfl
  | array _ ih =>
    rw [toValue, ofValue, reread, toElements_eq_map, ofElements_eq_map, rereadElements_eq_map,
      List.map_map]
    exact congrArg Json.array (List.map_congr_left ih)
  | @object o hkeys _ ih =>
    have hmembers : ofMembers floats (toMembers floats o) = rereadMembers o := by
      rw [toMembers_eq_map, ofMembers_eq_map, rereadMembers_eq_map, List.map_map]
      exact List.map_congr_left fun e he => congrArg (Prod.mk e.1) (ih e he)
    -- the keys are written in order, so inserting them one by one gives the same list
    have hsorted : KeyedList.Sorted (rereadMembers o) := by
      rw [rereadMembers_eq_map, KeyedList.Sorted, List.map_map]
      exact hkeys
    rw [toValue, ofValue, reread, hmembers,
      KeyedList.foldl_insert_of_sorted strictTotal_bytes hsorted]

end Json

end OpenAPT
