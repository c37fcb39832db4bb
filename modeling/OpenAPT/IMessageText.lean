import Mathlib.Data.Int.Notation
import Mathlib.Data.List.Nodup
import OpenAPT.Bytes
import OpenAPT.IMessage
import OpenAPT.Lib.JsonText
import OpenAPT.Lib.KeyedList
import OpenAPT.Lib.XmlText

/-! The two texts of an `IMessage`, and what their receivers read. -/
namespace OpenAPT
open JsonText (Value Dialect)
open XmlText (Node)

namespace IMessage

section
variable (showDouble : UInt64 → Bytes)

/-- What `toJson` inserts for the value. -/
def jsonValue : StdAny → Bytes
  | .int i => bytes (toString i.toInt)
  | .double bits => showDouble bits
  | .bool b => if b then bytes "true" else bytes "false"
  | .string s => bytes "\"" ++ s ++ bytes "\""
  | .unset => []
  | .other _ => []

def toJson (m : IMessage) : Bytes :=
  bytes "\x7b" ++
    (bytes "\"device_name\":\"" ++ m.device_name ++ bytes "\",") ++
    (bytes "\"device_uuid\":\"" ++ m.device_uuid ++ bytes "\",") ++
    (bytes "\"message_uuid\":\"" ++ m.message_uuid ++ bytes "\",") ++
    (bytes "\"name\":\"" ++ m.name ++ bytes "\",") ++
    bytes "\"value\":" ++ jsonValue showDouble m.value ++ bytes "\x7d"

/-- What `toXml` inserts for the value. -/
def xmlValue : StdAny → Bytes
  | .int i => bytes (toString i.toInt)
  | .double bits => showDouble bits
  | .bool b => if b then bytes "true" else bytes "false"
  | .string s => s
  | .unset => []
  | .other _ => []

def toXml (m : IMessage) : Bytes :=
  bytes "<message>" ++
    (bytes "<device_name>" ++ m.device_name ++ bytes "</device_name>") ++
    (bytes "<device_uuid>" ++ m.device_uuid ++ bytes "</device_uuid>") ++
    (bytes "<message_uuid>" ++ m.message_uuid ++ bytes "</message_uuid>") ++
    (bytes "<name>" ++ m.name ++ bytes "</name>") ++
    bytes "<value>" ++ xmlValue showDouble m.value ++ bytes "</value>" ++ bytes "</message>"

end

/-! The receivers. -/

/-- A number that is an `int`. -/
def int32? (w : Bytes) : Option Int32 :=
  (Decimals.int? w).bind fun i =>
    if -2147483648 ≤ i ∧ i < 2147483648 then some (Int32.ofInt i) else none

/-- A message from the texts under its names and from its value. -/
def assemble (text : Bytes → Option Bytes) (value : Option StdAny) : Option IMessage := do
  let device_name ← text (bytes "device_name")
  let device_uuid ← text (bytes "device_uuid")
  let message_uuid ← text (bytes "message_uuid")
  let name ← text (bytes "name")
  let value ← value
  some ⟨device_name, device_uuid, message_uuid, name, value⟩

def stringOf? : Value → Option Bytes
  | .string s => some s
  | _ => none

def anyOf? : Value → Option StdAny
  | .null => some .unset
  | .number w => (int32? w).map .int
  | .boolean b => some (.bool b)
  | .string s => some (.string s)
  | _ => none

/-- The last member of a name counts. -/
def fromMembers (members : List (Bytes × Value)) : Option IMessage :=
  assemble (fun key => (KeyedList.find? key members.reverse).bind stringOf?)
    ((KeyedList.find? (bytes "value") members.reverse).bind anyOf?)

/-- Every string of valid UTF-8 and every number is taken. -/
def dialect : Dialect := ⟨validUtf8, fun _ => true⟩

/-- The message of a JSON text. -/
def decodeJson (text : Bytes) : Option IMessage := do
  let (v, rest) ← JsonText.read dialect text
  if rest.all Readers.isSpace then
    match v with
    | .object members => fromMembers members
    | _ => none
  else none

def textOf? : List Node → Option Bytes
  | [] => some []
  | [.text s] => some s
  | _ => none

/-- The text of the first element of a name. -/
def elementText (nodes : List Node) (tag : Bytes) : Option Bytes :=
  (nodes.findSome? fun
    | .element t _ children => if t = tag then some children else none
    | .text _ => none).bind textOf?

/-- The types a receiver can take the text of a value for. -/
inductive ValueType
  | int
  | bool
  | string
  | unset
  deriving DecidableEq

def typeOf? : StdAny → Option ValueType
  | .int _ => some .int
  | .bool _ => some .bool
  | .string _ => some .string
  | .unset => some .unset
  | .double _ => none
  | .other _ => none

/-- The value of a type that has the text. -/
def typed (t : Bytes) : ValueType → Option StdAny
  | .int => (int32? t).map .int
  | .bool =>
    if t = bytes "true" then some (.bool true)
    else if t = bytes "false" then some (.bool false)
    else none
  | .string => some (.string t)
  | .unset => if t = [] then some .unset else none

/-- The message of an XML text. There are no types in it, so a receiver has its own rule for them,
which goes by the message with the text of its value. -/
def decodeXml (type : IMessage → ValueType) (text : Bytes) : Option IMessage :=
  if validUtf8 text ∧ XmlText.legal text then
    match XmlText.document text with
    | some (.element tag _ children) => do
      let t ← elementText children (bytes "value")
      -- The rule sees the message before it has a value of a type.
      let m ← assemble (elementText children) (some (.string t))
      let value ← typed t (type m)
      if tag = bytes "message" then some { m with value } else none
    | _ => none
  else none

def valueTexts : StdAny → List Bytes
  | .string s => [s]
  | _ => []

/-- The texts that are inserted as they are. -/
def texts (m : IMessage) : List Bytes :=
  [m.device_name, m.device_uuid, m.message_uuid, m.name] ++ valueTexts m.value

/-- Valid UTF-8 without control bytes and noncharacters. -/
structure Printable (s : Bytes) : Prop where
  utf8 : validUtf8 s = true
  legal : XmlText.legal s = true
  control : ∀ b ∈ s, 0x20 ≤ b

/-- Printable texts, and a value that is an `int`, a `bool`, a string or not set. -/
structure Ordinary (m : IMessage) : Prop where
  printable : ∀ s ∈ m.texts, Printable s
  type : (typeOf? m.value).isSome

section
variable (showDouble : UInt64 → Bytes)

def JsonCarries (m : IMessage) : Prop := decodeJson (m.toJson showDouble) = some m

def XmlCarries (type : IMessage → ValueType) (m : IMessage) : Prop :=
  decodeXml type (m.toXml showDouble) = some m

end

theorem bytes_toString_int (i : ℤ) : bytes (toString i) = Decimals.intText i := by
  have hnat (n : ℕ) : bytes (toString n) = Decimals.natText n := by
    rw [bytes, Nat.toString_eq_repr, Nat.toList_repr, Decimals.natText]
  cases i with
  | ofNat n => exact hnat n
  | negSucc n =>
    have hminus : bytes "-" = [0x2D] := rfl
    have hsplit : bytes (toString (Int.negSucc n)) = bytes "-" ++ bytes (toString (n + 1)) := by
      have htext : toString (Int.negSucc n) = "-" ++ toString (n + 1) := rfl
      rw [htext, bytes, String.toList_append, List.map_append, bytes, bytes]
    rw [hsplit, hminus, hnat, Decimals.intText, List.singleton_append]

theorem int32?_intText (i : Int32) : int32? (Decimals.intText i.toInt) = some i := by
  have hlower := i.le_toInt
  have hupper := i.toInt_lt
  have hbounds : -2147483648 ≤ i.toInt ∧ i.toInt < 2147483648 := by omega
  rw [int32?, Decimals.int?_intText, Option.bind_some, if_pos hbounds, Int32.ofInt_toInt]

theorem length_of_int32? {w : Bytes} {i : Int32} (h : int32? w = some i) :
    (Decimals.intText i.toInt).length ≤ w.length := by
  obtain ⟨j, hj, h⟩ := Option.bind_eq_some_iff.mp h
  split_ifs at h with hbounds
  have hi : i.toInt = j := by
    rw [← Option.some.inj h, Int32.toInt_ofInt_of_le] <;> omega
  rw [hi]
  exact Decimals.length_intText_of_int? hj

theorem forall_mem_texts {m : IMessage} {P : Bytes → Prop} : (∀ s ∈ m.texts, P s) ↔
    P m.device_name ∧ P m.device_uuid ∧ P m.message_uuid ∧ P m.name ∧
      ∀ s ∈ valueTexts m.value, P s := by
  simp only [texts, List.cons_append, List.nil_append, List.forall_mem_cons]

/-- A message is assembled from its own texts and value. -/
theorem assemble_eq_some_iff {text : Bytes → Option Bytes} {value : Option StdAny} {m : IMessage} :
    assemble text value = some m ↔ text (bytes "device_name") = some m.device_name ∧
      text (bytes "device_uuid") = some m.device_uuid ∧
      text (bytes "message_uuid") = some m.message_uuid ∧
      text (bytes "name") = some m.name ∧ value = some m.value := by
  constructor
  · intro h
    obtain ⟨device_name, h1, h⟩ := Option.bind_eq_some_iff.mp h
    obtain ⟨device_uuid, h2, h⟩ := Option.bind_eq_some_iff.mp h
    obtain ⟨message_uuid, h3, h⟩ := Option.bind_eq_some_iff.mp h
    obtain ⟨name, h4, h⟩ := Option.bind_eq_some_iff.mp h
    obtain ⟨v, h5, h⟩ := Option.bind_eq_some_iff.mp h
    obtain rfl := Option.some.inj h
    exact ⟨h1, h2, h3, h4, h5⟩
  · intro ⟨h1, h2, h3, h4, h5⟩
    simp only [assemble, h1, h2, h3, h4, h5, Option.bind_eq_bind, Option.bind_some]

/-! JSON. -/

def valueOf? : StdAny → Option Value
  | .int i => some (.number (bytes (toString i.toInt)))
  | .bool b => some (.boolean b)
  | .string s => some (.string s)
  | _ => none

/-- The members of a message with a value. -/
def jsonMembers (m : IMessage) (v : Value) : List (Bytes × Value) :=
  [(bytes "device_name", .string m.device_name), (bytes "device_uuid", .string m.device_uuid),
    (bytes "message_uuid", .string m.message_uuid), (bytes "name", .string m.name),
    (bytes "value", v)]

section
variable {showDouble : UInt64 → Bytes} {m : IMessage}

/-- The bytes that `toJson` inserts, and those around them. -/
theorem length_toJson (m : IMessage) : (m.toJson showDouble).length =
    72 + (m.device_name.length + m.device_uuid.length + m.message_uuid.length + m.name.length) +
      (jsonValue showDouble m.value).length := by
  have h1 : (bytes "\x7b").length = 1 := rfl
  have h2 : (bytes "\"device_name\":\"").length = 15 := rfl
  have h3 : (bytes "\"device_uuid\":\"").length = 15 := rfl
  have h4 : (bytes "\"message_uuid\":\"").length = 16 := rfl
  have h5 : (bytes "\"name\":\"").length = 8 := rfl
  have h6 : (bytes "\"value\":").length = 8 := rfl
  have h7 : (bytes "\",").length = 2 := rfl
  have h8 : (bytes "\x7d").length = 1 := rfl
  rw [toJson]
  simp only [List.length_append, h1, h2, h3, h4, h5, h6, h7, h8]
  omega

theorem valueOf?_cases {a : StdAny} {v : Value} (h : valueOf? a = some v) :
    (∃ i, a = .int i ∧ v = .number (bytes (toString i.toInt))) ∨
      (∃ b, a = .bool b ∧ v = .boolean b) ∨ ∃ s, a = .string s ∧ v = .string s := by
  cases a with
  | int i => exact Or.inl ⟨i, rfl, (Option.some.inj h).symm⟩
  | bool b => exact Or.inr (Or.inl ⟨b, rfl, (Option.some.inj h).symm⟩)
  | string s => exact Or.inr (Or.inr ⟨s, rfl, (Option.some.inj h).symm⟩)
  | _ => cases h

theorem exists_valueOf? {a : StdAny} (h : (typeOf? a).isSome) (hset : a ≠ .unset) :
    ∃ v, valueOf? a = some v := by
  cases a with
  | unset => exact absurd rfl hset
  | double bits => cases h
  | other type => cases h
  | _ => exact ⟨_, rfl⟩

theorem anyOf?_of_valueOf? {a : StdAny} {v : Value} (h : valueOf? a = some v) :
    anyOf? v = some a := by
  obtain ⟨i, rfl, rfl⟩ | ⟨b, rfl, rfl⟩ | ⟨s, rfl, rfl⟩ := valueOf?_cases h
  · rw [anyOf?, bytes_toString_int, int32?_intText, Option.map_some]
  · rfl
  · rfl

theorem write_of_valueOf? {a : StdAny} {v : Value} (h : valueOf? a = some v)
    (hplain : ∀ s ∈ valueTexts a, JsonText.escape s = s) :
    JsonText.write 0 0 v = jsonValue showDouble a := by
  obtain ⟨i, rfl, rfl⟩ | ⟨b, rfl, rfl⟩ | ⟨s, rfl, rfl⟩ := valueOf?_cases h
  · rfl
  · cases b <;> rfl
  · rw [JsonText.write, hplain s List.mem_cons_self]
    rfl

theorem written_of_valueOf? {a : StdAny} {v : Value} (h : valueOf? a = some v)
    (hutf8 : ∀ s ∈ valueTexts a, validUtf8 s = true) : JsonText.Written dialect v := by
  obtain ⟨i, rfl, rfl⟩ | ⟨b, rfl, rfl⟩ | ⟨s, rfl, rfl⟩ := valueOf?_cases h
  · rw [bytes_toString_int]
    exact JsonText.Written.number (JsonText.isInteger_intText _) rfl
  · exact JsonText.Written.boolean b
  · exact JsonText.Written.string (hutf8 s List.mem_cons_self)

theorem fromMembers_jsonMembers {v : Value} (h : valueOf? m.value = some v) :
    fromMembers (jsonMembers m v) = some m :=
  assemble_eq_some_iff.mpr ⟨rfl, rfl, rfl, rfl, anyOf?_of_valueOf? h⟩

/-- Where nothing has to be escaped, the text is that of the members. -/
theorem toJson_eq {v : Value} (h : valueOf? m.value = some v)
    (hplain : ∀ s ∈ m.texts, ∀ b ∈ s, JsonText.Special b = false) :
    m.toJson showDouble = JsonText.compactObject (jsonMembers m v) := by
  have hescape : ∀ s ∈ m.texts, JsonText.escape s = s := fun s hs =>
    JsonText.escape_of_plain (hplain s hs)
  obtain ⟨hdevice_name, hdevice_uuid, hmessage_uuid, hname, hstring⟩ := forall_mem_texts.mp hescape
  have hvalue : JsonText.write 0 0 v = jsonValue showDouble m.value := write_of_valueOf? h hstring
  simp only [toJson, JsonText.compactObject, jsonMembers, Readers.joined, JsonText.compactMember,
    JsonText.write, hdevice_name, hdevice_uuid, hmessage_uuid, hname, hvalue, List.append_assoc,
    List.cons_append, List.nil_append]
  rfl

/-- What is read for a value takes its text, an escape for each special byte, and something where no
value is set. -/
theorem shallowSize_of_anyOf? (showDouble : UInt64 → Bytes) {a : StdAny} {v : Value}
    (h : anyOf? v = some a) :
    (jsonValue showDouble a).length + (valueTexts a).flatten.countP JsonText.Special +
      (if a = .unset then 1 else 0) ≤ JsonText.shallowSize v := by
  cases v with
  | null =>
    obtain rfl := Option.some.inj h
    simp [jsonValue, valueTexts, JsonText.shallowSize]
  | boolean b =>
    obtain rfl := Option.some.inj h
    cases b <;> exact Nat.le_refl _
  | number w =>
    obtain ⟨i, hi, rfl⟩ := Option.map_eq_some_iff.mp h
    have hle := length_of_int32? hi
    rw [← bytes_toString_int] at hle
    simpa [jsonValue, valueTexts, JsonText.shallowSize] using hle
  | string s =>
    obtain rfl := Option.some.inj h
    have hquote : bytes "\"" = [JsonText.quote] := rfl
    simp [jsonValue, valueTexts, JsonText.shallowSize, JsonText.stringSize, hquote]
    omega
  | _ => cases h

/-- The members that a message is read from. -/
theorem exists_of_fromMembers {members : List (Bytes × Value)} (h : fromMembers members = some m) :
    ∃ v, anyOf? v = some m.value ∧ ∀ e ∈ jsonMembers m v, e ∈ members := by
  have hstring {key s : Bytes}
      (hs : (KeyedList.find? key members.reverse).bind stringOf? = some s) :
      (key, Value.string s) ∈ members := by
    obtain ⟨u, hu, hs⟩ := Option.bind_eq_some_iff.mp hs
    have hmem := List.mem_reverse.mp (KeyedList.mem_of_find? hu)
    cases u with
    | string s' =>
      obtain rfl := Option.some.inj hs
      exact hmem
    | _ => cases hs
  obtain ⟨h1, h2, h3, h4, h5⟩ := assemble_eq_some_iff.mp h
  obtain ⟨v, hv, hvalue⟩ := Option.bind_eq_some_iff.mp h5
  have hmem := List.mem_reverse.mp (KeyedList.mem_of_find? hv)
  -- What is found under a name is a member, the last of its name.
  refine ⟨v, hvalue, ?_⟩
  simp only [jsonMembers, List.forall_mem_cons]
  exact ⟨hstring h1, hstring h2, hstring h3, hstring h4, hmem, fun e he => by cases he⟩

theorem nodup_jsonMembers (m : IMessage) (v : Value) : (jsonMembers m v).Nodup := by
  have hkeys : [bytes "device_name", bytes "device_uuid", bytes "message_uuid", bytes "name",
    bytes "value"].Nodup := by decide
  have heq : (jsonMembers m v).map Prod.fst = [bytes "device_name", bytes "device_uuid",
    bytes "message_uuid", bytes "name", bytes "value"] := rfl
  rw [← heq] at hkeys
  exact List.Nodup.of_map Prod.fst hkeys

/-- The least text of the members. -/
theorem total_jsonMembers (m : IMessage) (v : Value) :
    Readers.total JsonText.memberSize (jsonMembers m v) =
      71 + (JsonText.stringSize m.device_name + JsonText.stringSize m.device_uuid +
        JsonText.stringSize m.message_uuid + JsonText.stringSize m.name) +
          JsonText.shallowSize v := by
  have hdevice_name : JsonText.stringSize (bytes "device_name") = 11 := rfl
  have hdevice_uuid : JsonText.stringSize (bytes "device_uuid") = 11 := rfl
  have hmessage_uuid : JsonText.stringSize (bytes "message_uuid") = 12 := rfl
  have hname : JsonText.stringSize (bytes "name") = 4 := rfl
  have hkey : JsonText.stringSize (bytes "value") = 5 := rfl
  have hstring (s : Bytes) : JsonText.shallowSize (.string s) = JsonText.stringSize s + 2 := rfl
  simp only [jsonMembers, Readers.total_cons, Readers.total_nil, JsonText.memberSize, hstring,
    hdevice_name, hdevice_uuid, hmessage_uuid, hname, hkey]
  omega

/-- A text that is read back is as long as what is read takes, so that nothing in it is special. -/
theorem not_special_of_jsonCarries (h : JsonCarries showDouble m) :
    m.value ≠ .unset ∧ ∀ s ∈ m.texts, ∀ b ∈ s, JsonText.Special b = false := by
  obtain ⟨⟨v, rest⟩, hread, h⟩ := Option.bind_eq_some_iff.mp h
  dsimp only at h
  split_ifs at h
  split at h
  · rename_i members
    obtain ⟨w, hvalue, hmem⟩ := exists_of_fromMembers h
    -- The members of the five names are different, so the text has room for each of them.
    have hsum := (Readers.isSum_total JsonText.memberSize).le_of_nodup (nodup_jsonMembers m w) hmem
    have hbound := JsonText.value_bounded _ _ _ _ hread
    have hshallow := shallowSize_of_anyOf? showDouble hvalue
    have hsize : JsonText.size (.object members) =
      1 + Readers.total JsonText.memberSize members := rfl
    -- Without the escapes and the value, both sides are equal.
    have hcount : m.texts.flatten.countP JsonText.Special +
        (if m.value = .unset then 1 else 0) = 0 := by
      rw [length_toJson, hsize] at hbound
      rw [total_jsonMembers] at hsum
      simp only [texts, List.cons_append, List.nil_append, List.flatten_cons, List.countP_append]
      simp only [JsonText.stringSize] at hsum
      omega
    obtain ⟨hspecial, hunset⟩ := Nat.add_eq_zero_iff.mp hcount
    constructor
    · intro hm
      rw [if_pos hm] at hunset
      cases hunset
    · intro s hs b hb
      have hnot := List.countP_eq_zero.mp hspecial b (List.mem_flatten_of_mem hs hb)
      exact Bool.eq_false_iff.mpr hnot
  · cases h

theorem special_eq_false_iff {b : UInt8} (h : 0x20 ≤ b) :
    JsonText.Special b = false ↔ b ≠ JsonText.quote ∧ b ≠ JsonText.backslash := by
  simp [JsonText.Special, h]

/-- The JSON text carries a message exactly if there is a value and nothing has to be escaped. -/
theorem jsonCarries_iff (h : m.Ordinary) : JsonCarries showDouble m ↔
    m.value ≠ .unset ∧ ∀ s ∈ m.texts, ∀ b ∈ s, b ≠ JsonText.quote ∧ b ≠ JsonText.backslash := by
  constructor
  · intro hcarries
    obtain ⟨hunset, hspecial⟩ := not_special_of_jsonCarries hcarries
    refine ⟨hunset, fun s hs b hb => ?_⟩
    exact (special_eq_false_iff ((h.printable s hs).control b hb)).mp (hspecial s hs b hb)
  · intro ⟨hunset, hplain⟩
    have hspecial : ∀ s ∈ m.texts, ∀ b ∈ s, JsonText.Special b = false := fun s hs b hb =>
      (special_eq_false_iff ((h.printable s hs).control b hb)).mpr (hplain s hs b hb)
    have hutf8 : ∀ s ∈ m.texts, validUtf8 s = true := fun s hs => (h.printable s hs).utf8
    obtain ⟨hdevice_name, hdevice_uuid, hmessage_uuid, hname, hstring⟩ := forall_mem_texts.mp hutf8
    obtain ⟨v, hv⟩ := exists_valueOf? h.type hunset
    -- The reader stops behind the closing brace, where the text ends.
    have hread : JsonText.read dialect (m.toJson showDouble) =
        some (.object (jsonMembers m v), []) := by
      rw [toJson_eq hv hspecial]
      apply JsonText.read_compactObject (List.cons_ne_nil _ _)
      · simp only [List.forall_mem_cons]
        exact ⟨rfl, rfl, rfl, rfl, rfl, fun e he => by cases he⟩
      · simp only [List.forall_mem_cons]
        exact ⟨JsonText.Written.string hdevice_name, JsonText.Written.string hdevice_uuid,
          JsonText.Written.string hmessage_uuid, JsonText.Written.string hname,
          written_of_valueOf? hv hstring, fun e he => by cases he⟩
    simp only [JsonCarries, decodeJson, hread, Option.bind_eq_bind, Option.bind_some, List.all_nil,
      ↓reduceIte, fromMembers_jsonMembers hv]

end

/-! XML. -/

def xmlFields (showDouble : UInt64 → Bytes) (m : IMessage) : List (Bytes × Bytes) :=
  [(bytes "device_name", m.device_name), (bytes "device_uuid", m.device_uuid),
    (bytes "message_uuid", m.message_uuid), (bytes "name", m.name),
    (bytes "value", xmlValue showDouble m.value)]

/-- The message with the text of its value. -/
def untyped (showDouble : UInt64 → Bytes) (m : IMessage) : IMessage :=
  { m with value := .string (xmlValue showDouble m.value) }

section
variable {showDouble : UInt64 → Bytes} {m : IMessage} {type : IMessage → ValueType}

theorem toXml_eq : m.toXml showDouble =
    XmlText.textDocument (bytes "message") (m.xmlFields showDouble) := by
  simp only [toXml, XmlText.textDocument, xmlFields, XmlText.textElement, List.flatMap_cons,
    List.flatMap_nil, List.append_assoc, List.cons_append, List.nil_append]
  rfl

/-- The bytes of a number stand for themselves in both texts. -/
theorem intText_bytes (i : ℤ) : ∀ b ∈ bytes (toString i), Readers.isDigit b = true ∨ b = 0x2D := by
  rw [bytes_toString_int]
  cases i with
  | ofNat n =>
    intro b hb
    exact Or.inl (Decimals.isDigit_natText n b hb)
  | negSucc n =>
    intro b hb
    obtain rfl | hb := List.mem_cons.mp hb
    · exact Or.inr rfl
    · exact Or.inl (Decimals.isDigit_natText _ b hb)

/-- The text of a value is empty, one of the texts of the message, or plain ASCII. -/
theorem xmlValue_cases (showDouble : UInt64 → Bytes) (h : m.Ordinary) :
    xmlValue showDouble m.value ∈ m.texts ∨
    ∀ b ∈ xmlValue showDouble m.value, XmlText.isAscii b = true ∧ XmlText.isMarkup b = false ∧
      XmlText.isMark b = false ∧ b ≠ 0x5D := by
  have hdigit : ∀ b : UInt8, Readers.isDigit b = true ∨ b = 0x2D → XmlText.isAscii b = true ∧
      XmlText.isMarkup b = false ∧ XmlText.isMark b = false ∧ b ≠ 0x5D :=
    Readers.forall_byte (by decide +kernel)
  have hbool : ∀ b : Bool, ∀ c ∈ (if b then bytes "true" else bytes "false"),
      XmlText.isAscii c = true ∧ XmlText.isMarkup c = false ∧ XmlText.isMark c = false ∧
        c ≠ 0x5D := by decide +kernel
  have htype := h.type
  cases hm : m.value with
  | int i => exact Or.inr fun b hb => hdigit b (intText_bytes _ b hb)
  | bool b => exact Or.inr (hbool b)
  | string s => exact Or.inl (by simp [texts, valueTexts, xmlValue, hm])
  | unset => exact Or.inr fun b hb => by cases hb
  | _ =>
    rw [hm] at htype
    cases htype

/-- What the texts of a message have, and all plain ASCII, every field has. -/
theorem forall_mem_xmlFields (showDouble : UInt64 → Bytes) (h : m.Ordinary) {P : Bytes → Prop}
    (htexts : ∀ s ∈ m.texts, P s) (hascii : ∀ s, (∀ b ∈ s, XmlText.isAscii b = true ∧
      XmlText.isMarkup b = false ∧ XmlText.isMark b = false ∧ b ≠ 0x5D) → P s) :
    ∀ f ∈ m.xmlFields showDouble, P f.2 := by
  have hvalue : P (xmlValue showDouble m.value) := by
    obtain hmem | hplain := xmlValue_cases showDouble h
    · exact htexts _ hmem
    · exact hascii _ hplain
  obtain ⟨hdevice_name, hdevice_uuid, hmessage_uuid, hname, -⟩ := forall_mem_texts.mp htexts
  simp only [xmlFields, List.forall_mem_cons]
  exact ⟨hdevice_name, hdevice_uuid, hmessage_uuid, hname, hvalue, fun f hf => by cases hf⟩

theorem accepted_toXml (h : m.Ordinary) : validUtf8 (m.toXml showDouble) = true ∧
    XmlText.legal (m.toXml showDouble) = true := by
  have hascii : ∀ b : UInt8, XmlText.isAscii b = true → b ≤ 0x7F :=
    Readers.forall_byte (by decide +kernel)
  have hutf8 : ∀ f ∈ m.xmlFields showDouble, validUtf8 f.2 = true :=
    forall_mem_xmlFields showDouble h (fun s hs => (h.printable s hs).utf8) fun s hs =>
      validUtf8_of_ascii fun b hb => hascii b (hs b hb).1
  have hlegal : ∀ f ∈ m.xmlFields showDouble, XmlText.legal f.2 = true :=
    forall_mem_xmlFields showDouble h (fun s hs => (h.printable s hs).legal) fun s hs =>
      XmlText.legal_of_ascii fun b hb => (hs b hb).1
  have htag : ∀ b ∈ bytes "message", XmlText.isAscii b = true := by decide +kernel
  have hname : ∀ f ∈ m.xmlFields showDouble, ∀ b ∈ f.1, XmlText.isAscii b = true := by
    simp only [xmlFields, List.forall_mem_cons]
    exact ⟨by decide +kernel, by decide +kernel, by decide +kernel, by decide +kernel,
      by decide +kernel, fun f hf => by cases hf⟩
  rw [toXml_eq]
  constructor
  · apply XmlText.textDocument_rule (P := fun s => validUtf8 s = true) rfl _ htag hname
    · intro f hf b t _ ht
      rw [validUtf8_append (hutf8 f hf)]
      exact ht
    · intro b t hb ht
      have hbyte : validUtf8 [b] = true :=
        validUtf8_of_ascii fun c hc => List.mem_singleton.mp hc ▸ hascii b hb
      rw [← List.singleton_append, validUtf8_append hbyte]
      exact ht
  · apply XmlText.textDocument_rule (P := fun s => XmlText.legal s = true) rfl _ htag hname
    · intro f hf b t hb ht
      rw [XmlText.legal_append _ hb, hlegal f hf, ht]
      rfl
    · intro b t hb ht
      rw [XmlText.legal_cons hb, ht]

/-- The marks of a message's texts are all the marks of its XML text. -/
theorem marks_toXml : XmlText.marks (m.toXml showDouble) =
    XmlText.marks m.device_name + XmlText.marks m.device_uuid + XmlText.marks m.message_uuid +
      XmlText.marks m.name + XmlText.marks (xmlValue showDouble m.value) := by
  have hliteral : ∀ s ∈ ["<message>", "<device_name>", "</device_name>", "<device_uuid>",
      "</device_uuid>", "<message_uuid>", "</message_uuid>", "<name>", "</name>", "<value>",
      "</value>", "</message>"], XmlText.marks (bytes s) = 0 := by decide
  simp only [List.forall_mem_cons] at hliteral
  simp only [toXml, XmlText.marks_append, hliteral]
  omega

/-- The text that a value is read from has its marks, and one more where it has markup. -/
theorem marks_of_typed (showDouble : UInt64 → Bytes) {t : Bytes} {valueType : ValueType}
    {a : StdAny} (h : typed t valueType = some a) : XmlText.marks (xmlValue showDouble a) +
      min 1 ((valueTexts a).flatten.countP XmlText.isMarkup) ≤ XmlText.textWeight t := by
  cases valueType with
  | int =>
    obtain ⟨i, _, rfl⟩ := Option.map_eq_some_iff.mp h
    have hmark : ∀ b : UInt8, Readers.isDigit b = true ∨ b = 0x2D → XmlText.isMark b = false :=
      Readers.forall_byte (by decide +kernel)
    have hmarks : XmlText.marks (bytes (toString i.toInt)) = 0 := by
      rw [XmlText.marks, List.countP_eq_zero]
      intro b hb
      rw [hmark b (intText_bytes _ b hb)]
      exact Bool.false_ne_true
    rw [xmlValue, hmarks]
    exact Nat.zero_le _
  | bool =>
    rw [typed] at h
    split_ifs at h
    · obtain rfl := Option.some.inj h
      exact Nat.zero_le _
    · obtain rfl := Option.some.inj h
      exact Nat.zero_le _
  | string =>
    obtain rfl := Option.some.inj h
    simp [xmlValue, valueTexts, XmlText.textWeight]
  | unset =>
    rw [typed] at h
    split_ifs at h
    obtain rfl := Option.some.inj h
    exact Nat.zero_le _

theorem contentWeight_of_textOf? {nodes : List Node} {s : Bytes} (h : textOf? nodes = some s) :
    XmlText.contentWeight nodes = XmlText.textWeight s := by
  rw [textOf?.eq_def] at h
  split at h
  · obtain rfl := Option.some.inj h
    rfl
  · obtain rfl := Option.some.inj h
    rfl
  · cases h

/-- An element that a text is read from weighs as much as its text. -/
theorem exists_of_elementText {nodes : List Node} {tag s : Bytes}
    (h : elementText nodes tag = some s) :
    ∃ e ∈ nodes, e.tag = tag ∧ XmlText.weight e = XmlText.textWeight s := by
  obtain ⟨children, hfind, htext⟩ := Option.bind_eq_some_iff.mp h
  obtain ⟨e, he, hchildren⟩ := List.exists_of_findSome?_eq_some hfind
  refine ⟨e, he, ?_⟩
  cases e with
  | text w => cases hchildren
  | element name as nodes =>
    dsimp only at hchildren
    split_ifs at hchildren with hname
    obtain rfl := Option.some.inj hchildren
    refine ⟨hname, ?_⟩
    rw [XmlText.weight]
    exact contentWeight_of_textOf? htext

/-- The elements that a message is read from weigh as much as its texts. -/
theorem le_contentWeight_of_assemble {nodes : List Node} {t : Bytes}
    (h : assemble (elementText nodes) (some (.string t)) = some m)
    (ht : elementText nodes (bytes "value") = some t) :
    XmlText.textWeight m.device_name + XmlText.textWeight m.device_uuid +
      XmlText.textWeight m.message_uuid + XmlText.textWeight m.name + XmlText.textWeight t ≤
        XmlText.contentWeight nodes := by
  obtain ⟨h1, h2, h3, h4, -⟩ := assemble_eq_some_iff.mp h
  obtain ⟨e1, he1, htag1, hweight1⟩ := exists_of_elementText h1
  obtain ⟨e2, he2, htag2, hweight2⟩ := exists_of_elementText h2
  obtain ⟨e3, he3, htag3, hweight3⟩ := exists_of_elementText h3
  obtain ⟨e4, he4, htag4, hweight4⟩ := exists_of_elementText h4
  obtain ⟨e5, he5, htag5, hweight5⟩ := exists_of_elementText ht
  -- Elements of different names are different.
  have htags : ([e1, e2, e3, e4, e5].map Node.tag).Nodup := by
    simp only [List.map_cons, List.map_nil, htag1, htag2, htag3, htag4, htag5]
    decide
  have hmem : ∀ e ∈ [e1, e2, e3, e4, e5], e ∈ nodes := by
    simp only [List.forall_mem_cons]
    exact ⟨he1, he2, he3, he4, he5, fun e he => by cases he⟩
  have hsum := XmlText.isSum_contentWeight.le_of_nodup (List.Nodup.of_map _ htags) hmem
  simp only [XmlText.contentWeight, hweight1, hweight2, hweight3, hweight4, hweight5] at hsum
  omega

/-- A text that is read back has as many marks as what is read needs, so that there is no markup in
the message. -/
theorem not_markup_of_xmlCarries (h : XmlCarries showDouble type m) :
    ∀ s ∈ m.texts, ∀ b ∈ s, XmlText.isMarkup b = false := by
  rw [XmlCarries, decodeXml] at h
  split_ifs at h
  split at h
  · rename_i tag as children hdocument
    obtain ⟨t, ht, h⟩ := Option.bind_eq_some_iff.mp h
    obtain ⟨raw, hraw, h⟩ := Option.bind_eq_some_iff.mp h
    obtain ⟨value, htyped, h⟩ := Option.bind_eq_some_iff.mp h
    split_ifs at h
    obtain rfl := Option.some.inj h
    have hchildren := le_contentWeight_of_assemble hraw ht
    have hweight := XmlText.document_weight hdocument
    have hvalue := marks_of_typed showDouble htyped
    -- The text has no marks but those of the message, so none is left for markup.
    have hmarks : XmlText.marks (toXml showDouble { raw with value := value }) =
        XmlText.marks raw.device_name + XmlText.marks raw.device_uuid +
          XmlText.marks raw.message_uuid + XmlText.marks raw.name +
            XmlText.marks (xmlValue showDouble value) := marks_toXml
    have hcount : (texts { raw with value := value }).flatten.countP XmlText.isMarkup = 0 := by
      rw [XmlText.weight, hmarks] at hweight
      have h1 := XmlText.marks_le_textWeight raw.device_name
      have h2 := XmlText.marks_le_textWeight raw.device_uuid
      have h3 := XmlText.marks_le_textWeight raw.message_uuid
      have h4 := XmlText.marks_le_textWeight raw.name
      obtain ⟨hdevice_name, hdevice_uuid, hmessage_uuid, hname, hvalues⟩ :
          XmlText.textWeight raw.device_name ≤ XmlText.marks raw.device_name ∧
          XmlText.textWeight raw.device_uuid ≤ XmlText.marks raw.device_uuid ∧
          XmlText.textWeight raw.message_uuid ≤ XmlText.marks raw.message_uuid ∧
          XmlText.textWeight raw.name ≤ XmlText.marks raw.name ∧
          (valueTexts value).flatten.countP XmlText.isMarkup = 0 := by omega
      rw [XmlText.textWeight_le_marks_iff] at hdevice_name hdevice_uuid hmessage_uuid hname
      simp only [texts, List.cons_append, List.nil_append, List.flatten_cons, List.countP_append,
        hdevice_name, hdevice_uuid, hmessage_uuid, hname]
      rw [hvalues]
    intro s hs b hb
    have hnot := List.countP_eq_zero.mp hcount b (List.mem_flatten_of_mem hs hb)
    exact Bool.eq_false_iff.mpr hnot
  · cases h

theorem textOf?_addText (s : Bytes) : textOf? (XmlText.addText s []) = some s := by
  cases s <;> rfl

theorem exists_field_of_mem_texts (showDouble : UInt64 → Bytes) {s : Bytes} (h : s ∈ m.texts) :
    ∃ key, (key, s) ∈ m.xmlFields showDouble := by
  obtain h | h := List.mem_append.mp h
  · simp only [List.mem_cons, List.not_mem_nil, or_false] at h
    obtain rfl | rfl | rfl | rfl := h
    · exact ⟨bytes "device_name", by simp [xmlFields]⟩
    · exact ⟨bytes "device_uuid", by simp [xmlFields]⟩
    · exact ⟨bytes "message_uuid", by simp [xmlFields]⟩
    · exact ⟨bytes "name", by simp [xmlFields]⟩
  · refine ⟨bytes "value", ?_⟩
    cases hm : m.value with
    | string t =>
      rw [hm] at h
      rw [List.mem_singleton.mp h]
      simp [xmlFields, xmlValue, hm]
    | _ =>
      rw [hm] at h
      cases h

theorem isName_key : ∀ key ∈ ["message", "device_name", "device_uuid", "message_uuid", "name",
    "value"], XmlText.IsName (bytes key) := by
  have hall : ∀ key ∈ ["message", "device_name", "device_uuid", "message_uuid", "name", "value"],
      bytes key ≠ [] ∧ (bytes key).head?.any XmlText.isNameStart = true ∧
        ∀ b ∈ bytes key, XmlText.isNameByte b = true := by decide +kernel
  intro key hkey
  obtain ⟨hne, hhead, hbytes⟩ := hall key hkey
  exact ⟨hne, hhead, hbytes⟩

/-- A field closes a section exactly if a text does. -/
theorem any_closes_iff (h : m.Ordinary) :
    (m.xmlFields showDouble).any (fun f => XmlText.closes f.2) = true ↔
      ∃ s ∈ m.texts, XmlText.closes s = true := by
  constructor
  · intro hany
    by_contra hnone
    have hopen : ∀ f ∈ m.xmlFields showDouble, ¬XmlText.closes f.2 = true := by
      apply forall_mem_xmlFields showDouble h (P := fun s => ¬XmlText.closes s = true)
      · exact fun s hs hclose => hnone ⟨s, hs, hclose⟩
      · -- A number or a literal has no bracket.
        intro s hs hclose
        have hbracket : (0x5D : UInt8) ∈ XmlText.cdataClose := List.mem_cons_self
        have hmem := (XmlText.closes_iff.mp hclose).subset hbracket
        exact (hs _ hmem).2.2.2 rfl
    obtain ⟨f, hf, hclose⟩ := List.any_eq_true.mp hany
    exact hopen f hf hclose
  · rintro ⟨s, hs, hclose⟩
    obtain ⟨key, hmem⟩ := exists_field_of_mem_texts showDouble hs
    exact List.any_eq_true.mpr ⟨(key, s), hmem, hclose⟩

/-- The texts of the elements are those of the message. -/
theorem elementText_xmlFields (showDouble : UInt64 → Bytes) (m : IMessage) :
    elementText ((m.xmlFields showDouble).map XmlText.textNode) (bytes "value") =
      some (xmlValue showDouble m.value) ∧
    assemble (elementText ((m.xmlFields showDouble).map XmlText.textNode))
      (some (.string (xmlValue showDouble m.value))) = some (m.untyped showDouble) := by
  let nodes := (m.xmlFields showDouble).map XmlText.textNode
  have htext (key s : Bytes) (hs : elementText nodes key = textOf? (XmlText.addText s [])) :
      elementText nodes key = some s :=
    hs.trans (textOf?_addText s)
  refine ⟨htext _ _ rfl, assemble_eq_some_iff.mpr ?_⟩
  exact ⟨htext _ m.device_name rfl, htext _ m.device_uuid rfl, htext _ m.message_uuid rfl,
    htext _ m.name rfl, rfl⟩

/-- Without markup in the texts, all but the closing of a section is read back. -/
theorem decodeXml_of_plain (h : m.Ordinary)
    (hplain : ∀ s ∈ m.texts, ∀ b ∈ s, XmlText.isMarkup b = false) :
    decodeXml type (m.toXml showDouble) =
      if ∃ s ∈ m.texts, XmlText.closes s = true then none
      else (typed (xmlValue showDouble m.value) (type (m.untyped showDouble))).map
        fun value => { m with value } := by
  have htag : XmlText.IsName (bytes "message") := isName_key _ (by simp)
  have hname : ∀ f ∈ m.xmlFields showDouble, XmlText.IsName f.1 := by
    simp only [xmlFields, List.forall_mem_cons]
    exact ⟨isName_key _ (by simp), isName_key _ (by simp), isName_key _ (by simp),
      isName_key _ (by simp), isName_key _ (by simp), fun f hf => by cases hf⟩
  have hfields : ∀ f ∈ m.xmlFields showDouble, ∀ b ∈ f.2, XmlText.isMarkup b = false :=
    forall_mem_xmlFields showDouble h hplain fun s hs b hb => (hs b hb).2.1
  have hdocument := XmlText.document_text htag hname hfields
  obtain ⟨hvalue, hassemble⟩ := elementText_xmlFields showDouble m
  rw [decodeXml, if_pos (accepted_toXml h), toXml_eq, hdocument]
  by_cases hany : ∃ s ∈ m.texts, XmlText.closes s = true
  · rw [if_pos ((any_closes_iff h).mpr hany), if_pos hany]
  · rw [if_neg ((any_closes_iff h).not.mpr hany), if_neg hany]
    simp only [hvalue, hassemble, Option.bind_eq_bind, Option.bind_some, ↓reduceIte]
    rw [Option.map_eq_bind]
    rfl

theorem typed_xmlValue_iff (showDouble : UInt64 → Bytes) {a : StdAny} {valueType : ValueType} :
    typed (xmlValue showDouble a) valueType = some a ↔ typeOf? a = some valueType := by
  constructor
  · intro h
    cases valueType with
    | int =>
      obtain ⟨i, _, rfl⟩ := Option.map_eq_some_iff.mp h
      rfl
    | bool =>
      rw [typed] at h
      split_ifs at h
      · obtain rfl := Option.some.inj h
        rfl
      · obtain rfl := Option.some.inj h
        rfl
    | string =>
      rw [← Option.some.inj h]
      rfl
    | unset =>
      rw [typed] at h
      split_ifs at h
      obtain rfl := Option.some.inj h
      rfl
  · intro h
    cases a with
    | int i =>
      obtain rfl := Option.some.inj h
      rw [typed, xmlValue, bytes_toString_int, int32?_intText, Option.map_some]
    | bool b =>
      obtain rfl := Option.some.inj h
      cases b <;> rfl
    | string s =>
      obtain rfl := Option.some.inj h
      rfl
    | unset =>
      obtain rfl := Option.some.inj h
      rfl
    | _ => cases h

/-- The XML text carries a message exactly if there is neither markup nor the closing of a section
in its texts and the receiver takes the value's text for one of its type. -/
theorem xmlCarries_iff (h : m.Ordinary) : XmlCarries showDouble type m ↔
    (∀ s ∈ m.texts, (∀ b ∈ s, b ≠ XmlText.lt ∧ b ≠ XmlText.ampersand) ∧
      ¬XmlText.cdataClose <:+: s) ∧ typeOf? m.value = some (type (m.untyped showDouble)) := by
  have hmarkup (b : UInt8) : XmlText.isMarkup b = false ↔
      b ≠ XmlText.lt ∧ b ≠ XmlText.ampersand := by
    simp [XmlText.isMarkup]
  have hvalue : (typed (xmlValue showDouble m.value) (type (m.untyped showDouble))).map
      (fun value => { m with value }) = some m ↔
        typeOf? m.value = some (type (m.untyped showDouble)) := by
    rw [← typed_xmlValue_iff showDouble, Option.map_eq_some_iff]
    constructor
    · rintro ⟨value, htyped, heq⟩
      rw [htyped, ← congrArg IMessage.value heq]
    · intro htyped
      exact ⟨m.value, htyped, rfl⟩
  constructor
  · intro hcarries
    have hplain := not_markup_of_xmlCarries hcarries
    rw [XmlCarries, decodeXml_of_plain h hplain] at hcarries
    split_ifs at hcarries with hcloses
    refine ⟨fun s hs => ⟨fun b hb => (hmarkup b).mp (hplain s hs b hb), ?_⟩, hvalue.mp hcarries⟩
    rw [← XmlText.closes_iff]
    exact fun hclose => hcloses ⟨s, hs, hclose⟩
  · rintro ⟨hplain, htype⟩
    have hcloses : ¬∃ s ∈ m.texts, XmlText.closes s = true := by
      rintro ⟨s, hs, hclose⟩
      exact (hplain s hs).2 (XmlText.closes_iff.mp hclose)
    rw [XmlCarries, decodeXml_of_plain h fun s hs b hb => (hmarkup b).mpr ((hplain s hs).1 b hb),
      if_neg hcloses]
    exact hvalue.mpr htype

end

/-- Each text carries a message exactly where the texts in it can stand as they are. There has to be
a value in the JSON text, and what the receiver takes the value of the XML text for has to be its
type. -/
theorem encodings_carry_iff (showDouble : UInt64 → Bytes) (type : IMessage → ValueType)
    {m : IMessage} (h : m.Ordinary) :
    (JsonCarries showDouble m ↔
      m.value ≠ .unset ∧ ∀ s ∈ m.texts, ∀ b ∈ s, b ≠ JsonText.quote ∧ b ≠ JsonText.backslash) ∧
    (XmlCarries showDouble type m ↔
      (∀ s ∈ m.texts, (∀ b ∈ s, b ≠ XmlText.lt ∧ b ≠ XmlText.ampersand) ∧
        ¬XmlText.cdataClose <:+: s) ∧ typeOf? m.value = some (type (m.untyped showDouble))) :=
  ⟨jsonCarries_iff h, xmlCarries_iff h⟩

theorem ordinary_of {m : IMessage} (htexts : ∀ s ∈ m.texts, validUtf8 s = true ∧
    XmlText.legal s = true ∧ ∀ b ∈ s, 0x20 ≤ b) (htype : (typeOf? m.value).isSome) : m.Ordinary :=
  ⟨fun s hs => ⟨(htexts s hs).1, (htexts s hs).2.1, (htexts s hs).2.2⟩, htype⟩

/-- A number under a name with an accent. -/
theorem encodings_carry_example :
    let m : IMessage := ⟨[0xC3, 0x89] ++ bytes "toile", bytes "d-1", bytes "m-1", bytes "gain",
      .int (-100)⟩
    JsonCarries (fun _ => []) m ∧ XmlCarries (fun _ => []) (fun _ => .int) m := by
  intro m
  have hm : m.Ordinary := ordinary_of (by decide +kernel) rfl
  obtain ⟨hjson, hxml⟩ := encodings_carry_iff (fun _ => []) (fun _ => .int) hm
  exact ⟨hjson.mpr (by decide +kernel), hxml.mpr ⟨by decide +kernel, rfl⟩⟩

/-- A camera with quotation marks and an ampersand in its name. -/
theorem encodings_not_carry :
    let m : IMessage := ⟨bytes "CCD \"A\" & B", bytes "d-1", bytes "m-1", bytes "gain", .int 100⟩
    m.Ordinary ∧ ∀ showDouble,
      ¬JsonCarries showDouble m ∧ ∀ type, ¬XmlCarries showDouble type m := by
  intro m
  have hm : m.Ordinary := ordinary_of (by decide +kernel) rfl
  have hname : m.device_name ∈ m.texts := by simp [texts]
  refine ⟨hm, fun showDouble => ⟨fun hcarries => ?_, fun type hcarries => ?_⟩⟩
  · have hquote : JsonText.quote ∈ m.device_name := by decide
    exact (((jsonCarries_iff hm).mp hcarries).2 _ hname _ hquote).1 rfl
  · have hampersand : XmlText.ampersand ∈ m.device_name := by decide
    exact ((((xmlCarries_iff hm).mp hcarries).1 _ hname).1 _ hampersand).2 rfl

end IMessage

end OpenAPT
