import Mathlib.Data.List.Basic
import Mathlib.Tactic.Common

/-! Byte strings: `std::string` values, the C strings inside them, and the UTF-8 automaton of the
JSON serializer. -/
namespace OpenAPT

/-- A `std::string`: any bytes, zero bytes included. -/
abbrev Bytes := List UInt8

/-- The bytes of an ASCII literal of the source. -/
def bytes (s : String) : Bytes := s.toList.map fun c => UInt8.ofNat c.toNat

/-- What a reader of `s.c_str()` sees: the bytes before the first zero byte. -/
def cStr (s : Bytes) : Bytes := s.takeWhile (· ≠ 0)

/-- States of the serializer's `decode`, by the continuation bytes they still expect. -/
inductive Utf8State
  | accept
  | tail1
  | tail2
  | tail3
  | afterE0
  | afterED
  | afterF0
  | afterF4
  deriving DecidableEq

/-- One byte of `serializer::decode`; `none` is `UTF8_REJECT`. -/
def decode (state : Utf8State) (byte : UInt8) : Option Utf8State :=
  let within (lo hi : UInt8) (next : Utf8State) : Option Utf8State :=
    if lo ≤ byte ∧ byte ≤ hi then some next else none
  match state with
  | .accept =>
    if byte ≤ 0x7F then some .accept
    else if 0xC2 ≤ byte ∧ byte ≤ 0xDF then some .tail1
    else if byte = 0xE0 then some .afterE0
    else if byte = 0xED then some .afterED
    else if 0xE1 ≤ byte ∧ byte ≤ 0xEF then some .tail2
    else if byte = 0xF0 then some .afterF0
    else if 0xF1 ≤ byte ∧ byte ≤ 0xF3 then some .tail3
    else if byte = 0xF4 then some .afterF4
    else none
  | .tail1 => within 0x80 0xBF .accept
  | .tail2 => within 0x80 0xBF .tail1
  | .tail3 => within 0x80 0xBF .tail2
  | .afterE0 => within 0xA0 0xBF .tail1
  | .afterED => within 0x80 0x9F .tail1
  | .afterF0 => within 0x90 0xBF .tail2
  | .afterF4 => within 0x80 0x8F .tail2

/-- Whether `dump_escaped` gets through a string in strict mode: no byte is rejected and the last
code point is complete. -/
def validUtf8From : Utf8State → Bytes → Bool
  | state, [] => state = .accept
  | state, byte :: s =>
    match decode state byte with
    | some next => validUtf8From next s
    | none => false

def validUtf8 (s : Bytes) : Bool := validUtf8From .accept s

/-- A text that is complete can be followed by any other. -/
theorem validUtf8From_append {state : Utf8State} {s : Bytes} (h : validUtf8From state s = true)
    (t : Bytes) : validUtf8From state (s ++ t) = validUtf8 t := by
  induction s generalizing state with
  | nil =>
    have hstate : state = .accept := by simpa [validUtf8From] using h
    rw [hstate, List.nil_append, validUtf8]
  | cons byte s ih =>
    rw [List.cons_append, validUtf8From]
    rw [validUtf8From] at h
    cases hnext : decode state byte with
    | none => simp [hnext] at h
    | some next =>
      rw [hnext] at h
      exact ih h

theorem validUtf8_append {s : Bytes} (h : validUtf8 s = true) (t : Bytes) :
    validUtf8 (s ++ t) = validUtf8 t :=
  validUtf8From_append h t

theorem validUtf8_of_ascii {s : Bytes} (h : ∀ byte ∈ s, byte ≤ 0x7F) : validUtf8 s = true := by
  induction s with
  | nil => rfl
  | cons byte s ih =>
    have hbyte : decode .accept byte = some .accept := if_pos (h byte List.mem_cons_self)
    rw [validUtf8, validUtf8From, hbyte]
    exact ih fun b hb => h b (List.mem_cons_of_mem byte hb)

example : validUtf8 [0xE2, 0x82, 0xAC] = true ∧ validUtf8 [0xE2, 0x82] = false ∧
    validUtf8 [0xC0, 0x80] = false := by decide

end OpenAPT
