import Mathlib.Data.Int.Notation
import Mathlib.Data.List.TakeWhile
import Mathlib.Tactic.Common
import OpenAPT.Lib.Decimals

/-! The number at the front of a text, as `strtod` reads it in the "C" locale, before any rounding;
and the numbers that `printf` writes. -/
namespace Strtod
open Readers

/-- A finite number by its digits in base ten or sixteen and its exponent, of ten or two. -/
inductive Numeral
  | finite (negative : Bool) (base : ℕ) (whole fraction : Text) (exponent : ℤ)
  | infinity (negative : Bool)
  | nan (negative : Bool)
  deriving DecidableEq

def isSpace (b : UInt8) : Bool := b = 0x20 || (0x09 ≤ b && b ≤ 0x0D)

def isHexDigit (b : UInt8) : Bool := (hexDigit? b).isSome

def lower (b : UInt8) : UInt8 := if 0x41 ≤ b ∧ b ≤ 0x5A then b + 0x20 else b

/-- A sign, if there is one. -/
def sign : Text → Bool × Text
  | [] => (false, [])
  | b :: s => if b = 0x2D then (true, s) else if b = 0x2B then (false, s) else (false, b :: s)

/-- Digits with a point or without; what comes before and after the point, and the rest. -/
def mantissa (digit : UInt8 → Bool) (s : Text) : Option (Text × Text × Text) :=
  let whole := s.takeWhile digit
  let (fraction, rest) :=
    match s.dropWhile digit with
    | [] => ([], [])
    | b :: t => if b = 0x2E then (t.takeWhile digit, t.dropWhile digit) else ([], b :: t)
  if whole = [] ∧ fraction = [] then none else some (whole, fraction, rest)

/-- An exponent counts only with a digit. -/
def exponent (mark : UInt8) : Text → ℤ
  | [] => 0
  | b :: s =>
    if lower b = mark then
      let (negative, s) := sign s
      let n : ℤ := Decimals.natOf (s.takeWhile isDigit)
      if negative then -n else n
    else 0

/-- The digits after `0x`; without any, the number is the zero before the `x`. -/
def hexMantissa : Text → Option (Text × Text × Text)
  | b :: c :: s => if b = 0x30 ∧ lower c = 0x78 then mantissa isHexDigit s else none
  | _ => none

def read (s : Text) : Option Numeral :=
  let (negative, s) := sign (s.dropWhile isSpace)
  if [0x69, 0x6E, 0x66] <+: s.map lower then some (.infinity negative)
  else if [0x6E, 0x61, 0x6E] <+: s.map lower then some (.nan negative)
  else
    match hexMantissa s with
    | some (whole, fraction, rest) =>
      some (.finite negative 16 whole fraction (exponent 0x70 rest))
    | none => (mantissa isDigit s).map fun (whole, fraction, rest) =>
      .finite negative 10 whole fraction (exponent 0x65 rest)

/-- A finite number as `printf` writes it: no fraction is written without a digit, and an exponent
has a sign. -/
structure Written where
  negative : Bool
  whole : Text
  fraction : Text
  exponent : Option (Bool × Text)
  whole_ne_nil : whole ≠ []
  whole_digits : ∀ b ∈ whole, isDigit b = true
  fraction_digits : ∀ b ∈ fraction, isDigit b = true
  exponent_digits : ∀ e ∈ exponent, ∀ b ∈ e.2, isDigit b = true

namespace Written

variable (w : Written)

def signText : Text := if w.negative then [0x2D] else []

def fractionText : Text := if w.fraction = [] then [] else 0x2E :: w.fraction

def exponentText : Text :=
  match w.exponent with
  | none => []
  | some (negative, digits) => 0x65 :: (if negative then 0x2D else 0x2B) :: digits

/-- The digits with their exponent. -/
def magnitude : Text := w.whole ++ (w.fractionText ++ w.exponentText)

def text : Text := w.signText ++ w.magnitude

def exponentValue : ℤ :=
  match w.exponent with
  | none => 0
  | some (negative, digits) =>
    if negative then -(Decimals.natOf digits : ℤ) else Decimals.natOf digits

def numeral : Numeral := .finite w.negative 10 w.whole w.fraction w.exponentValue

end Written

section Reading

variable {b : UInt8} {d s : Text}

/-- The text goes on with something other than a digit. -/
def Stops (s : Text) : Prop := ∀ b ∈ s.head?, isDigit b = false

theorem takeWhile_digits (hd : ∀ b ∈ d, isDigit b = true) (hs : Stops s) :
    (d ++ s).takeWhile isDigit = d := by
  rw [List.takeWhile_append_of_pos hd]
  cases s with
  | nil => exact List.append_nil d
  | cons b s =>
    rw [List.takeWhile_cons_of_neg (by rw [hs b rfl]; exact Bool.false_ne_true), List.append_nil]

theorem dropWhile_digits (hd : ∀ b ∈ d, isDigit b = true) (hs : Stops s) :
    (d ++ s).dropWhile isDigit = s := by
  rw [List.dropWhile_append_of_pos hd]
  cases s with
  | nil => rfl
  | cons b s =>
    rw [List.dropWhile_cons_of_neg (by rw [hs b rfl]; exact Bool.false_ne_true)]

/-- No digit is white space, a sign, or a part of a word. -/
theorem of_isDigit : ∀ b : UInt8, isDigit b = true →
    isSpace b = false ∧ b ≠ 0x2D ∧ b ≠ 0x2B ∧ lower b ≠ 0x69 ∧ lower b ≠ 0x6E :=
  forall_byte (by decide +kernel)

end Reading

namespace Written

variable (w : Written) (rest : Text)

/-- After the digits comes an exponent or the blank. -/
theorem exponentText_cons :
    ∃ b s, w.exponentText ++ 0x20 :: rest = b :: s ∧ isDigit b = false ∧ b ≠ 0x2E := by
  unfold exponentText
  cases w.exponent with
  | none => exact ⟨0x20, rest, rfl, rfl, by decide⟩
  | some e => exact ⟨0x65, _, rfl, rfl, by decide⟩

theorem mantissa_magnitude : mantissa isDigit (w.magnitude ++ 0x20 :: rest) =
    some (w.whole, w.fraction, w.exponentText ++ 0x20 :: rest) := by
  obtain ⟨b, s, hcons, hdigit, hpoint⟩ := w.exponentText_cons rest
  have hstops : Stops (b :: s) := by
    intro c hc
    obtain rfl := Option.some.inj hc
    exact hdigit
  unfold mantissa magnitude fractionText
  by_cases hfraction : w.fraction = []
  · rw [if_pos hfraction, List.nil_append, List.append_assoc, hcons,
      takeWhile_digits w.whole_digits hstops, dropWhile_digits w.whole_digits hstops]
    simp [hpoint, hfraction, w.whole_ne_nil]
  · have hsplit : w.whole ++ (0x2E :: w.fraction ++ w.exponentText) ++ 0x20 :: rest =
        w.whole ++ 0x2E :: (w.fraction ++ b :: s) := by
      rw [← hcons]
      simp
    have hdot : Stops (0x2E :: (w.fraction ++ b :: s)) := by
      intro c hc
      obtain rfl := Option.some.inj hc
      rfl
    rw [if_neg hfraction, hsplit, takeWhile_digits w.whole_digits hdot,
      dropWhile_digits w.whole_digits hdot, hcons]
    simp [takeWhile_digits w.fraction_digits hstops, dropWhile_digits w.fraction_digits hstops,
      w.whole_ne_nil]

theorem exponent_exponentText :
    Strtod.exponent 0x65 (w.exponentText ++ 0x20 :: rest) = w.exponentValue := by
  unfold exponentText exponentValue
  cases hexponent : w.exponent with
  | none => rfl
  | some e =>
    obtain ⟨negative, digits⟩ := e
    have hdigits := w.exponent_digits _ hexponent
    have hstops : Stops (0x20 :: rest) := by
      intro c hc
      obtain rfl := Option.some.inj hc
      rfl
    have htake := takeWhile_digits hdigits hstops
    cases negative <;> simp [Strtod.exponent, lower, sign, htake]

/-- What the text of a number is made of: no white space, and no letter but `e`. -/
def isPart (b : UInt8) : Bool :=
  isDigit b || b = 0x2D || b = 0x2B || b = 0x2E || b = 0x65

theorem lower_of_isPart : ∀ b : UInt8, isPart b = true ∨ b = 0x20 → lower b ≠ 0x78 :=
  forall_byte (by decide +kernel)

theorem isPart_of_mem_magnitude {b : UInt8} (h : b ∈ w.magnitude) : isPart b = true := by
  have hdigit (hb : isDigit b = true) : isPart b = true := by simp [isPart, hb]
  unfold magnitude fractionText exponentText at h
  rw [List.mem_append, List.mem_append] at h
  rcases h with h | h | h
  · exact hdigit (w.whole_digits b h)
  · split_ifs at h
    · cases h
    · rcases List.mem_cons.mp h with rfl | h
      · rfl
      · exact hdigit (w.fraction_digits b h)
  · cases hexponent : w.exponent with
    | none =>
      rw [hexponent] at h
      cases h
    | some e =>
      rw [hexponent] at h
      rcases List.mem_cons.mp h with rfl | h
      · rfl
      · rcases List.mem_cons.mp h with rfl | h
        · split_ifs <;> rfl
        · exact hdigit (w.exponent_digits e hexponent b h)

theorem isPart_of_mem_text {b : UInt8} (h : b ∈ w.text) : isPart b = true := by
  unfold text signText at h
  rw [List.mem_append] at h
  rcases h with h | h
  · split_ifs at h
    · rw [List.mem_singleton.mp h]
      rfl
    · cases h
  · exact w.isPart_of_mem_magnitude h

/-- There is no `x` after a zero. -/
theorem hexMantissa_magnitude : hexMantissa (w.magnitude ++ 0x20 :: rest) = none := by
  obtain ⟨b, d, hwhole⟩ := List.exists_cons_of_ne_nil w.whole_ne_nil
  obtain ⟨p, hp⟩ : ∃ p, w.magnitude = b :: p :=
    ⟨d ++ (w.fractionText ++ w.exponentText), by rw [magnitude, hwhole, List.cons_append]⟩
  have hnext (c : UInt8) (s : Text) (hc : isPart c = true ∨ c = 0x20) :
      hexMantissa (b :: c :: s) = none := by
    rw [hexMantissa, if_neg fun h => lower_of_isPart c hc h.2]
  rw [hp]
  -- the second byte is a part of the number or the blank after it
  cases p with
  | nil => exact hnext 0x20 rest (Or.inr rfl)
  | cons c p =>
    refine hnext c (p ++ 0x20 :: rest) (Or.inl ?_)
    exact w.isPart_of_mem_magnitude (by simp [hp])

theorem sign_text : sign ((w.text ++ 0x20 :: rest).dropWhile isSpace) =
    (w.negative, w.magnitude ++ 0x20 :: rest) := by
  obtain ⟨b, d, hwhole⟩ := List.exists_cons_of_ne_nil w.whole_ne_nil
  obtain ⟨hspace, hminus, hplus, -⟩ := of_isDigit b (w.whole_digits b (by simp [hwhole]))
  have hmagnitude : w.magnitude ++ 0x20 :: rest =
      b :: (d ++ (w.fractionText ++ w.exponentText) ++ 0x20 :: rest) := by
    rw [magnitude, hwhole, List.cons_append, List.cons_append]
  rw [text, signText, List.append_assoc, hmagnitude]
  cases w.negative with
  | true => rfl
  | false => simp [hspace, sign, hminus, hplus]

/-- A number is read back where a blank comes after it. -/
theorem read_text : read (w.text ++ 0x20 :: rest) = some w.numeral := by
  have hword (word : Text) (b : UInt8) (hb : b = 0x69 ∨ b = 0x6E) :
      ¬(b :: word) <+: (w.magnitude ++ 0x20 :: rest).map lower := by
    obtain ⟨c, d, hwhole⟩ := List.exists_cons_of_ne_nil w.whole_ne_nil
    obtain ⟨-, -, -, hi, hn⟩ := of_isDigit c (w.whole_digits c (by simp [hwhole]))
    rw [magnitude, hwhole, List.cons_append, List.cons_append, List.map_cons,
      List.cons_prefix_cons]
    rintro ⟨rfl, -⟩
    rcases hb with hb | hb
    · exact hi hb
    · exact hn hb
  unfold read
  rw [w.sign_text rest]
  dsimp only
  rw [if_neg (hword _ _ (Or.inl rfl)), if_neg (hword _ _ (Or.inr rfl)),
    w.hexMantissa_magnitude rest, w.mantissa_magnitude rest, Option.map_some,
    w.exponent_exponentText rest]
  rfl

end Written

/-- A blank before the number is skipped. -/
theorem read_space (s : Text) : read (0x20 :: s) = read s := rfl

end Strtod
