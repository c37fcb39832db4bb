import Mathlib.Data.List.SplitLengths
import Mathlib.Data.Stream.Init
import OpenAPT.Bytes
import OpenAPT.Lib.Hex

/-! `UUIDGenerator`: `generateUUID` and `generateUUIDWithFormat` on any stream of digits. -/
namespace OpenAPT

/-- The numbers that `dis_(gen_)` draws one after the other, each from 0 to 15. -/
abbrev UUIDGenerator := Stream' (Fin 16)

namespace UUIDGenerator

def getRandomNumber (g : UUIDGenerator) : Fin 16 × UUIDGenerator := (g.head, g.tail)

/-- The stream that a UUID is written to, and the generator. -/
structure Output where
  ss : Bytes
  gen_ : UUIDGenerator

namespace Output

def text (o : Output) (s : Bytes) : Output := { o with ss := o.ss ++ s }

/-- `ss << std::hex << getRandomNumber()`. -/
def number (o : Output) : Output :=
  let (n, gen_) := o.gen_.getRandomNumber
  ⟨o.ss ++ Hex.format 0 n.val, gen_⟩

/-- A loop that writes `n` numbers. -/
def numbers (n : ℕ) (o : Output) : Output := (List.range n).foldl (fun o _ => o.number) o

end Output

def hyphen : Bytes := bytes "-"

/-- One turn of the loop of `generateUUID`. -/
def turn (o : Output) (i : ℕ) : Output :=
  let o := if i = 8 ∨ i = 12 ∨ i = 16 ∨ i = 20 then o.text hyphen else o
  o.number

def generateUUID (g : UUIDGenerator) : Output := (List.range 32).foldl turn ⟨[], g⟩

def generateUUIDWithFormat (g : UUIDGenerator) (use_braces use_hyphens : Bool) : Output :=
  let o : Output := ⟨[], g⟩
  let o := if use_braces then o.text (bytes "\x7b") else o
  let o := o.number
  let o := if use_hyphens then o.text hyphen else o
  let o := o.number
  let o := o.text hyphen
  let o := o.number
  let o := if use_hyphens then o.text hyphen else o
  let o := o.number
  let o := o.text hyphen
  let o := o.numbers 12
  if use_braces then o.text (bytes "\x7d") else o

/-- The next `n` digits. -/
def digits (n : ℕ) (g : UUIDGenerator) : Bytes := (g.take n).map fun d : Fin 16 => Hex.digit d.val

/-- The first 32 digits in groups of 8, 4, 4, 4 and 12. -/
def uuidText (g : UUIDGenerator) (use_braces use_hyphens : Bool) : Bytes :=
  (if use_braces then bytes "\x7b" else []) ++
    List.intercalate (if use_hyphens then hyphen else [])
      ([8, 4, 4, 4, 12].splitLengths (g.digits 32)) ++
    (if use_braces then bytes "\x7d" else [])

/-- The two flags only choose the separators and the braces of a UUID. -/
def KeepsShape (g : UUIDGenerator) (use_braces use_hyphens : Bool) : Prop :=
  (g.generateUUIDWithFormat use_braces use_hyphens).ss = g.uuidText use_braces use_hyphens

variable {g : UUIDGenerator}

/-! ### Digits -/

theorem format_zero : ∀ d : Fin 16, Hex.format 0 d.val = [Hex.digit d.val] := by decide

theorem length_digits (n : ℕ) (g : UUIDGenerator) : (g.digits n).length = n := by
  rw [digits, List.length_map, Stream'.length_take]

/-- Digits that are taken in two parts. -/
theorem digits_add (m n : ℕ) (g : UUIDGenerator) :
    g.digits (m + n) = g.digits m ++ digits n (g.drop m) := by
  induction m generalizing g with
  | zero => rw [Nat.zero_add, Stream'.drop_zero]; rfl
  | succ m ih =>
    have hsucc : m + 1 + n = m + n + 1 := by omega
    have htail := ih g.tail
    rw [digits, digits, digits] at htail
    rw [hsucc, digits, digits, digits, Stream'.take_succ, Stream'.take_succ, List.map_cons,
      List.map_cons, List.cons_append, Stream'.drop_succ, htail]

theorem Output.number_eq (o : Output) :
    o.number = ⟨o.ss ++ digits 1 o.gen_, o.gen_.drop 1⟩ := by
  have hdigit := format_zero o.gen_.head
  exact congrArg (fun s => Output.mk (o.ss ++ s) o.gen_.tail) hdigit

theorem Output.numbers_eq (n : ℕ) (o : Output) :
    o.numbers n = ⟨o.ss ++ digits n o.gen_, o.gen_.drop n⟩ := by
  induction n with
  | zero => exact congrArg (Output.mk · o.gen_) (List.append_nil o.ss).symm
  | succ n ih =>
    have hlast : o.numbers (n + 1) = (o.numbers n).number := by
      rw [numbers, List.range_succ, List.foldl_append]
      rfl
    rw [hlast, ih, Output.number_eq, digits_add, List.append_assoc, Stream'.drop_drop, Nat.add_comm]

/-! ### The loop of `generateUUID` -/

/-- A hyphen can only stand before the first digit of a group. -/
theorem foldl_turn_group (i n : ℕ)
    (h : ∀ j < n, ¬ (i + 1 + j = 8 ∨ i + 1 + j = 12 ∨ i + 1 + j = 16 ∨ i + 1 + j = 20))
    (o : Output) : (List.range' i (n + 1)).foldl turn o =
      (if i = 8 ∨ i = 12 ∨ i = 16 ∨ i = 20 then o.text hyphen else o).numbers (n + 1) := by
  induction n with
  | zero => rfl
  | succ n ih =>
    -- the last turn of the group writes no hyphen
    have hlast := h n (Nat.lt_succ_self n)
    rw [List.range'_concat, List.foldl_append, ih fun j hj => h j (Nat.lt_succ_of_lt hj),
      List.foldl_cons, List.foldl_nil, turn]
    have hindex : i + 1 * (n + 1) = i + 1 + n := by omega
    rw [hindex, if_neg hlast, Output.numbers, Output.numbers, List.range_succ (n := n + 1),
      List.foldl_append]
    rfl

/-! ### The shape of a UUID -/

theorem splitLengths_digits (n m : ℕ) (ns : List ℕ) (g : UUIDGenerator) :
    (n :: ns).splitLengths (g.digits (n + m)) =
      g.digits n :: ns.splitLengths (digits m (g.drop n)) := by
  have hlength := length_digits n g
  rw [List.splitLengths_cons, digits_add, List.take_left' hlength, List.drop_left' hlength]

theorem groups_eq (g : UUIDGenerator) : [8, 4, 4, 4, 12].splitLengths (g.digits 32) =
    [g.digits 8, digits 4 (g.drop 8), digits 4 (g.drop 12), digits 4 (g.drop 16),
      digits 12 (g.drop 20)] := by
  rw [splitLengths_digits 8 24, splitLengths_digits 4 20, splitLengths_digits 4 16,
    splitLengths_digits 4 12, splitLengths_digits 12 0, List.splitLengths_nil]
  simp only [Stream'.drop_drop, Nat.reduceAdd]

/-- `generateUUID` writes the shape with hyphens and without braces, from the first 32 digits. -/
theorem generateUUID_eq (g : UUIDGenerator) :
    g.generateUUID = ⟨g.uuidText false true, g.drop 32⟩ := by
  have hrange : List.range 32 = List.range' 0 (7 + 1) ++ (List.range' 8 (3 + 1) ++
      (List.range' 12 (3 + 1) ++ (List.range' 16 (3 + 1) ++ List.range' 20 (11 + 1)))) := by
    decide
  -- each part of the range is one group, and all but the first begin with a hyphen
  rw [generateUUID, hrange]
  simp only [List.foldl_append]
  rw [foldl_turn_group 0 7 (by decide), foldl_turn_group 8 3 (by decide),
    foldl_turn_group 12 3 (by decide), foldl_turn_group 16 3 (by decide),
    foldl_turn_group 20 11 (by decide), uuidText, groups_eq]
  simp only [List.intercalate_cons_cons, List.intercalate_singleton, Output.numbers_eq, Output.text,
    Stream'.drop_drop, Nat.reduceAdd, Nat.reduceEqDiff, or_true, or_false, or_self, ↓reduceIte,
    Bool.false_eq_true, List.nil_append, List.append_nil, List.append_assoc]

theorem length_uuidText (g : UUIDGenerator) (use_braces use_hyphens : Bool) :
    (g.uuidText use_braces use_hyphens).length =
      32 + (if use_hyphens then 4 else 0) + (if use_braces then 2 else 0) := by
  rw [uuidText, groups_eq]
  cases use_braces <;> cases use_hyphens <;>
    simp only [List.intercalate_cons_cons, List.intercalate_singleton, List.length_append,
      length_digits] <;> rfl

/-! ### The format with flags -/

namespace Output

theorem length_text (o : Output) (s : Bytes) : (o.text s).ss.length = o.ss.length + s.length :=
  List.length_append

theorem length_numbers (n : ℕ) (o : Output) : (o.numbers n).ss.length = o.ss.length + n := by
  rw [numbers_eq, List.length_append, length_digits]

theorem length_number (o : Output) : o.number.ss.length = o.ss.length + 1 :=
  length_numbers 1 o

end Output

/-- Only 16 digits are drawn. -/
theorem gen_generateUUIDWithFormat (g : UUIDGenerator) (use_braces use_hyphens : Bool) :
    (g.generateUUIDWithFormat use_braces use_hyphens).gen_ = g.drop 16 := by
  cases use_braces <;> cases use_hyphens <;> rfl

theorem length_generateUUIDWithFormat (g : UUIDGenerator) (use_braces use_hyphens : Bool) :
    (g.generateUUIDWithFormat use_braces use_hyphens).ss.length =
      18 + (if use_hyphens then 2 else 0) + (if use_braces then 2 else 0) := by
  cases use_braces <;> cases use_hyphens <;>
    simp only [generateUUIDWithFormat, Output.length_text, Output.length_numbers,
      Output.length_number, Bool.false_eq_true, ↓reduceIte] <;> rfl

/-- Half of the digits of a UUID are missing, for every generator and every choice of the flags. -/
theorem not_keepsShape (g : UUIDGenerator) (use_braces use_hyphens : Bool) :
    ¬ g.KeepsShape use_braces use_hyphens := by
  intro hshape
  -- 18 and 2 for each flag on one side, 32 and at least as many on the other
  have hlength := congrArg List.length hshape
  rw [length_generateUUIDWithFormat, length_uuidText] at hlength
  split_ifs at hlength <;> omega

/-- A generator that draws only zeros. -/
def zeros : UUIDGenerator := Stream'.const 0

theorem generateUUIDWithFormat_zeros :
    (zeros.generateUUIDWithFormat true true).ss = bytes "\x7b0-0-0-0-000000000000\x7d" ∧
      zeros.uuidText true true = bytes "\x7b00000000-0000-0000-0000-000000000000\x7d" ∧
      ¬ ∀ (g : UUIDGenerator) (use_braces use_hyphens : Bool),
        g.KeepsShape use_braces use_hyphens := by
  have hformat : (zeros.generateUUIDWithFormat true true).ss =
      bytes "\x7b0-0-0-0-000000000000\x7d" := by decide
  have htext : zeros.uuidText true true =
      bytes "\x7b00000000-0000-0000-0000-000000000000\x7d" := by decide
  refine ⟨hformat, htext, fun hall => ?_⟩
  have hshape := hall zeros true true
  rw [KeepsShape, hformat, htext] at hshape
  exact absurd hshape (by decide)

end UUIDGenerator

end OpenAPT
