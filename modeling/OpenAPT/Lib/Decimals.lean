import Mathlib.Algebra.Group.Nat.Defs
import Mathlib.Data.Int.Notation
import Mathlib.Data.List.Induction
import OpenAPT.Lib.Readers

/-! Decimal texts of numbers, and the numbers of digits with or without leading zeros. -/
namespace Decimals
open Readers

def natText (n : ℕ) : Text := (Nat.toDigits 10 n).map fun c => UInt8.ofNat c.toNat

def intText : ℤ → Text
  | .ofNat n => natText n
  | .negSucc n => 0x2D :: natText (n + 1)

def natOf (digits : Text) : ℕ := digits.foldl (fun n b => n * 10 + (b.toNat - 0x30)) 0

def nat? (w : Text) : Option ℕ := if w ≠ [] ∧ w.all isDigit then some (natOf w) else none

def int? : Text → Option ℤ
  | b :: w => if b = 0x2D then (nat? w).map fun n : ℕ => -(n : ℤ) else (nat? (b :: w)).map Int.ofNat
  | [] => none

theorem toNat_of_isDigit {b : UInt8} (h : isDigit b = true) : 0x30 ≤ b.toNat ∧ b.toNat ≤ 0x39 := by
  rw [isDigit, Bool.and_eq_true, decide_eq_true_eq, decide_eq_true_eq, UInt8.le_iff_toNat_le,
    UInt8.le_iff_toNat_le] at h
  exact h

theorem natOf_append_singleton (w : Text) (b : UInt8) :
    natOf (w ++ [b]) = natOf w * 10 + (b.toNat - 0x30) := by
  rw [natOf, List.foldl_append, natOf, List.foldl_cons, List.foldl_nil]

theorem natOf_lt {w : Text} (h : ∀ b ∈ w, isDigit b = true) : natOf w < 10 ^ w.length := by
  induction w using List.reverseRecOn with
  | nil => exact Nat.one_pos
  | append_singleton w b ih =>
    have hw := ih fun c hc => h c (List.mem_append_left [b] hc)
    have hb := toNat_of_isDigit (h b (List.mem_append_right w List.mem_cons_self))
    rw [natOf_append_singleton, List.length_append, List.length_singleton, Nat.pow_succ]
    omega

theorem toNat_byte_of_isDigit {c : Char} (h : c.isDigit = true) :
    (UInt8.ofNat c.toNat).toNat = c.toNat ∧ 0x30 ≤ c.toNat ∧ c.toNat ≤ 0x39 := by
  have hbounds : 0x30 ≤ c.toNat ∧ c.toNat ≤ 0x39 := by
    rw [Char.isDigit, Bool.and_eq_true, decide_eq_true_eq, decide_eq_true_eq] at h
    exact h
  refine ⟨?_, hbounds⟩
  rw [UInt8.toNat_ofNat', Nat.mod_eq_of_lt]
  omega

theorem isDigit_natText (n : ℕ) : ∀ b ∈ natText n, isDigit b = true := by
  intro b hb
  obtain ⟨c, hc, rfl⟩ := List.mem_map.mp hb
  obtain ⟨hbyte, hbounds⟩ :=
    toNat_byte_of_isDigit (Nat.isDigit_of_mem_toDigits (by decide) (by decide) hc)
  rw [isDigit, Bool.and_eq_true, decide_eq_true_eq, decide_eq_true_eq, UInt8.le_iff_toNat_le,
    UInt8.le_iff_toNat_le, hbyte]
  exact hbounds

theorem natText_ne_nil (n : ℕ) : natText n ≠ [] := by
  rw [natText, Ne, List.map_eq_nil_iff]
  exact Nat.toDigits_ne_nil

/-- A number is read back from its text. -/
theorem natOf_natText (n : ℕ) : natOf (natText n) = n := by
  have hfold (cs : List Char) (hcs : ∀ c ∈ cs, c.isDigit = true) :
      natOf (cs.map fun c => UInt8.ofNat c.toNat) = Nat.ofDigitChars 10 cs 0 := by
    induction cs using List.reverseRecOn with
    | nil => rfl
    | append_singleton cs c ih =>
      have hinit := ih fun d hd => hcs d (List.mem_append_left [c] hd)
      have hc := hcs c (List.mem_append_right cs List.mem_cons_self)
      have hzero : '0'.toNat = 0x30 := rfl
      rw [List.map_append, List.map_singleton, natOf_append_singleton, hinit,
        (toNat_byte_of_isDigit hc).1, Nat.ofDigitChars_append, Nat.ofDigitChars_cons,
        Nat.ofDigitChars_nil, hzero, Nat.mul_comm]
  calc
    natOf (natText n) = Nat.ofDigitChars 10 (Nat.toDigits 10 n) 0 :=
      hfold _ fun c hc => Nat.isDigit_of_mem_toDigits (by decide) (by decide) hc
    _ = n := Nat.ofDigitChars_ten_toDigits

/-- No text of a number is shorter. -/
theorem length_natText_le {w : Text} (hne : w ≠ []) (h : ∀ b ∈ w, isDigit b = true) :
    (natText (natOf w)).length ≤ w.length := by
  have hpos : 0 < w.length := List.length_pos_iff.mpr hne
  rw [natText, List.length_map, Nat.length_toDigits_le_iff (by decide) hpos]
  exact natOf_lt h

/-- There is no zero before another digit. -/
theorem natText_head (n : ℕ) (d : UInt8) (s : Text) : natText n ≠ 0x30 :: d :: s := by
  -- The text without the zero would be shorter and of the same number.
  intro heq
  have hdigits := isDigit_natText n
  have hvalue : natOf (d :: s) = n := by
    have hzero : natOf (0x30 :: d :: s) = natOf (d :: s) := rfl
    rw [← hzero, ← heq, natOf_natText]
  rw [heq] at hdigits
  have hle := length_natText_le (List.cons_ne_nil d s) (List.forall_mem_cons.mp hdigits).2
  rw [hvalue, heq, List.length_cons] at hle
  exact absurd hle (Nat.not_succ_le_self _)

theorem nat?_natText (n : ℕ) : nat? (natText n) = some n := by
  rw [nat?, if_pos ⟨natText_ne_nil n, List.all_eq_true.mpr (isDigit_natText n)⟩, natOf_natText]

theorem length_natText_of_nat? {w : Text} {n : ℕ} (h : nat? w = some n) :
    (natText n).length ≤ w.length := by
  rw [nat?] at h
  split_ifs at h with hw
  obtain rfl := Option.some.inj h
  exact length_natText_le hw.1 (List.all_eq_true.mp hw.2)

theorem int?_intText (i : ℤ) : int? (intText i) = some i := by
  cases i with
  | ofNat n =>
    have hnat := nat?_natText n
    have hdigits := isDigit_natText n
    rw [intText]
    cases hw : natText n with
    | nil => exact absurd hw (natText_ne_nil n)
    | cons b w =>
      have hb : ¬b = 0x2D := by
        rintro rfl
        rw [hw] at hdigits
        exact absurd (hdigits 0x2D List.mem_cons_self) (by decide)
      rw [hw] at hnat
      rw [int?, if_neg hb, hnat, Option.map_some]
  | negSucc n =>
    rw [intText, int?, if_pos rfl, nat?_natText, Option.map_some]
    rfl

theorem length_intText_of_int? {w : Text} {i : ℤ} (h : int? w = some i) :
    (intText i).length ≤ w.length := by
  cases w with
  | nil => cases h
  | cons b w =>
    rw [int?] at h
    split_ifs at h
    · obtain ⟨n, hn, rfl⟩ := Option.map_eq_some_iff.mp h
      have hle := length_natText_of_nat? hn
      -- A zero may have a sign in front of it, which its own text has not.
      cases n with
      | zero => exact Nat.le_trans hle (Nat.le_succ _)
      | succ n => exact Nat.succ_le_succ hle
    · obtain ⟨n, hn, rfl⟩ := Option.map_eq_some_iff.mp h
      exact length_natText_of_nat? hn

end Decimals
