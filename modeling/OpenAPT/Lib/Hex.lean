import Mathlib.Data.List.Basic
import Mathlib.Tactic.Common
import OpenAPT.Lib.Pieces

/-! Bytes in lowercase hexadecimal, two digits each, and numbers as a stream in hexadecimal writes
them with a width. -/
namespace Hex

def digit (d : ℕ) : UInt8 := if d < 10 then UInt8.ofNat (48 + d) else UInt8.ofNat (87 + d)

def byte (b : UInt8) : List UInt8 := [digit (b.toNat / 16), digit (b.toNat % 16)]

def text (s : List UInt8) : List UInt8 := s.flatMap byte

/-- `stream << std::hex << std::setfill('0') << std::setw(width) << n`. -/
def format (width n : ℕ) : List UInt8 :=
  ((Nat.toDigits 16 n).map fun c => UInt8.ofNat c.toNat).leftpad width 48

theorem digit_inj {d e : ℕ} (hd : d < 16) (he : e < 16) (h : digit d = digit e) : d = e := by
  have hall : ∀ d e : Fin 16, digit d = digit e → d = e := by decide
  exact congrArg Fin.val (hall ⟨d, hd⟩ ⟨e, he⟩ h)

theorem byte_injective : Function.Injective byte := by
  intro b c h
  obtain ⟨hhigh, hlow⟩ : digit (b.toNat / 16) = digit (c.toNat / 16) ∧
      digit (b.toNat % 16) = digit (c.toNat % 16) := by
    simpa only [byte, List.cons.injEq, and_true] using h
  have hb := b.toNat_lt
  have hc := c.toNat_lt
  have hhigh := digit_inj (by omega) (by omega) hhigh
  have hlow := digit_inj (by omega) (by omega) hlow
  apply UInt8.toNat_inj.mp
  omega

theorem length_byte (b : UInt8) : (byte b).length = 2 := rfl

theorem text_injective : Function.Injective text :=
  Pieces.flatMap_injective byte_injective length_byte (by decide)

theorem length_text (s : List UInt8) : (text s).length = s.length * 2 :=
  Pieces.length_flatMap_of_forall length_byte s

theorem exists_digit_of_mem_text {s : List UInt8} {c : UInt8} (h : c ∈ text s) :
    ∃ d < 16, c = digit d := by
  obtain ⟨b, -, hc⟩ := List.mem_flatMap.mp h
  have hb := b.toNat_lt
  rcases List.mem_pair.mp hc with hhigh | hlow
  · exact ⟨b.toNat / 16, by omega, hhigh⟩
  · exact ⟨b.toNat % 16, by omega, hlow⟩

/-- A byte as an unsigned number fills its two places. -/
theorem format_two (b : UInt8) : format 2 b.toNat = byte b := by
  have hall : ∀ n : Fin 256, format 2 n = [digit (n / 16), digit (n % 16)] := by decide +kernel
  exact hall b.toFin

end Hex
