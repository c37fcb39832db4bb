import Mathlib.Data.List.Basic
import Mathlib.Tactic.Common
import OpenAPT.Lib.BigEndian
import OpenAPT.Lib.Chaining

/-! SHA-256 as FIPS 180-4 defines it, on words of 32 bits. -/
namespace Sha2

abbrev Word := BitVec 32

/-! ### The six functions -/

def ch (x y z : Word) : Word := (x &&& y) ^^^ (~~~x &&& z)

def maj (x y z : Word) : Word := (x &&& y) ^^^ (x &&& z) ^^^ (y &&& z)

/-- The standard writes the first two with a capital sigma. -/
def bigSigma0 (x : Word) : Word := x.rotateRight 2 ^^^ x.rotateRight 13 ^^^ x.rotateRight 22

def bigSigma1 (x : Word) : Word := x.rotateRight 6 ^^^ x.rotateRight 11 ^^^ x.rotateRight 25

def smallSigma0 (x : Word) : Word := x.rotateRight 7 ^^^ x.rotateRight 18 ^^^ (x >>> 3)

def smallSigma1 (x : Word) : Word := x.rotateRight 17 ^^^ x.rotateRight 19 ^^^ (x >>> 10)

/-! ### The state and the constants -/

/-- The eight working variables, and the eight words of a hash value. -/
structure Registers (W : Type*) where
  a : W
  b : W
  c : W
  d : W
  e : W
  f : W
  g : W
  h : W
  deriving DecidableEq

namespace Registers

variable {V W : Type*}

def map (φ : V → W) (s : Registers V) : Registers W :=
  ⟨φ s.a, φ s.b, φ s.c, φ s.d, φ s.e, φ s.f, φ s.g, φ s.h⟩

def zipWith (φ : V → V → W) (s t : Registers V) : Registers W :=
  ⟨φ s.a t.a, φ s.b t.b, φ s.c t.c, φ s.d t.d, φ s.e t.e, φ s.f t.f, φ s.g t.g, φ s.h t.h⟩

def toList (s : Registers W) : List W := [s.a, s.b, s.c, s.d, s.e, s.f, s.g, s.h]

theorem map_toList (φ : V → W) (s : Registers V) : (s.map φ).toList = s.toList.map φ := rfl

end Registers

def constants : List Word :=
  [
    0x428A2F98, 0x71374491, 0xB5C0FBCF, 0xE9B5DBA5, 0x3956C25B, 0x59F111F1, 0x923F82A4, 0xAB1C5ED5,
    0xD807AA98, 0x12835B01, 0x243185BE, 0x550C7DC3, 0x72BE5D74, 0x80DEB1FE, 0x9BDC06A7, 0xC19BF174,
    0xE49B69C1, 0xEFBE4786, 0x0FC19DC6, 0x240CA1CC, 0x2DE92C6F, 0x4A7484AA, 0x5CB0A9DC, 0x76F988DA,
    0x983E5152, 0xA831C66D, 0xB00327C8, 0xBF597FC7, 0xC6E00BF3, 0xD5A79147, 0x06CA6351, 0x14292967,
    0x27B70A85, 0x2E1B2138, 0x4D2C6DFC, 0x53380D13, 0x650A7354, 0x766A0ABB, 0x81C2C92E, 0x92722C85,
    0xA2BFE8A1, 0xA81A664B, 0xC24B8B70, 0xC76C51A3, 0xD192E819, 0xD6990624, 0xF40E3585, 0x106AA070,
    0x19A4C116, 0x1E376C08, 0x2748774C, 0x34B0BCB5, 0x391C0CB3, 0x4ED8AA4A, 0x5B9CCA4F, 0x682E6FF3,
    0x748F82EE, 0x78A5636F, 0x84C87814, 0x8CC70208, 0x90BEFFFA, 0xA4506CEB, 0xBEF9A3F7, 0xC67178F2]

def initial : Registers Word :=
  ⟨0x6A09E667, 0xBB67AE85, 0x3C6EF372, 0xA54FF53A, 0x510E527F, 0x9B05688C, 0x1F83D9AB, 0x5BE0CD19⟩

/-- `w` is the first 32 bits of the fractional part of the `k`th root of `p`. -/
def isRootFraction (k p : ℕ) (w : Word) : Bool :=
  (List.range p).any fun q =>
    (q * 2 ^ 32 + w.toNat) ^ k ≤ p * 2 ^ (32 * k) &&
      p * 2 ^ (32 * k) < (q * 2 ^ 32 + w.toNat + 1) ^ k

def primesBelow (n : ℕ) : List ℕ :=
  (List.range n).filter fun p => 2 ≤ p && (List.range p).all fun d => d < 2 || p % d != 0

/-- The constants are cube roots of the first 64 primes, the initial hash value has the square
roots of the first eight. -/
theorem constants_eq_roots :
    ((primesBelow 312).zipWith (isRootFraction 3) constants).all id = true ∧
      (primesBelow 312).length = constants.length ∧
      ((primesBelow 20).zipWith (isRootFraction 2) initial.toList).all id = true ∧
      (primesBelow 20).length = initial.toList.length := by
  decide +kernel

/-! ### The hash -/

/-- The words of a block. -/
def words : List UInt8 → List Word
  | b₀ :: b₁ :: b₂ :: b₃ :: rest => BitVec.ofNat 32 (BigEndian.value [b₀, b₁, b₂, b₃]) :: words rest
  | _ => []

/-- The words of a block and `t` more. -/
def schedule (M : List Word) : ℕ → List Word
  | 0 => M
  | t + 1 =>
    let W := schedule M t
    W ++ [smallSigma1 (W.getD (t + 14) 0) + W.getD (t + 9) 0 + smallSigma0 (W.getD (t + 1) 0) +
      W.getD t 0]

/-- One round, with a constant and a word of the schedule. -/
def round (s : Registers Word) (KW : Word × Word) : Registers Word :=
  let T₁ := s.h + bigSigma1 s.e + ch s.e s.f s.g + KW.1 + KW.2
  let T₂ := bigSigma0 s.a + maj s.a s.b s.c
  ⟨T₁ + T₂, s.a, s.b, s.c, s.d + T₁, s.e, s.f, s.g⟩

def compress (H : Registers Word) (block : List UInt8) : Registers Word :=
  H.zipWith (· + ·) ((constants.zip (schedule (words block) 48)).foldl round H)

/-- A one bit, zero bits up to the last 64 bits of a block, and the number of bits. -/
def padding (len : ℕ) : List UInt8 :=
  0x80 :: (List.replicate ((119 - len % 64) % 64) 0 ++ BigEndian.bytes 8 (8 * len))

def digest (H : Registers Word) : List UInt8 :=
  H.toList.flatMap fun w => BigEndian.bytes 4 w.toNat

def sha256 (message : List UInt8) : List UInt8 :=
  digest (Chaining.absorb compress 64 initial (message ++ padding message.length))

theorem length_schedule (M : List Word) (t : ℕ) : (schedule M t).length = M.length + t := by
  induction t with
  | zero => rfl
  | succ t ih => rw [schedule, List.length_append, List.length_singleton, ih, Nat.add_assoc]

theorem length_digest (H : Registers Word) : (digest H).length = 32 := by
  simp only [digest, Registers.toList, List.flatMap_cons, List.flatMap_nil, List.length_append,
    BigEndian.length_bytes, List.length_nil]

end Sha2
