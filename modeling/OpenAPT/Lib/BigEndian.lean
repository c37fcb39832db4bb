import Mathlib.Algebra.Order.Ring.Int
import Mathlib.Data.List.Basic
import Mathlib.Data.List.Range
import Mathlib.Tactic.Common

/-! Numbers as bytes, the most significant byte first. -/
namespace BigEndian

def value (bs : List UInt8) : ℕ := bs.foldl (fun n b => n * 256 + b.toNat) 0

/-- The low `n` bytes of a number. -/
def bytes : ℕ → ℕ → List UInt8
  | 0, _ => []
  | n + 1, x => bytes n (x / 256) ++ [UInt8.ofNat x]

theorem value_concat (bs : List UInt8) (b : UInt8) :
    value (bs ++ [b]) = value bs * 256 + b.toNat := by
  rw [value, List.foldl_append, List.foldl_cons, List.foldl_nil]
  rfl

theorem length_bytes (n x : ℕ) : (bytes n x).length = n := by
  induction n generalizing x with
  | zero => rfl
  | succ n ih => rw [bytes, List.length_append, List.length_singleton, ih]

theorem value_lt (bs : List UInt8) : value bs < 256 ^ bs.length := by
  induction bs using List.reverseRecOn with
  | nil => exact Nat.one_pos
  | append_singleton bs b ih =>
    have hb := b.toNat_lt
    rw [value_concat, List.length_append, List.length_singleton, Nat.pow_succ]
    omega

/-- Reading back what was written. -/
theorem value_bytes (n x : ℕ) : value (bytes n x) = x % 256 ^ n := by
  induction n generalizing x with
  | zero => rw [Nat.pow_zero, Nat.mod_one]; rfl
  | succ n ih =>
    have hbyte : (UInt8.ofNat x).toNat = x % 256 := UInt8.toNat_ofNat'
    rw [bytes, value_concat, ih, hbyte, Nat.pow_succ, Nat.mul_comm (256 ^ n), Nat.mod_mul,
      Nat.mul_comm, Nat.add_comm]

/-- The bytes that are above a byte, and it. -/
theorem bytes_value (bs : List UInt8) : bytes bs.length (value bs) = bs := by
  induction bs using List.reverseRecOn with
  | nil => rfl
  | append_singleton bs b ih =>
    have hb := b.toNat_lt
    have hhigh : (value bs * 256 + b.toNat) / 256 = value bs := by omega
    have hlow : UInt8.ofNat (value bs * 256 + b.toNat) = b := by
      apply UInt8.toNat_inj.mp
      rw [UInt8.toNat_ofNat']
      omega
    rw [value_concat, List.length_append, List.length_singleton, bytes, hhigh, hlow, ih]

/-- Higher bytes do not show in the lower ones. -/
theorem bytes_mod (n x : ℕ) : bytes n (x % 256 ^ n) = bytes n x := by
  have h := bytes_value (bytes n x)
  rwa [length_bytes, value_bytes] at h

/-! ### Shifting -/

theorem shiftLeft_or (n : ℕ) (b : UInt8) : n <<< 8 ||| b.toNat = n * 256 + b.toNat := by
  rw [← Nat.shiftLeft_add_eq_or_of_lt b.toNat_lt, Nat.shiftLeft_eq]

theorem value_four (a b c d : UInt8) :
    value [a, b, c, d] = a.toNat <<< 24 ||| b.toNat <<< 16 ||| c.toNat <<< 8 ||| d.toNat := by
  have hthree : a.toNat <<< 24 ||| b.toNat <<< 16 ||| c.toNat <<< 8 =
      (((a.toNat <<< 8) ||| b.toNat) <<< 8 ||| c.toNat) <<< 8 := by
    rw [Nat.shiftLeft_or_distrib, Nat.shiftLeft_or_distrib, Nat.shiftLeft_or_distrib,
      ← Nat.shiftLeft_add, ← Nat.shiftLeft_add, ← Nat.shiftLeft_add]
  rw [hthree, shiftLeft_or, shiftLeft_or, shiftLeft_or]
  simp only [value, List.foldl_cons, List.foldl_nil, Nat.zero_mul, Nat.zero_add]

end BigEndian
