import Mathlib.Algebra.Order.Ring.Int
import Mathlib.Data.Nat.Digits.Defs
import Mathlib.Tactic.Common

/-! Numbers written as groups of bits of one width, the most significant bit first, and the bits cut
into groups of another width. Bits that do not fill the last group are dropped. -/
namespace BitGroups

/-- The low `w` bits of a number. -/
def toBits : ℕ → ℕ → List Bool
  | 0, _ => []
  | w + 1, n => n.testBit w :: toBits w n

def ofBits (bits : List Bool) : ℕ := Nat.ofDigits 2 (bits.reverse.map Bool.toNat)

/-- The whole groups of `w` bits. -/
def groups (w : ℕ) (bits : List Bool) : List ℕ :=
  (List.range (bits.length / w)).map fun i => ofBits ((bits.drop (i * w)).take w)

theorem length_toBits (w n : ℕ) : (toBits w n).length = w := by
  induction w with
  | zero => rfl
  | succ w ih => rw [toBits, List.length_cons, ih]

theorem ofBits_append (xs ys : List Bool) :
    ofBits (xs ++ ys) = ofBits xs * 2 ^ ys.length + ofBits ys := by
  have hlength : (ys.reverse.map Bool.toNat).length = ys.length := by
    rw [List.length_map, List.length_reverse]
  rw [ofBits, List.reverse_append, List.map_append, Nat.ofDigits_append, hlength, Nat.add_comm,
    Nat.mul_comm]
  rfl

theorem ofBits_toBits (w n : ℕ) : ofBits (toBits w n) = n % 2 ^ w := by
  induction w with
  | zero => rw [Nat.pow_zero, Nat.mod_one, toBits, ofBits, List.reverse_nil, List.map_nil,
      Nat.ofDigits_nil]
  | succ w ih =>
    have hbit : (n.testBit w).toNat = n / 2 ^ w % 2 := by
      rw [Nat.testBit_eq_decide_div_mod_eq]
      rcases Nat.mod_two_eq_zero_or_one (n / 2 ^ w) with h | h <;> rw [h] <;> rfl
    have hone : ofBits [n.testBit w] = (n.testBit w).toNat := Nat.ofDigits_singleton
    calc ofBits (toBits (w + 1) n)
        = ofBits ([n.testBit w] ++ toBits w n) := rfl
      _ = n / 2 ^ w % 2 * 2 ^ w + n % 2 ^ w := by
          rw [ofBits_append, hone, hbit, length_toBits, ih]
      _ = n % 2 ^ (w + 1) := by
          rw [Nat.mod_pow_succ, Nat.mul_comm, Nat.add_comm]

/-- The first bits are those of the number without its low ones. -/
theorem take_toBits (k w n : ℕ) : (toBits (k + w) n).take k = toBits k (n / 2 ^ w) := by
  induction k with
  | zero => rw [List.take_zero, toBits]
  | succ k ih =>
    have hwidth : k + 1 + w = k + w + 1 := by omega
    rw [hwidth, toBits, List.take_succ_cons, ih, toBits, Nat.testBit_div_two_pow]

theorem drop_toBits (k w n : ℕ) : (toBits (k + w) n).drop k = toBits w n := by
  induction k with
  | zero => rw [List.drop_zero, Nat.zero_add]
  | succ k ih =>
    have hwidth : k + 1 + w = k + w + 1 := by omega
    rw [hwidth, toBits, List.drop_succ_cons, ih]

theorem toBits_append (k w n : ℕ) :
    toBits (k + w) n = toBits k (n / 2 ^ w) ++ toBits w n := by
  rw [← take_toBits, ← drop_toBits k w n, List.take_append_drop]

theorem groups_of_lt {w : ℕ} {bits : List Bool} (h : bits.length < w) : groups w bits = [] := by
  rw [groups, Nat.div_eq_of_lt h, List.range_zero, List.map_nil]

/-- A group is taken off the front. -/
theorem groups_append {w : ℕ} (hw : 0 < w) {group : List Bool} (h : group.length = w)
    (rest : List Bool) : groups w (group ++ rest) = ofBits group :: groups w rest := by
  have hlength : (group ++ rest).length / w = rest.length / w + 1 := by
    rw [List.length_append, h, Nat.add_comm, Nat.add_div_right _ hw]
  have hdrop (i : ℕ) : (group ++ rest).drop ((i + 1) * w) = rest.drop (i * w) := by
    have hmul : (i + 1) * w = group.length + i * w := by
      rw [h, Nat.succ_mul, Nat.add_comm]
    rw [hmul, List.drop_length_add_append]
  -- the groups after the first one are those of the rest
  rw [groups, hlength, List.range_succ_eq_map, List.map_cons, List.map_map, Nat.zero_mul,
    List.drop_zero, ← h, List.take_left, h]
  congr 1
  apply List.map_congr_left
  intro i _
  rw [Function.comp_apply, hdrop]

/-- The number at the end of the bits so far and the one after it meet in a group: `k` bits of the
first and `m` bits of the second, which leaves `l` bits of the second. -/
theorem groups_meet {k m : ℕ} (hpos : 0 < k + m) (l a b : ℕ) (rest : List Bool) :
    groups (k + m) (toBits k a ++ (toBits (m + l) b ++ rest)) =
      (a % 2 ^ k * 2 ^ m + b / 2 ^ l % 2 ^ m) :: groups (k + m) (toBits l b ++ rest) := by
  have hlength : (toBits k a ++ toBits m (b / 2 ^ l)).length = k + m := by
    rw [List.length_append, length_toBits, length_toBits]
  rw [toBits_append, List.append_assoc, ← List.append_assoc, groups_append hpos hlength,
    ofBits_append, ofBits_toBits, ofBits_toBits, length_toBits]

end BitGroups
