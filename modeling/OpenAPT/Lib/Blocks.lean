import Mathlib.Data.List.Basic
import Mathlib.Data.List.TakeDrop
import Mathlib.Tactic.Common

/-! A loop that collects its input in a buffer and handles the buffer whenever it holds a whole
block. -/
namespace Blocks

variable {α β : Type*}

structure Buffer (α β : Type*) where
  pending : List α
  out : List β

/-- One element is read; a buffer of `n` elements is flushed. -/
def Buffer.push (n : ℕ) (flush : List α → List β) (s : Buffer α β) (x : α) : Buffer α β :=
  if s.pending.length + 1 = n then ⟨[], s.out ++ flush (s.pending ++ [x])⟩
  else ⟨s.pending ++ [x], s.out⟩

theorem foldl_push_of_lt {n : ℕ} (flush : List α → List β) {xs : List α} {s : Buffer α β}
    (h : s.pending.length + xs.length < n) :
    xs.foldl (Buffer.push n flush) s = ⟨s.pending ++ xs, s.out⟩ := by
  induction xs generalizing s with
  | nil => rw [List.foldl_nil, List.append_nil]
  | cons x xs ih =>
    rw [List.length_cons] at h
    have hstep : s.push n flush x = ⟨s.pending ++ [x], s.out⟩ := if_neg (by omega)
    rw [List.foldl_cons, hstep, ih (by rw [List.length_append, List.length_singleton]; omega),
      List.append_assoc, List.singleton_append]

/-- A whole block passes through an empty buffer. -/
theorem foldl_push_block {n : ℕ} (flush : List α → List β) {block : List α} (out : List β)
    (h : block.length = n) (hn : 0 < n) (rest : List α) :
    (block ++ rest).foldl (Buffer.push n flush) ⟨[], out⟩ =
      rest.foldl (Buffer.push n flush) ⟨[], out ++ flush block⟩ := by
  have hne : block ≠ [] := List.ne_nil_of_length_pos (by omega)
  have hlen : block.dropLast.length + 1 = n := by rw [List.length_dropLast]; omega
  have hblock : block = block.dropLast ++ [block.getLast hne] :=
    (List.dropLast_append_getLast hne).symm
  -- All of the block but its last element stays in the buffer.
  have hfill : block.dropLast.foldl (Buffer.push n flush) ⟨[], out⟩ = ⟨block.dropLast, out⟩ :=
    foldl_push_of_lt flush (by rw [List.length_nil]; omega)
  have hlast : Buffer.push n flush ⟨block.dropLast, out⟩ (block.getLast hne) =
      ⟨[], out ++ flush block⟩ := by
    rw [Buffer.push, if_pos hlen, ← hblock]
  rw [List.foldl_append]
  congr 1
  calc block.foldl (Buffer.push n flush) ⟨[], out⟩
      = (block.dropLast ++ [block.getLast hne]).foldl (Buffer.push n flush) ⟨[], out⟩ := by
        rw [← hblock]
    _ = ⟨[], out ++ flush block⟩ := by
        rw [List.foldl_append, hfill, List.foldl_cons, List.foldl_nil, hlast]

/-- What is handled so far stands before the rest. -/
theorem foldl_push_out (n : ℕ) (flush : List α → List β) (xs pending : List α)
    (out out' : List β) :
    xs.foldl (Buffer.push n flush) ⟨pending, out ++ out'⟩ =
      ⟨(xs.foldl (Buffer.push n flush) ⟨pending, out'⟩).pending,
        out ++ (xs.foldl (Buffer.push n flush) ⟨pending, out'⟩).out⟩ := by
  induction xs generalizing pending out' with
  | nil => rfl
  | cons x xs ih =>
    simp only [List.foldl_cons, Buffer.push]
    split_ifs
    · rw [List.append_assoc, ih]
    · exact ih _ _

/-- A list is a number of whole blocks and a tail that is shorter than a block. -/
theorem block_induction {n : ℕ} (hn : 0 < n) {P : List α → Prop}
    (tail : ∀ xs : List α, xs.length < n → P xs)
    (block : ∀ b rest : List α, b.length = n → P rest → P (b ++ rest)) (xs : List α) : P xs := by
  induction hk : xs.length using Nat.strongRecOn generalizing xs with
  | _ k ih =>
    by_cases hlt : xs.length < n
    · exact tail xs hlt
    · have hrest : (xs.drop n).length < k := by rw [List.length_drop]; omega
      rw [← List.take_append_drop n xs]
      exact block _ _ (by rw [List.length_take]; omega) (ih _ hrest _ rfl)

theorem length_pending_foldl_push {n : ℕ} (flush : List α → List β) (hn : 0 < n) (xs : List α)
    (out : List β) :
    (xs.foldl (Buffer.push n flush) ⟨[], out⟩).pending.length = xs.length % n := by
  induction xs using block_induction hn generalizing out with
  | tail xs hlt =>
    rw [foldl_push_of_lt flush (by rw [List.length_nil]; omega), List.nil_append,
      Nat.mod_eq_of_lt hlt]
  | block b rest hb ih =>
    rw [foldl_push_block flush out hb hn, ih, List.length_append, hb, Nat.add_mod_left]

/-! ### Cutting off the tail -/

/-- The whole blocks at the beginning of a list. -/
def whole (n : ℕ) (xs : List α) : List α := xs.take (xs.length / n * n)

/-- What is left after the whole blocks. -/
def tail (n : ℕ) (xs : List α) : List α := xs.drop (xs.length / n * n)

theorem whole_append_tail (n : ℕ) (xs : List α) : whole n xs ++ tail n xs = xs :=
  List.take_append_drop _ xs

theorem whole_of_lt {n : ℕ} {xs : List α} (h : xs.length < n) : whole n xs = [] := by
  rw [whole, Nat.div_eq_of_lt h, Nat.zero_mul, List.take_zero]

theorem tail_of_lt {n : ℕ} {xs : List α} (h : xs.length < n) : tail n xs = xs := by
  rw [tail, Nat.div_eq_of_lt h, Nat.zero_mul, List.drop_zero]

theorem length_block_append {n : ℕ} (hn : 0 < n) {b : List α} (hb : b.length = n)
    (xs : List α) : (b ++ xs).length / n * n = b.length + xs.length / n * n := by
  rw [List.length_append, hb, Nat.add_div_left _ hn, Nat.succ_mul, Nat.add_comm]

theorem whole_block_append {n : ℕ} (hn : 0 < n) {b : List α} (hb : b.length = n)
    (xs : List α) : whole n (b ++ xs) = b ++ whole n xs := by
  rw [whole, length_block_append hn hb, List.take_length_add_append]
  rfl

theorem tail_block_append {n : ℕ} (hn : 0 < n) {b : List α} (hb : b.length = n)
    (xs : List α) : tail n (b ++ xs) = tail n xs := by
  rw [tail, length_block_append hn hb, List.drop_length_add_append]
  rfl

/-- Nothing is cut off exactly where the length is a multiple of that of a block. -/
theorem whole_eq_self_iff (n : ℕ) (xs : List α) : whole n xs = xs ↔ n ∣ xs.length := by
  rw [whole, List.take_eq_self_iff]
  constructor
  · intro h
    have hle := Nat.div_mul_le_self xs.length n
    exact ⟨xs.length / n, by rw [Nat.mul_comm]; omega⟩
  · intro h
    exact Nat.le_of_eq (Nat.div_mul_cancel h).symm

end Blocks
