import Mathlib.Data.List.Basic
import Mathlib.Data.List.Range
import Mathlib.Tactic.Common
import OpenAPT.Lib.Blocks

/-! A compression function that is run over the whole blocks of a message. The rules say that the
message may come in pieces, when what does not fill a block is kept for the next piece. -/
namespace Chaining

variable {σ τ α : Type*} (compress : σ → List α → σ) (n : ℕ)

/-- The blocks of `n` elements are compressed one after the other; a rest that does not fill a block
is left out. -/
def absorb (s : σ) (xs : List α) : σ :=
  (List.range (xs.length / n)).foldl (fun s k => compress s ((xs.drop (n * k)).take n)) s

variable {compress n}

theorem absorb_of_lt {xs : List α} (h : xs.length < n) (s : σ) : absorb compress n s xs = s := by
  rw [absorb, Nat.div_eq_of_lt h, List.range_zero, List.foldl_nil]

theorem absorb_nil (s : σ) : absorb compress n s [] = s := by
  rw [absorb, List.length_nil, Nat.zero_div, List.range_zero, List.foldl_nil]

/-- The first block is compressed first. -/
theorem absorb_block_append {b : List α} (hn : 0 < n) (hb : b.length = n) (s : σ) (xs : List α) :
    absorb compress n s (b ++ xs) = absorb compress n (compress s b) xs := by
  have hturns : (b ++ xs).length / n = xs.length / n + 1 := by
    rw [List.length_append, hb, Nat.add_comm, Nat.add_div_right _ hn]
  have hfirst : ((b ++ xs).drop (n * 0)).take n = b := by
    rw [Nat.mul_zero, List.drop_zero, ← hb, List.take_left]
  -- block `k + 1` of the message is block `k` of what comes after the first one
  have hnext (k : ℕ) : ((b ++ xs).drop (n * (k + 1))).take n = (xs.drop (n * k)).take n := by
    have hindex : n * (k + 1) = b.length + n * k := by rw [hb, Nat.mul_succ, Nat.add_comm]
    rw [hindex, List.drop_length_add_append]
  rw [absorb, hturns, List.range_succ_eq_map, List.foldl_cons, hfirst, List.foldl_map]
  simp only [Nat.succ_eq_add_one, hnext]
  rfl

theorem absorb_append_of_dvd (hn : 0 < n) {xs : List α} (h : n ∣ xs.length) (s : σ)
    (ys : List α) :
    absorb compress n s (xs ++ ys) = absorb compress n (absorb compress n s xs) ys := by
  induction xs using Blocks.block_induction hn generalizing s with
  | tail xs hlt =>
    have hnil : xs = [] := List.length_eq_zero_iff.mp (Nat.eq_zero_of_dvd_of_lt h hlt)
    rw [hnil, List.nil_append, absorb_nil]
  | block b rest hb ih =>
    have hrest : n ∣ rest.length := by
      rw [List.length_append, hb] at h
      exact (Nat.dvd_add_right (Nat.dvd_refl n)).mp h
    rw [List.append_assoc, absorb_block_append hn hb, absorb_block_append hn hb, ih hrest]

theorem absorb_whole (hn : 0 < n) (s : σ) (xs : List α) :
    absorb compress n s (Blocks.whole n xs) = absorb compress n s xs := by
  induction xs using Blocks.block_induction hn generalizing s with
  | tail xs hlt => rw [Blocks.whole_of_lt hlt, absorb_nil, absorb_of_lt hlt]
  | block b rest hb ih =>
    rw [Blocks.whole_block_append hn hb, absorb_block_append hn hb, absorb_block_append hn hb, ih]

theorem length_tail_lt (hn : 0 < n) (xs : List α) : (Blocks.tail n xs).length < n := by
  rw [Blocks.tail, List.length_drop]
  have hmod := Nat.mod_lt xs.length hn
  have hsplit := Nat.div_add_mod xs.length n
  rw [Nat.mul_comm] at hsplit
  omega

theorem dvd_length_whole (xs : List α) : n ∣ (Blocks.whole n xs).length := by
  have hle := Nat.div_mul_le_self xs.length n
  rw [Blocks.whole, List.length_take, Nat.min_eq_left hle]
  exact Nat.dvd_mul_left n _

/-- The rest of the pieces so far stands before the next piece. -/
theorem absorb_tail_append (hn : 0 < n) (s : σ) (xs ys : List α) :
    absorb compress n (absorb compress n s xs) (Blocks.tail n xs ++ ys) =
      absorb compress n s (xs ++ ys) := by
  have hsplit := Blocks.whole_append_tail n xs
  calc absorb compress n (absorb compress n s xs) (Blocks.tail n xs ++ ys)
      = absorb compress n (absorb compress n s (Blocks.whole n xs)) (Blocks.tail n xs ++ ys) := by
        rw [absorb_whole hn]
    _ = absorb compress n s (Blocks.whole n xs ++ (Blocks.tail n xs ++ ys)) := by
        rw [absorb_append_of_dvd hn (dvd_length_whole xs)]
    _ = absorb compress n s (xs ++ ys) := by rw [← List.append_assoc, hsplit]

theorem tail_append_of_dvd (hn : 0 < n) {xs : List α} (h : n ∣ xs.length) (ys : List α) :
    Blocks.tail n (xs ++ ys) = Blocks.tail n ys := by
  induction xs using Blocks.block_induction hn with
  | tail xs hlt =>
    have hnil : xs = [] := List.length_eq_zero_iff.mp (Nat.eq_zero_of_dvd_of_lt h hlt)
    rw [hnil, List.nil_append]
  | block b rest hb ih =>
    have hrest : n ∣ rest.length := by
      rw [List.length_append, hb] at h
      exact (Nat.dvd_add_right (Nat.dvd_refl n)).mp h
    rw [List.append_assoc, Blocks.tail_block_append hn hb, ih hrest]

theorem tail_tail_append (hn : 0 < n) (xs ys : List α) :
    Blocks.tail n (Blocks.tail n xs ++ ys) = Blocks.tail n (xs ++ ys) := by
  calc Blocks.tail n (Blocks.tail n xs ++ ys)
      = Blocks.tail n (Blocks.whole n xs ++ (Blocks.tail n xs ++ ys)) := by
        rw [tail_append_of_dvd hn (dvd_length_whole xs)]
    _ = Blocks.tail n (xs ++ ys) := by rw [← List.append_assoc, Blocks.whole_append_tail]

/-- Two compression functions that do the same on related states. Only blocks of `n` elements
count. -/
theorem absorb_related {compress' : τ → List α → τ} {R : σ → τ → Prop} (hn : 0 < n)
    (hstep : ∀ s t b, b.length = n → R s t → R (compress s b) (compress' t b))
    {s : σ} {t : τ} (h : R s t) (xs : List α) :
    R (absorb compress n s xs) (absorb compress' n t xs) := by
  induction xs using Blocks.block_induction hn generalizing s t with
  | tail xs hlt => rwa [absorb_of_lt hlt, absorb_of_lt hlt]
  | block b rest hb ih =>
    rw [absorb_block_append hn hb, absorb_block_append hn hb]
    exact ih (hstep s t b hb h)

end Chaining
