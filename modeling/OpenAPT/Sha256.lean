import Mathlib.Data.List.GetD
import OpenAPT.Bytes
import OpenAPT.Lib.Hex
import OpenAPT.Lib.Readers
import OpenAPT.Lib.Sha2

/-! `picosha2`, the SHA-256 of the property component. Its `word_t` is an `unsigned long` of 64
bits; the block loop masks its words to 32 bits where they could get longer. -/
namespace OpenAPT

namespace Picosha2

open Sha2 (Registers)

abbrev Word := BitVec 64

/-! ### The block loop -/

def mask8bit (x : UInt8) : UInt8 := x &&& 0xFF

def mask32bit (x : Word) : Word := x &&& 0xFFFFFFFF

def addConstant : List Word :=
  [
    0x428A2F98, 0x71374491, 0xB5C0FBCF, 0xE9B5DBA5, 0x3956C25B, 0x59F111F1, 0x923F82A4, 0xAB1C5ED5,
    0xD807AA98, 0x12835B01, 0x243185BE, 0x550C7DC3, 0x72BE5D74, 0x80DEB1FE, 0x9BDC06A7, 0xC19BF174,
    0xE49B69C1, 0xEFBE4786, 0x0FC19DC6, 0x240CA1CC, 0x2DE92C6F, 0x4A7484AA, 0x5CB0A9DC, 0x76F988DA,
    0x983E5152, 0xA831C66D, 0xB00327C8, 0xBF597FC7, 0xC6E00BF3, 0xD5A79147, 0x06CA6351, 0x14292967,
    0x27B70A85, 0x2E1B2138, 0x4D2C6DFC, 0x53380D13, 0x650A7354, 0x766A0ABB, 0x81C2C92E, 0x92722C85,
    0xA2BFE8A1, 0xA81A664B, 0xC24B8B70, 0xC76C51A3, 0xD192E819, 0xD6990624, 0xF40E3585, 0x106AA070,
    0x19A4C116, 0x1E376C08, 0x2748774C, 0x34B0BCB5, 0x391C0CB3, 0x4ED8AA4A, 0x5B9CCA4F, 0x682E6FF3,
    0x748F82EE, 0x78A5636F, 0x84C87814, 0x8CC70208, 0x90BEFFFA, 0xA4506CEB, 0xBEF9A3F7, 0xC67178F2]

/-- The words of `h_`, by the names that the block loop has for them. -/
def initialMessageDigest : Registers Word :=
  ⟨0x6A09E667, 0xBB67AE85, 0x3C6EF372, 0xA54FF53A, 0x510E527F, 0x9B05688C, 0x1F83D9AB, 0x5BE0CD19⟩

def ch (x y z : Word) : Word := (x &&& y) ^^^ (~~~x &&& z)

def maj (x y z : Word) : Word := (x &&& y) ^^^ (x &&& z) ^^^ (y &&& z)

def rotr (x : Word) (n : ℕ) : Word := mask32bit ((x >>> n) ||| (x <<< (32 - n)))

def bsig0 (x : Word) : Word := rotr x 2 ^^^ rotr x 13 ^^^ rotr x 22

def bsig1 (x : Word) : Word := rotr x 6 ^^^ rotr x 11 ^^^ rotr x 25

def shr (x : Word) (n : ℕ) : Word := x >>> n

def ssig0 (x : Word) : Word := rotr x 7 ^^^ rotr x 18 ^^^ shr x 3

def ssig1 (x : Word) : Word := rotr x 17 ^^^ rotr x 19 ^^^ shr x 10

/-- `static_cast<word_t>(mask_8bit(*(first + i)))`. -/
def byteAt (block : Bytes) (i : ℕ) : Word := (mask8bit (block.getD i 0)).toBitVec.setWidth 64

/-- The first loop fills `w[0]` to `w[15]` from the block, the second one the rest. -/
def messageWords (block : Bytes) : List Word :=
  -- four bytes make a word, the most significant first
  let w := (List.range 16).foldl
    (fun w i => w.set i ((byteAt block (i * 4) <<< 24) ||| (byteAt block (i * 4 + 1) <<< 16) |||
      (byteAt block (i * 4 + 2) <<< 8) ||| byteAt block (i * 4 + 3))) (List.replicate 64 0)
  (List.range' 16 48).foldl
    (fun w i => w.set i (mask32bit (ssig1 (w.getD (i - 2) 0) + w.getD (i - 7) 0 +
      ssig0 (w.getD (i - 15) 0) + w.getD (i - 16) 0))) w

/-- One turn of the third loop, in which `h` is assigned first and `a` last. -/
def turn (w : List Word) (s : Registers Word) (i : ℕ) : Registers Word :=
  let temp1 := s.h + bsig1 s.e + ch s.e s.f s.g + addConstant.getD i 0 + w.getD i 0
  let temp2 := bsig0 s.a + maj s.a s.b s.c
  ⟨mask32bit (temp1 + temp2), s.a, s.b, s.c, mask32bit (s.d + temp1), s.e, s.f, s.g⟩

def hash256Block (messageDigest : Registers Word) (block : Bytes) : Registers Word :=
  (messageDigest.zipWith (· + ·)
    ((List.range 64).foldl (turn (messageWords block)) messageDigest)).map mask32bit

/-! ### Words of 32 bits in a `word_t` -/

def embed (x : Sha2.Word) : Word := x.setWidth 64

def low (x : Word) : Sha2.Word := x.setWidth 32

@[simp] theorem low_embed (x : Sha2.Word) : low (embed x) = x := by
  rw [low, embed, BitVec.setWidth_setWidth_of_le _ (by decide), BitVec.setWidth_eq]

theorem mask32bit_eq (x : Word) : mask32bit x = embed (low x) := by
  have hmask : (0xFFFFFFFF : Word).toNat = 2 ^ 32 - 1 := by decide
  have hlt := Nat.mod_lt x.toNat (Nat.two_pow_pos 32)
  apply BitVec.eq_of_toNat_eq
  rw [mask32bit, BitVec.toNat_and, hmask, Nat.and_two_pow_sub_one_eq_mod, embed, low,
    BitVec.toNat_setWidth, BitVec.toNat_setWidth]
  omega

/-- A sum may carry out of the 32 bits; the mask drops that. -/
@[simp] theorem low_add (x y : Word) : low (x + y) = low x + low y :=
  BitVec.setWidth_add x y (by decide)

theorem embed_and (x y : Sha2.Word) : embed x &&& embed y = embed (x &&& y) :=
  BitVec.setWidth_and.symm

theorem embed_xor (x y : Sha2.Word) : embed x ^^^ embed y = embed (x ^^^ y) :=
  BitVec.setWidth_xor.symm

/-- What is shifted to the left goes over the 32 bits, and the mask makes a rotation of it. -/
theorem rotr_embed (x : Sha2.Word) {n : ℕ} (hn : n < 32) :
    rotr (embed x) n = embed (x.rotateRight n) := by
  rw [rotr, mask32bit_eq]
  congr 1
  apply BitVec.eq_of_getLsbD_eq
  intro i hi
  rw [low, BitVec.getLsbD_setWidth, BitVec.getLsbD_or, BitVec.getLsbD_ushiftRight,
    BitVec.getLsbD_shiftLeft, BitVec.getLsbD_rotateRight, embed, BitVec.getLsbD_setWidth,
    BitVec.getLsbD_setWidth, Nat.mod_eq_of_lt hn]
  -- the low bits come from the right shift, the others from the left one
  by_cases h : i < 32 - n
  · have hright : n + i < 64 := by omega
    simp [h, hi, hright]
  · -- up here the right shift of the wide word has brought in zeros
    have hout : x.getLsbD (n + i) = false := BitVec.getLsbD_of_ge x _ (by omega)
    have hleft : i - (32 - n) < 64 := by omega
    have hi' : i < 64 := by omega
    simp [h, hi, hi', hout, hleft]

theorem shr_embed (x : Sha2.Word) (n : ℕ) : shr (embed x) n = embed (x >>> n) := by
  have hx := x.isLt
  have hle : x.toNat >>> n ≤ x.toNat := Nat.shiftRight_le _ _
  apply BitVec.eq_of_toNat_eq
  rw [shr, BitVec.toNat_ushiftRight, embed, embed, BitVec.toNat_setWidth, BitVec.toNat_setWidth,
    BitVec.toNat_ushiftRight, Nat.mod_eq_of_lt (by omega), Nat.mod_eq_of_lt (by omega)]

/-- The complement sets the bits above the 32, and those of `z` clear them again. -/
theorem ch_embed (x y z : Sha2.Word) :
    ch (embed x) (embed y) (embed z) = embed (Sha2.ch x y z) := by
  apply BitVec.eq_of_getLsbD_eq
  intro i hi
  by_cases h : i < 32
  · simp [ch, Sha2.ch, embed, hi, h]
  · simp [ch, Sha2.ch, embed, hi, h, BitVec.getLsbD_of_ge z i (by omega)]

theorem maj_embed (x y z : Sha2.Word) :
    maj (embed x) (embed y) (embed z) = embed (Sha2.maj x y z) := by
  rw [maj, embed_and, embed_and, embed_and, embed_xor, embed_xor]
  rfl

theorem bsig0_embed (x : Sha2.Word) : bsig0 (embed x) = embed (Sha2.bigSigma0 x) := by
  rw [bsig0, rotr_embed x (by decide), rotr_embed x (by decide), rotr_embed x (by decide),
    embed_xor, embed_xor]
  rfl

theorem bsig1_embed (x : Sha2.Word) : bsig1 (embed x) = embed (Sha2.bigSigma1 x) := by
  rw [bsig1, rotr_embed x (by decide), rotr_embed x (by decide), rotr_embed x (by decide),
    embed_xor, embed_xor]
  rfl

theorem ssig0_embed (x : Sha2.Word) : ssig0 (embed x) = embed (Sha2.smallSigma0 x) := by
  rw [ssig0, rotr_embed x (by decide), rotr_embed x (by decide), shr_embed, embed_xor, embed_xor]
  rfl

theorem ssig1_embed (x : Sha2.Word) : ssig1 (embed x) = embed (Sha2.smallSigma1 x) := by
  rw [ssig1, rotr_embed x (by decide), rotr_embed x (by decide), shr_embed, embed_xor, embed_xor]
  rfl

theorem getD_map_embed (W : List Sha2.Word) (i : ℕ) :
    (W.map embed).getD i 0 = embed (W.getD i 0) := by
  have hzero : (0 : Word) = embed 0 := rfl
  rw [hzero, List.getD_map]

theorem addConstant_eq : addConstant = Sha2.constants.map embed := by decide

theorem initialMessageDigest_eq : initialMessageDigest = Sha2.initial.map embed := by decide

/-! ### The message schedule -/

/-- A loop that sets one element after the other, each by what it has set so far. -/
theorem foldl_set_extend {α : Type} (z : α) (k m : ℕ) (value : List α → ℕ → α) (done : ℕ → List α)
    (hlength : ∀ t, (done t).length = k + t)
    (hdone : ∀ t < m, done (t + 1) =
      done t ++ [value (done t ++ List.replicate (m - t) z) (k + t)]) {n : ℕ} (hn : n ≤ m) :
    (List.range' k n).foldl (fun w i => w.set i (value w i)) (done 0 ++ List.replicate m z) =
      done n ++ List.replicate (m - n) z := by
  induction n with
  | zero => rfl
  | succ n ih =>
    have hrest : m - n = m - (n + 1) + 1 := by omega
    have hindex : k + n = (done n).length := (hlength n).symm
    rw [List.range'_concat, Nat.one_mul, List.foldl_append, ih (by omega), List.foldl_cons,
      List.foldl_nil, hdone n (by omega), List.append_assoc]
    -- the first of the elements that are not set yet
    generalize value (done n ++ List.replicate (m - n) z) (k + n) = v
    rw [hrest, List.replicate_succ, hindex, List.set_append_right _ _ (Nat.le_refl _),
      Nat.sub_self, List.set_cons_zero, List.singleton_append]

theorem words_eq_map (n : ℕ) {block : Bytes} (h : block.length = 4 * n) :
    Sha2.words block = (List.range n).map fun i => BitVec.ofNat 32 (BigEndian.value
      [block.getD (i * 4) 0, block.getD (i * 4 + 1) 0, block.getD (i * 4 + 2) 0,
        block.getD (i * 4 + 3) 0]) := by
  induction n generalizing block with
  | zero => rw [List.length_eq_zero_iff.mp h]; rfl
  | succ n ih =>
    match block, h with
    | b₀ :: b₁ :: b₂ :: b₃ :: rest, h =>
      -- the words after the first are those of the block without its first four bytes
      have hrest : rest.length = 4 * n := by simp only [List.length_cons] at h; omega
      rw [Sha2.words, ih hrest, List.range_succ_eq_map, List.map_cons, List.map_map]
      refine List.cons_eq_cons.mpr ⟨rfl, List.map_congr_left ?_⟩
      intro i _
      have hnext (j : ℕ) : (b₀ :: b₁ :: b₂ :: b₃ :: rest).getD ((i + 1) * 4 + j) 0 =
          rest.getD (i * 4 + j) 0 := by
        have hindex : (i + 1) * 4 + j = i * 4 + j + 1 + 1 + 1 + 1 := by omega
        rw [hindex, List.getD_cons_succ, List.getD_cons_succ, List.getD_cons_succ,
          List.getD_cons_succ]
      have hfirst : (b₀ :: b₁ :: b₂ :: b₃ :: rest).getD ((i + 1) * 4) 0 =
          rest.getD (i * 4) 0 := hnext 0
      rw [Function.comp_apply, Nat.succ_eq_add_one, hfirst, hnext, hnext, hnext]

theorem byteAt_toNat (block : Bytes) (i : ℕ) : (byteAt block i).toNat = (block.getD i 0).toNat := by
  have hmask (x : UInt8) : mask8bit x = x :=
    Readers.forall_byte (P := fun x => mask8bit x = x) (by decide +kernel) x
  have hlt := (block.getD i 0).toNat_lt
  rw [byteAt, hmask, BitVec.toNat_setWidth]
  exact Nat.mod_eq_of_lt (by omega)

/-- The shifted bytes do not overlap. -/
theorem word_of_bytes (block : Bytes) (i : ℕ) :
    ((byteAt block (i * 4) <<< 24) ||| (byteAt block (i * 4 + 1) <<< 16) |||
        (byteAt block (i * 4 + 2) <<< 8) ||| byteAt block (i * 4 + 3)) =
      embed (BitVec.ofNat 32 (BigEndian.value
        [block.getD (i * 4) 0, block.getD (i * 4 + 1) 0, block.getD (i * 4 + 2) 0,
          block.getD (i * 4 + 3) 0])) := by
  -- a byte shifted by no more than 24 bits stays in the word
  have hshift (j k : ℕ) (hk : k ≤ 24) :
      (byteAt block j <<< k).toNat = (block.getD j 0).toNat <<< k := by
    have hlt := (block.getD j 0).toNat_lt
    have hpow : 2 ^ k ≤ 2 ^ 24 := Nat.pow_le_pow_right (by decide) hk
    have hbound : (block.getD j 0).toNat * 2 ^ k ≤ 255 * 2 ^ 24 :=
      Nat.mul_le_mul (by omega) hpow
    rw [BitVec.toNat_shiftLeft, byteAt_toNat, Nat.shiftLeft_eq, Nat.mod_eq_of_lt (by omega)]
  have hvalue := BigEndian.value_lt
    [block.getD (i * 4) 0, block.getD (i * 4 + 1) 0, block.getD (i * 4 + 2) 0,
      block.getD (i * 4 + 3) 0]
  have hlength : [block.getD (i * 4) 0, block.getD (i * 4 + 1) 0, block.getD (i * 4 + 2) 0,
    block.getD (i * 4 + 3) 0].length = 4 := rfl
  rw [hlength] at hvalue
  apply BitVec.eq_of_toNat_eq
  rw [embed, BitVec.toNat_setWidth, BitVec.toNat_ofNat, Nat.mod_eq_of_lt (by omega),
    Nat.mod_eq_of_lt (by omega), BitVec.toNat_or, BitVec.toNat_or, BitVec.toNat_or,
    hshift _ _ (by decide), hshift _ _ (by decide), hshift _ _ (by decide), byteAt_toNat]
  exact (BigEndian.value_four _ _ _ _).symm

/-- The words set by the second loop when it has made `t` turns. -/
theorem messageWords_eq {block : Bytes} (h : block.length = 64) :
    messageWords block = (Sha2.schedule (Sha2.words block) 48).map embed := by
  have hwords : (Sha2.words block).length = 16 := by
    rw [words_eq_map 16 h, List.length_map, List.length_range]
  -- the first loop
  have hfirst : (List.range 16).foldl
      (fun w i => w.set i ((byteAt block (i * 4) <<< 24) ||| (byteAt block (i * 4 + 1) <<< 16) |||
        (byteAt block (i * 4 + 2) <<< 8) ||| byteAt block (i * 4 + 3))) (List.replicate 64 0) =
        (Sha2.words block).map embed ++ List.replicate 48 0 := by
    have hfill := foldl_set_extend (0 : Word) 0 64
      (fun _ i => embed (BitVec.ofNat 32 (BigEndian.value
        [block.getD (i * 4) 0, block.getD (i * 4 + 1) 0, block.getD (i * 4 + 2) 0,
          block.getD (i * 4 + 3) 0])))
      (fun t => (List.range t).map fun i => embed (BitVec.ofNat 32 (BigEndian.value
        [block.getD (i * 4) 0, block.getD (i * 4 + 1) 0, block.getD (i * 4 + 2) 0,
          block.getD (i * 4 + 3) 0])))
      (fun t => by rw [List.length_map, List.length_range, Nat.zero_add])
      (fun t _ => by rw [List.range_succ, List.map_append, List.map_singleton, Nat.zero_add])
      (n := 16) (by decide)
    simp only [word_of_bytes]
    rw [words_eq_map 16 h, List.map_map, List.range_eq_range']
    exact hfill
  rw [messageWords, hfirst]
  -- the second loop
  have hextend := foldl_set_extend (0 : Word) 16 48
    (fun w i => mask32bit (ssig1 (w.getD (i - 2) 0) + w.getD (i - 7) 0 +
      ssig0 (w.getD (i - 15) 0) + w.getD (i - 16) 0))
    (fun t => (Sha2.schedule (Sha2.words block) t).map embed)
    (fun t => by rw [List.length_map, Sha2.length_schedule, hwords])
    (fun t ht => ?_) (n := 48) (Nat.le_refl _)
  · rw [Nat.sub_self, List.replicate_zero, List.append_nil] at hextend
    exact hextend
  -- the four words that are read are among those that are set
  have hread (j : ℕ) (hj : j < 16 + t) :
      ((Sha2.schedule (Sha2.words block) t).map embed ++ List.replicate (48 - t) 0).getD j 0 =
        embed ((Sha2.schedule (Sha2.words block) t).getD j 0) := by
    have hlt : j < ((Sha2.schedule (Sha2.words block) t).map embed).length := by
      rw [List.length_map, Sha2.length_schedule, hwords]
      exact hj
    rw [List.getD_append _ _ _ _ hlt, getD_map_embed]
  have h2 : 16 + t - 2 = t + 14 := by omega
  have h7 : 16 + t - 7 = t + 9 := by omega
  have h15 : 16 + t - 15 = t + 1 := by omega
  have h16 : 16 + t - 16 = t := by omega
  rw [h2, h7, h15, h16, hread _ (by omega), hread _ (by omega), hread _ (by omega),
    hread _ (by omega), ssig1_embed, ssig0_embed, mask32bit_eq, low_add, low_add, low_add, low_embed,
    low_embed, low_embed, low_embed, Sha2.schedule, List.map_append, List.map_singleton]

/-! ### The rounds -/

theorem turn_embed (W : List Sha2.Word) (s : Registers Sha2.Word) (i : ℕ) :
    turn (W.map embed) (s.map embed) i =
      (Sha2.round s (Sha2.constants.getD i 0, W.getD i 0)).map embed := by
  have hconstant : addConstant.getD i 0 = embed (Sha2.constants.getD i 0) := by
    rw [addConstant_eq, getD_map_embed]
  simp only [turn, Registers.map, Sha2.round, hconstant, getD_map_embed, bsig0_embed, bsig1_embed,
    ch_embed, maj_embed, mask32bit_eq, low_add, low_embed]

theorem foldl_range_getD {α β σ : Type} (f : σ → α × β → σ) (as : List α) (bs : List β)
    (a : α) (b : β) (h : as.length = bs.length) (s : σ) :
    (List.range as.length).foldl (fun s i => f s (as.getD i a, bs.getD i b)) s =
      (as.zip bs).foldl f s := by
  induction as generalizing bs s with
  | nil => rfl
  | cons x as ih =>
    match bs, h with
    | y :: bs, h =>
      rw [List.length_cons, List.range_succ_eq_map, List.foldl_cons, List.foldl_map,
        List.zip_cons_cons, List.foldl_cons]
      exact ih bs (Nat.succ.inj h) _

/-- A block changes the state as FIPS 180-4 says, whatever it was and whatever is in the block. -/
theorem hash256Block_eq_compress (H : Registers Sha2.Word) (block : Bytes)
    (h : block.length = 64) :
    hash256Block (H.map embed) block = (Sha2.compress H block).map embed := by
  have hlength : Sha2.constants.length = (Sha2.schedule (Sha2.words block) 48).length := by
    rw [Sha2.length_schedule, words_eq_map 16 h, List.length_map, List.length_range]
    rfl
  -- after every turn the words are those of the standard, embedded
  have hturns (n : ℕ) (s : Registers Sha2.Word) :
      (List.range n).foldl (turn ((Sha2.schedule (Sha2.words block) 48).map embed)) (s.map embed) =
        ((List.range n).foldl (fun s i => Sha2.round s (Sha2.constants.getD i 0,
          (Sha2.schedule (Sha2.words block) 48).getD i 0)) s).map embed := by
    induction n with
    | zero => rfl
    | succ n ih => rw [List.range_succ, List.foldl_append, List.foldl_append, ih, List.foldl_cons,
        List.foldl_nil, List.foldl_cons, List.foldl_nil, turn_embed]
  rw [hash256Block, messageWords_eq h, hturns, Sha2.compress,
    ← foldl_range_getD Sha2.round _ _ 0 0 hlength]
  simp only [Registers.zipWith, Registers.map, mask32bit_eq, low_add, low_embed]
  rfl

end Picosha2

end OpenAPT
