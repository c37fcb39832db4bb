import Mathlib.Data.Int.Notation
import OpenAPT.Bytes
import OpenAPT.Lib.Blocks
import OpenAPT.Lib.Readers

/-! `base64Encode` and `base64Decode`. -/
namespace OpenAPT
open Blocks
open Readers (forall_byte)

namespace Base64

def kBase64Chars : Bytes :=
  bytes "ABCDEFGHIJKLMNOPQRSTUVWXYZabcdefghijklmnopqrstuvwxyz0123456789+/"

/-- `kBase64Chars[v]`. -/
def charAt (v : UInt8) : UInt8 := kBase64Chars.getD v.toNat 0

/-- `kBase64Chars.find(c)`, `none` being `npos`. -/
def find (c : UInt8) : Option ℕ := kBase64Chars.idxOf? c

/-- `find` cast to `unsigned char`, which makes 255 of `npos`. -/
def findByte (c : UInt8) : UInt8 :=
  match find c with
  | some n => UInt8.ofNat n
  | none => 255

/-- `char_array_4` from a full `char_array_3`. -/
def sextets : Bytes → Bytes
  | [a, b, c] =>
    [(a &&& 0xfc) >>> 2, ((a &&& 0x03) <<< 4) + ((b &&& 0xf0) >>> 4),
      ((b &&& 0x0f) <<< 2) + ((c &&& 0xc0) >>> 6), c &&& 0x3f]
  | _ => []

/-- `char_array_3` from a full `char_array_4`. -/
def octets : Bytes → Bytes
  | [w, x, y, z] =>
    [(w <<< 2) + ((x &&& 0x30) >>> 4), ((x &&& 0xf) <<< 4) + ((y &&& 0x3c) >>> 2),
      ((y &&& 0x3) <<< 6) + z]
  | _ => []

def encodeBlock (char_array_3 : Bytes) : Bytes := (sextets char_array_3).map charAt

def decodeBlock (char_array_4 : Bytes) : Bytes := octets (char_array_4.map findByte)

/-- The characters for a last block of `i` bytes, which zeros fill up. -/
def encodeTail (char_array_3 : Bytes) : Bytes :=
  let i := char_array_3.length
  ((sextets (char_array_3 ++ List.replicate (3 - i) 0)).take (i + 1)).map charAt

/-- The bytes of a last block of `i` characters. It is filled up with zeros, which then are looked
up in the alphabet like the others. -/
def decodeTail (char_array_4 : Bytes) : Bytes :=
  let i := char_array_4.length
  (octets ((char_array_4 ++ List.replicate (4 - i) 0).map findByte)).take (i - 1)

def padding : UInt8 := 61

end Base64

open Base64

def base64Encode (bytes_to_encode : Bytes) : Bytes :=
  let s := bytes_to_encode.foldl (Buffer.push 3 encodeBlock) ⟨[], []⟩
  if s.pending = [] then s.out
  else s.out ++ encodeTail s.pending ++ List.replicate (3 - s.pending.length) padding

namespace Base64

def INT_MIN : ℤ := -2147483648

def INT_MAX : ℤ := 2147483647

/-- The `int` made from a `size_t`. -/
def toInt (size : ℕ) : ℤ :=
  let low := size % 4294967296
  if low < 2147483648 then low else low - 4294967296

/-- The loop of `base64Decode`, on the text from index `in_` on. There is no result when a step
takes one of the two counters out of the range of `int`. -/
def decodeLoop (in_len in_ : ℤ) (s : Buffer UInt8 UInt8) :
    Bytes → Option (Buffer UInt8 UInt8)
  | [] =>
    -- The character at the end of a string is the zero character, which is not in the alphabet.
    if in_len = INT_MIN then none else some s
  | c :: encoded_string =>
    if in_len = INT_MIN then none
    else if in_len = 0 ∨ c = padding ∨ find c = none then some s
    else if in_ = INT_MAX then none
    else decodeLoop (in_len - 1) (in_ + 1) (s.push 4 decodeBlock c) encoded_string

/-- `ret` after the loop and the handling of its last block. -/
def decodeEnd (s : Buffer UInt8 UInt8) : Bytes :=
  if s.pending = [] then s.out else s.out ++ decodeTail s.pending

end Base64

def base64Decode (encoded_string : Bytes) : Option Bytes :=
  (decodeLoop (toInt encoded_string.length) 0 ⟨[], []⟩ encoded_string).map decodeEnd

example : base64Encode (bytes "Many") = bytes "TWFueQ==" ∧
    base64Decode (bytes "TWFueQ==") = some (bytes "Many") := by decide

namespace Base64

theorem high_toNat : ∀ x : UInt8, ((x &&& 0xfc) >>> 2).toNat = x.toNat / 4 ∧
    ((x &&& 0xf0) >>> 4).toNat = x.toNat / 16 ∧ ((x &&& 0xc0) >>> 6).toNat = x.toNat / 64 :=
  forall_byte (by decide +kernel)

theorem low_toNat : ∀ x : UInt8, ((x &&& 0x03) <<< 4).toNat = x.toNat % 4 * 16 ∧
    ((x &&& 0x0f) <<< 2).toNat = x.toNat % 16 * 4 ∧ (x &&& 0x3f).toNat = x.toNat % 64 :=
  forall_byte (by decide +kernel)

theorem sextet_high_toNat : ∀ x : UInt8, ((x &&& 0x30) >>> 4).toNat = x.toNat / 16 % 4 ∧
    ((x &&& 0x3c) >>> 2).toNat = x.toNat / 4 % 16 :=
  forall_byte (by decide +kernel)

theorem sextet_low_toNat : ∀ x : UInt8, (x <<< 2).toNat = x.toNat * 4 % 256 ∧
    ((x &&& 0xf) <<< 4).toNat = x.toNat % 16 * 16 ∧
    ((x &&& 0x3) <<< 6).toNat = x.toNat % 4 * 64 :=
  forall_byte (by decide +kernel)

/-- Six bits survive the alphabet, and no character of it is the padding. -/
theorem findByte_charAt : ∀ v : UInt8, v.toNat < 64 →
    findByte (charAt v) = v ∧ find (charAt v) ≠ none ∧ charAt v ≠ padding :=
  forall_byte (by decide +kernel)

theorem first_octet (a b : UInt8) :
    (((a &&& 0xfc) >>> 2) <<< 2) + (((((a &&& 0x03) <<< 4) + ((b &&& 0xf0) >>> 4)) &&& 0x30) >>> 4)
      = a := by
  apply UInt8.toNat_inj.mp
  have ha : a.toNat < 256 := a.toNat_lt
  have hb : b.toNat < 256 := b.toNat_lt
  rw [UInt8.toNat_add, (sextet_low_toNat _).1, (sextet_high_toNat _).1, UInt8.toNat_add,
    (high_toNat a).1, (low_toNat a).1, (high_toNat b).2.1]
  omega

theorem second_octet (a b c : UInt8) :
    (((((a &&& 0x03) <<< 4) + ((b &&& 0xf0) >>> 4)) &&& 0xf) <<< 4) +
      (((((b &&& 0x0f) <<< 2) + ((c &&& 0xc0) >>> 6)) &&& 0x3c) >>> 2) = b := by
  apply UInt8.toNat_inj.mp
  have hb : b.toNat < 256 := b.toNat_lt
  have hc : c.toNat < 256 := c.toNat_lt
  rw [UInt8.toNat_add, (sextet_low_toNat _).2.1, (sextet_high_toNat _).2, UInt8.toNat_add,
    UInt8.toNat_add, (low_toNat a).1, (high_toNat b).2.1, (low_toNat b).2.1, (high_toNat c).2.2]
  omega

theorem third_octet (b c : UInt8) :
    (((((b &&& 0x0f) <<< 2) + ((c &&& 0xc0) >>> 6)) &&& 0x3) <<< 6) + (c &&& 0x3f) = c := by
  apply UInt8.toNat_inj.mp
  have hc : c.toNat < 256 := c.toNat_lt
  rw [UInt8.toNat_add, (sextet_low_toNat _).2.2, UInt8.toNat_add, (low_toNat b).2.1,
    (high_toNat c).2.2, (low_toNat c).2.2]
  omega

theorem lt_of_mem_sextets {a b c v : UInt8} (h : v ∈ sextets [a, b, c]) : v.toNat < 64 := by
  have ha : a.toNat < 256 := a.toNat_lt
  have hb : b.toNat < 256 := b.toNat_lt
  have hc : c.toNat < 256 := c.toNat_lt
  simp only [sextets, List.mem_cons, List.not_mem_nil, or_false] at h
  rcases h with rfl | rfl | rfl | rfl
  · rw [(high_toNat a).1]
    omega
  · rw [UInt8.toNat_add, (low_toNat a).1, (high_toNat b).2.1]
    omega
  · rw [UInt8.toNat_add, (low_toNat b).2.1, (high_toNat c).2.2]
    omega
  · rw [(low_toNat c).2.2]
    omega

/-- The sextets of three bytes, looked up in the alphabet and back. -/
theorem findByte_sextets (a b c : UInt8) :
    ((sextets [a, b, c]).map charAt).map findByte = sextets [a, b, c] := by
  calc ((sextets [a, b, c]).map charAt).map findByte
      = (sextets [a, b, c]).map (findByte ∘ charAt) := List.map_map
    _ = (sextets [a, b, c]).map id :=
        List.map_congr_left fun v hv => (findByte_charAt v (lt_of_mem_sextets hv)).1
    _ = sextets [a, b, c] := List.map_id _

theorem decodeBlock_encodeBlock (a b c : UInt8) :
    decodeBlock (encodeBlock [a, b, c]) = [a, b, c] := by
  rw [decodeBlock, encodeBlock, findByte_sextets, sextets, octets, first_octet, second_octet,
    third_octet]

/-- A last block of one or two bytes comes back, whatever is looked up for the zeros after it. -/
theorem decodeTail_encodeTail {xs : Bytes} (hpos : 0 < xs.length) (hlt : xs.length < 3) :
    decodeTail (encodeTail xs) = xs := by
  match xs, hpos, hlt with
  | [a], _, _ =>
    have hfind := findByte_sextets a 0 0
    simp only [sextets, List.map_cons, List.map_nil, List.cons.injEq] at hfind
    have hoct := first_octet a 0
    simp only [encodeTail, decodeTail, sextets, octets, List.replicate,
      List.cons_append, List.nil_append, List.take, List.map_cons, List.map_nil, List.length_cons,
      List.length_nil, hfind, hoct]
  | [a, b], _, _ =>
    have hfind := findByte_sextets a b 0
    simp only [sextets, List.map_cons, List.map_nil, List.cons.injEq] at hfind
    have hfst := first_octet a b
    have hsnd := second_octet a b 0
    simp only [encodeTail, decodeTail, sextets, octets, List.replicate,
      List.cons_append, List.nil_append, List.take, List.map_cons, List.map_nil, List.length_cons,
      List.length_nil, hfind, hfst, hsnd]

def InAlphabet (c : UInt8) : Prop := c ≠ padding ∧ find c ≠ none

/-- What `base64Encode` writes before the padding. -/
def characters (bytes_to_encode : Bytes) : Bytes :=
  let s := bytes_to_encode.foldl (Buffer.push 3 encodeBlock) ⟨[], []⟩
  if s.pending = [] then s.out else s.out ++ encodeTail s.pending

theorem characters_nil : characters [] = [] := rfl

theorem characters_tail {xs : Bytes} (hpos : 0 < xs.length) (hlt : xs.length < 3) :
    characters xs = encodeTail xs := by
  have hne : xs ≠ [] := List.ne_nil_of_length_pos hpos
  rw [characters, foldl_push_of_lt encodeBlock (by rw [List.length_nil]; omega)]
  simp only [List.nil_append, hne, ↓reduceIte]

theorem characters_block {block : Bytes} (h : block.length = 3) (rest : Bytes) :
    characters (block ++ rest) = encodeBlock block ++ characters rest := by
  have hfold := foldl_push_out 3 encodeBlock rest [] (encodeBlock block) []
  rw [List.append_nil] at hfold
  simp only [characters, foldl_push_block encodeBlock [] h (by omega) rest, List.nil_append, hfold]
  split_ifs
  · rfl
  · rw [List.append_assoc]

theorem base64Encode_eq (bytes_to_encode : Bytes) :
    base64Encode bytes_to_encode = characters bytes_to_encode ++
      List.replicate ((3 - bytes_to_encode.length % 3) % 3) padding := by
  have hlen := length_pending_foldl_push encodeBlock (by omega : 0 < 3) bytes_to_encode []
  simp only [base64Encode, characters]
  split_ifs with h
  · rw [h, List.length_nil] at hlen
    rw [← hlen, List.replicate_zero, List.append_nil]
  · have hpos := List.length_pos_iff.mpr h
    have hpad : (3 - bytes_to_encode.length % 3) % 3 = 3 - bytes_to_encode.length % 3 := by omega
    rw [hlen, hpad]

theorem length_sextets {block : Bytes} (h : block.length = 3) : (sextets block).length = 4 := by
  obtain ⟨a, b, c, rfl⟩ := List.length_eq_three.mp h
  rfl

theorem inAlphabet_of_mem_sextets {block : Bytes} (h : block.length = 3) {v : UInt8}
    (hv : v ∈ sextets block) : InAlphabet (charAt v) := by
  obtain ⟨a, b, c, rfl⟩ := List.length_eq_three.mp h
  have hchar := findByte_charAt v (lt_of_mem_sextets hv)
  exact ⟨hchar.2.2, hchar.2.1⟩

theorem length_filled {xs : Bytes} (hlt : xs.length < 3) :
    (xs ++ List.replicate (3 - xs.length) (0 : UInt8)).length = 3 := by
  rw [List.length_append, List.length_replicate]
  omega

theorem inAlphabet_of_mem_characters (bytes_to_encode : Bytes) :
    ∀ c ∈ characters bytes_to_encode, InAlphabet c := by
  induction bytes_to_encode using block_induction (by omega : 0 < 3) with
  | tail xs hlt =>
    rcases Nat.eq_zero_or_pos xs.length with h | hpos
    · rw [List.length_eq_zero_iff.mp h]
      exact fun c hc => absurd hc List.not_mem_nil
    · intro c hc
      rw [characters_tail hpos hlt, encodeTail] at hc
      obtain ⟨v, hv, rfl⟩ := List.mem_map.mp hc
      exact inAlphabet_of_mem_sextets (length_filled hlt) (List.mem_of_mem_take hv)
  | block block rest hblock ih =>
    intro c hc
    rw [characters_block hblock] at hc
    rcases List.mem_append.mp hc with hc | hc
    · obtain ⟨v, hv, rfl⟩ := List.mem_map.mp hc
      exact inAlphabet_of_mem_sextets hblock hv
    · exact ih c hc

/-- Four characters for three bytes, those of the padding included. -/
theorem length_characters (bytes_to_encode : Bytes) :
    (characters bytes_to_encode).length + (3 - bytes_to_encode.length % 3) % 3 =
      (bytes_to_encode.length + 2) / 3 * 4 := by
  induction bytes_to_encode using block_induction (by omega : 0 < 3) with
  | tail xs hlt =>
    rcases Nat.eq_zero_or_pos xs.length with h | hpos
    · rw [List.length_eq_zero_iff.mp h]
      rfl
    · rw [characters_tail hpos hlt, encodeTail, List.length_map, List.length_take,
        length_sextets (length_filled hlt)]
      omega
  | block block rest hblock ih =>
    rw [characters_block hblock, List.length_append, List.length_append, encodeBlock,
      List.length_map, length_sextets hblock, hblock]
    omega

theorem length_base64Encode (bytes_to_encode : Bytes) :
    (base64Encode bytes_to_encode).length = (bytes_to_encode.length + 2) / 3 * 4 := by
  rw [base64Encode_eq, List.length_append, List.length_replicate, length_characters]

theorem decodeEnd_characters (bytes_to_encode out : Bytes) :
    decodeEnd ((characters bytes_to_encode).foldl (Buffer.push 4 decodeBlock) ⟨[], out⟩) =
      out ++ bytes_to_encode := by
  induction bytes_to_encode using block_induction (by omega : 0 < 3) generalizing out with
  | tail xs hlt =>
    rcases Nat.eq_zero_or_pos xs.length with h | hpos
    · rw [List.length_eq_zero_iff.mp h, characters_nil, List.foldl_nil, List.append_nil]
      rfl
    · have hlen := length_characters xs
      have hne : characters xs ≠ [] := List.ne_nil_of_length_pos (by omega)
      rw [foldl_push_of_lt decodeBlock (by rw [List.length_nil]; omega), List.nil_append, decodeEnd,
        if_neg hne, characters_tail hpos hlt, decodeTail_encodeTail hpos hlt]
  | block block rest hblock ih =>
    have hfour : (encodeBlock block).length = 4 := by
      rw [encodeBlock, List.length_map, length_sextets hblock]
    obtain ⟨a, b, c, rfl⟩ := List.length_eq_three.mp hblock
    rw [characters_block hblock, foldl_push_block decodeBlock out hfour (by omega),
      decodeBlock_encodeBlock, ih, List.append_assoc]

/-- While the counters stay in the range of `int`, the loop reads every character. -/
theorem decodeLoop_characters {xs : Bytes} (hxs : ∀ c ∈ xs, InAlphabet c) {in_len in_ : ℤ}
    (hlen : xs.length ≤ in_len) (hin : in_ + xs.length ≤ INT_MAX) (s : Buffer UInt8 UInt8)
    (rest : Bytes) :
    decodeLoop in_len in_ s (xs ++ rest) =
      decodeLoop (in_len - xs.length) (in_ + xs.length) (xs.foldl (Buffer.push 4 decodeBlock) s)
        rest := by
  induction xs generalizing in_len in_ s with
  | nil => simp only [List.nil_append, List.length_nil, Int.natCast_zero, Int.sub_zero,
      Int.add_zero, List.foldl_nil]
  | cons c xs ih =>
    obtain ⟨hpad, hfind⟩ := hxs c List.mem_cons_self
    rw [List.length_cons, Int.natCast_add] at hlen hin
    have hmin : in_len ≠ INT_MIN := by rw [INT_MIN]; omega
    have hmore : ¬ (in_len = 0 ∨ c = padding ∨ find c = none) := by
      rintro (h | h | h)
      · omega
      · exact hpad h
      · exact hfind h
    rw [List.cons_append, decodeLoop, if_neg hmin, if_neg hmore, if_neg (by omega),
      ih (fun d hd => hxs d (List.mem_cons_of_mem c hd)) (by omega) (by omega), List.foldl_cons,
      List.length_cons, Int.natCast_add]
    congr 1 <;> omega

/-- A length from 2^31 on makes `in_len` negative: it only falls, down to `INT_MIN` and below. -/
theorem decodeLoop_overflow {xs : Bytes} (hxs : ∀ c ∈ xs, InAlphabet c) {in_len : ℤ} (in_ : ℤ)
    (hmin : INT_MIN ≤ in_len) (hneg : in_len < 0) (hlen : in_len ≤ INT_MIN + xs.length)
    (s : Buffer UInt8 UInt8) (rest : Bytes) : decodeLoop in_len in_ s (xs ++ rest) = none := by
  induction xs generalizing in_len in_ s with
  | nil =>
    have heq : in_len = INT_MIN := by rw [List.length_nil] at hlen; omega
    rw [List.nil_append]
    cases rest with
    | nil => rw [decodeLoop, if_pos heq]
    | cons c rest => rw [decodeLoop, if_pos heq]
  | cons c xs ih =>
    obtain ⟨hpad, hfind⟩ := hxs c List.mem_cons_self
    rw [List.length_cons, Int.natCast_add] at hlen
    rw [List.cons_append, decodeLoop]
    split_ifs with heq hstop hmax
    · rfl
    · rcases hstop with h | h | h
      · omega
      · exact absurd h hpad
      · exact absurd h hfind
    · rfl
    · exact ih (fun d hd => hxs d (List.mem_cons_of_mem c hd)) _ (by omega) (by omega) (by omega) _

theorem decodeLoop_padding (k : ℕ) (in_ : ℤ) (s : Buffer UInt8 UInt8) :
    decodeLoop k in_ s (List.replicate k padding) = some s := by
  have hmin : (k : ℤ) ≠ INT_MIN := by rw [INT_MIN]; omega
  cases k with
  | zero => rw [List.replicate_zero, decodeLoop, if_neg hmin]
  | succ k => rw [List.replicate_succ, decodeLoop, if_neg hmin, if_pos (Or.inr (Or.inl rfl))]

end Base64

theorem base64Decode_base64Encode {bytes_to_encode : Bytes}
    (h : bytes_to_encode.length ≤ 1610612733) :
    base64Decode (base64Encode bytes_to_encode) = some bytes_to_encode := by
  have hlen := length_base64Encode bytes_to_encode
  have hchars := length_characters bytes_to_encode
  have hsize : toInt (base64Encode bytes_to_encode).length =
      (base64Encode bytes_to_encode).length := by
    simp only [toInt]
    split_ifs <;> omega
  have hrest : ((bytes_to_encode.length + 2) / 3 * 4 : ℕ) -
      ((characters bytes_to_encode).length : ℤ) =
        ((3 - bytes_to_encode.length % 3) % 3 : ℕ) := by omega
  rw [base64Decode, hsize, hlen, base64Encode_eq,
    decodeLoop_characters (inAlphabet_of_mem_characters bytes_to_encode) (by omega)
      (by rw [INT_MAX]; omega),
    hrest, decodeLoop_padding, Option.map_some, decodeEnd_characters, List.nil_append]

theorem base64Decode_base64Encode_overflow {bytes_to_encode : Bytes}
    (h : 1610612734 ≤ bytes_to_encode.length) (hlt : bytes_to_encode.length < 2147483648) :
    base64Decode (base64Encode bytes_to_encode) = none := by
  have hlen := length_base64Encode bytes_to_encode
  have hchars := length_characters bytes_to_encode
  have hsize : toInt (base64Encode bytes_to_encode).length =
      (base64Encode bytes_to_encode).length - 4294967296 := by
    simp only [toInt]
    split_ifs <;> omega
  rw [base64Decode, hsize, hlen, base64Encode_eq,
    decodeLoop_overflow (inAlphabet_of_mem_characters bytes_to_encode) 0
      (by rw [INT_MIN]; omega) (by omega) (by rw [INT_MIN]; omega), Option.map_none]

/-- Below 2^31 bytes, `base64Decode` undoes `base64Encode` as long as the length of the text fits
the `int` it is counted in. -/
theorem base64_roundtrip_iff {bytes_to_encode : Bytes}
    (hlt : bytes_to_encode.length < 2147483648) :
    base64Decode (base64Encode bytes_to_encode) = some bytes_to_encode ↔
      bytes_to_encode.length ≤ 1610612733 := by
  constructor
  · intro h
    by_contra hlong
    rw [base64Decode_base64Encode_overflow (by omega) hlt] at h
    cases h
  · exact base64Decode_base64Encode

theorem base64_roundtrip_iff_three :
    base64Decode (base64Encode (bytes "Man")) = some (bytes "Man") ↔
      (bytes "Man").length ≤ 1610612733 :=
  base64_roundtrip_iff (by decide)

theorem base64_not_roundtrip :
    ¬ ∀ bytes_to_encode : Bytes, bytes_to_encode.length < 2147483648 →
      base64Decode (base64Encode bytes_to_encode) = some bytes_to_encode := by
  intro hall
  have hlen : (List.replicate 1610612734 (0 : UInt8)).length = 1610612734 := List.length_replicate
  have h := hall (List.replicate 1610612734 0) (by omega)
  rw [base64Decode_base64Encode_overflow (by omega) (by omega)] at h
  cases h

end OpenAPT
