import Mathlib.Data.List.TakeWhile
import OpenAPT.Base64
import OpenAPT.Lib.BitGroups

/-! `base64Decode` of a string that need not be an encoding. -/
namespace OpenAPT

open Blocks BitGroups

namespace Base64

/-- The longest part at the beginning of the string with characters of the alphabet only. -/
def alphabetPrefix (s : Bytes) : Bytes := s.takeWhile fun c => decide (c ∈ kBase64Chars)

/-- The six bits that a character of the alphabet stands for. -/
def sextetBits (c : UInt8) : List Bool := toBits 6 (kBase64Chars.idxOf c)

/-- The whole bytes in the bits of the characters. -/
def wholeBytes (characters : Bytes) : Bytes :=
  (groups 8 (characters.flatMap sextetBits)).map UInt8.ofNat

/-- The state of the loop of `base64Decode` after these characters. -/
def loopState (read : Bytes) : Buffer UInt8 UInt8 :=
  read.foldl (Buffer.push 4 decodeBlock) ⟨[], []⟩

/-- `decodeEnd` with other values in the place of what is looked up for the zeros. -/
def decodeEndWith (filler : Bytes) (s : Buffer UInt8 UInt8) : Bytes :=
  if s.pending = [] then s.out
  else s.out ++ (octets (s.pending.map findByte ++ filler)).take (s.pending.length - 1)

/-- Each character that the loop stores has a place in `char_array_4`. -/
def StoresInBounds (s : Bytes) : Prop :=
  ∀ read c rest, alphabetPrefix s = read ++ c :: rest → (loopState read).pending.length < 4

/-- The values after the characters of the last group do not matter. -/
def FillerUnused (s : Bytes) : Prop :=
  ∀ filler : Bytes, (loopState (alphabetPrefix s)).pending.length + filler.length = 4 →
    decodeEndWith filler (loopState (alphabetPrefix s)) = decodeEnd (loopState (alphabetPrefix s))

/-! ### Characters -/

theorem length_kBase64Chars : kBase64Chars.length = 64 := by decide

theorem inAlphabet_iff (c : UInt8) : InAlphabet c ↔ c ∈ kBase64Chars := by
  have hpadding : padding ∉ kBase64Chars := by decide
  rw [InAlphabet, find, ne_eq (List.idxOf? c kBase64Chars), List.idxOf?_eq_none_iff, not_not]
  constructor
  · exact And.right
  · exact fun hmem => ⟨fun heq => hpadding (heq ▸ hmem), hmem⟩

/-- What is looked up for a character of the alphabet is its place there. -/
theorem findByte_toNat {c : UInt8} (h : c ∈ kBase64Chars) :
    (findByte c).toNat = kBase64Chars.idxOf c ∧ kBase64Chars.idxOf c < 64 := by
  have hlt : kBase64Chars.idxOf c < 64 := by
    rw [← length_kBase64Chars]
    exact List.idxOf_lt_length_of_mem h
  obtain ⟨n, hfind⟩ : ∃ n, find c = some n :=
    Option.isSome_iff_exists.mp (List.isSome_idxOf?.mpr h)
  have hplace : kBase64Chars.idxOf c = n := by
    rw [List.idxOf_eq_getD_idxOf?, ← find, hfind, Option.getD_some]
  rw [hplace] at hlt ⊢
  refine ⟨?_, hlt⟩
  rw [findByte, hfind]
  exact UInt8.toNat_ofNat_of_lt' (Nat.lt_trans hlt (by decide))

theorem mem_kBase64Chars_of_mem_alphabetPrefix {s : Bytes} {c : UInt8}
    (h : c ∈ alphabetPrefix s) : c ∈ kBase64Chars := by
  have hdecide : decide (c ∈ kBase64Chars) = true :=
    List.mem_takeWhile_imp (p := fun c => decide (c ∈ kBase64Chars)) h
  exact of_decide_eq_true hdecide

/-! ### The bits of a group -/

theorem first_byte (a b : UInt8) : (a <<< 2) + ((b &&& 0x30) >>> 4) =
    UInt8.ofNat (a.toNat % 2 ^ 6 * 2 ^ 2 + b.toNat / 2 ^ 4 % 2 ^ 2) := by
  apply UInt8.toNat_inj.mp
  rw [UInt8.toNat_add, (sextet_low_toNat a).1, (sextet_high_toNat b).1, UInt8.toNat_ofNat']
  omega

theorem second_byte (b c : UInt8) : ((b &&& 0xf) <<< 4) + ((c &&& 0x3c) >>> 2) =
    UInt8.ofNat (b.toNat % 2 ^ 4 * 2 ^ 4 + c.toNat / 2 ^ 2 % 2 ^ 4) := by
  apply UInt8.toNat_inj.mp
  rw [UInt8.toNat_add, (sextet_low_toNat b).2.1, (sextet_high_toNat c).2, UInt8.toNat_ofNat']
  rfl

/-- Only the last value of a group is added whole, and it has to have six bits. -/
theorem third_byte (c : UInt8) {d : UInt8} (hd : d.toNat < 64) : ((c &&& 0x3) <<< 6) + d =
    UInt8.ofNat (c.toNat % 2 ^ 2 * 2 ^ 6 + d.toNat / 2 ^ 0 % 2 ^ 6) := by
  apply UInt8.toNat_inj.mp
  rw [UInt8.toNat_add, (sextet_low_toNat c).2.2, UInt8.toNat_ofNat']
  omega

variable {w x y z : UInt8}

theorem groups_first (hw : w ∈ kBase64Chars) (hx : x ∈ kBase64Chars) (rest : List Bool) :
    (groups 8 (sextetBits w ++ (sextetBits x ++ rest))).map UInt8.ofNat =
      ((findByte w <<< 2) + ((findByte x &&& 0x30) >>> 4)) ::
        (groups 8 (toBits 4 (kBase64Chars.idxOf x) ++ rest)).map UInt8.ofNat := by
  have hmeet := groups_meet (by decide : 0 < 6 + 2) 4 (kBase64Chars.idxOf w)
    (kBase64Chars.idxOf x) rest
  rw [first_byte, (findByte_toNat hw).1, (findByte_toNat hx).1]
  exact congrArg (List.map UInt8.ofNat) hmeet

theorem groups_second (hx : x ∈ kBase64Chars) (hy : y ∈ kBase64Chars) (rest : List Bool) :
    (groups 8 (toBits 4 (kBase64Chars.idxOf x) ++ (sextetBits y ++ rest))).map UInt8.ofNat =
      (((findByte x &&& 0xf) <<< 4) + ((findByte y &&& 0x3c) >>> 2)) ::
        (groups 8 (toBits 2 (kBase64Chars.idxOf y) ++ rest)).map UInt8.ofNat := by
  have hmeet := groups_meet (by decide : 0 < 4 + 4) 2 (kBase64Chars.idxOf x)
    (kBase64Chars.idxOf y) rest
  rw [second_byte, (findByte_toNat hx).1, (findByte_toNat hy).1]
  exact congrArg (List.map UInt8.ofNat) hmeet

theorem groups_third (hy : y ∈ kBase64Chars) (hz : z ∈ kBase64Chars) (rest : List Bool) :
    (groups 8 (toBits 2 (kBase64Chars.idxOf y) ++ (sextetBits z ++ rest))).map UInt8.ofNat =
      (((findByte y &&& 0x3) <<< 6) + findByte z) :: (groups 8 rest).map UInt8.ofNat := by
  have hmeet := groups_meet (by decide : 0 < 2 + 6) 0 (kBase64Chars.idxOf y)
    (kBase64Chars.idxOf z) rest
  obtain ⟨hlookup, hlt⟩ := findByte_toNat hz
  rw [third_byte _ (hlookup ▸ hlt), (findByte_toNat hy).1, hlookup]
  exact congrArg (List.map UInt8.ofNat) hmeet

/-! ### The loop and the last group -/

theorem wholeBytes_block {block : Bytes} (hblock : block.length = 4)
    (hmem : ∀ c ∈ block, c ∈ kBase64Chars) (rest : Bytes) :
    wholeBytes (block ++ rest) = decodeBlock block ++ wholeBytes rest := by
  match block, hblock with
  | [w, x, y, z], _ =>
    obtain ⟨hw, hx, hy, hz⟩ : w ∈ kBase64Chars ∧ x ∈ kBase64Chars ∧ y ∈ kBase64Chars ∧
        z ∈ kBase64Chars := by
      simpa only [List.forall_mem_cons, List.not_mem_nil, false_imp_iff, implies_true,
        and_true] using hmem
    rw [wholeBytes, List.cons_append, List.cons_append, List.cons_append, List.singleton_append]
    simp only [List.flatMap_cons]
    rw [groups_first hw hx, groups_second hx hy, groups_third hy hz]
    rfl

/-- Bits that are left over do not make a byte. -/
theorem groups_left {n : ℕ} (hn : n < 8) (v : ℕ) :
    (groups 8 (toBits n v ++ [])).map UInt8.ofNat = [] := by
  have hlength : (toBits n v).length < 8 := by rwa [length_toBits]
  rw [List.append_nil, groups_of_lt hlength, List.map_nil]

/-- In the last group the bits of one character are left over, which do not fill a byte. -/
theorem wholeBytes_tail {tail : Bytes} (htail : tail.length < 4)
    (hmem : ∀ c ∈ tail, c ∈ kBase64Chars) {filler : Bytes}
    (hfiller : tail.length + filler.length = 4) :
    (octets (tail.map findByte ++ filler)).take (tail.length - 1) = wholeBytes tail := by
  match tail, htail with
  | [], _ => rw [List.length_nil, List.take_zero]; rfl
  | [w], _ =>
    rw [wholeBytes, List.flatMap_singleton, ← List.append_nil (sextetBits w), sextetBits,
      groups_left (by decide)]
    rfl
  | [w, x], _ =>
    -- one byte, and four bits of the second character
    obtain ⟨hw, hx⟩ : w ∈ kBase64Chars ∧ x ∈ kBase64Chars := by
      simpa only [List.forall_mem_cons, List.not_mem_nil, false_imp_iff, implies_true,
        and_true] using hmem
    obtain ⟨u, v, rfl⟩ := List.length_eq_two.mp (show filler.length = 2 by
      rw [List.length_cons, List.length_singleton] at hfiller; omega)
    rw [wholeBytes, List.flatMap_cons, List.flatMap_cons, List.flatMap_nil, groups_first hw hx,
      groups_left (by decide)]
    rfl
  | [w, x, y], _ =>
    -- two bytes, and two bits of the third character
    obtain ⟨hw, hx, hy⟩ : w ∈ kBase64Chars ∧ x ∈ kBase64Chars ∧ y ∈ kBase64Chars := by
      simpa only [List.forall_mem_cons, List.not_mem_nil, false_imp_iff, implies_true,
        and_true] using hmem
    obtain ⟨u, rfl⟩ := List.length_eq_one_iff.mp (show filler.length = 1 by
      simp only [List.length_cons, List.length_nil] at hfiller; omega)
    rw [wholeBytes]
    simp only [List.flatMap_cons, List.flatMap_nil]
    rw [groups_first hw hx, groups_second hx hy, groups_left (by decide)]
    rfl

theorem length_pending_loopState (read : Bytes) :
    (loopState read).pending.length = read.length % 4 :=
  length_pending_foldl_push decodeBlock (by decide) read []

/-- After characters of the alphabet the loop and the last group have the whole bytes in their bits,
whatever fills the last group. -/
theorem decodeEndWith_foldl {read : Bytes} (hmem : ∀ c ∈ read, c ∈ kBase64Chars) (out : Bytes)
    {filler : Bytes} (hfiller : read.length % 4 + filler.length = 4) :
    decodeEndWith filler (read.foldl (Buffer.push 4 decodeBlock) ⟨[], out⟩) =
      out ++ wholeBytes read := by
  induction read using block_induction (by decide : 0 < 4) generalizing out with
  | tail tail hlt =>
    rw [Nat.mod_eq_of_lt hlt] at hfiller
    rw [foldl_push_of_lt decodeBlock (by rw [List.length_nil]; omega), List.nil_append,
      decodeEndWith]
    split_ifs with hnil
    · have hempty : tail = [] := hnil
      rw [hempty]
      exact (List.append_nil out).symm
    · rw [wholeBytes_tail hlt hmem hfiller]
  | block block rest hblock ih =>
    rw [List.length_append, hblock, Nat.add_mod_left] at hfiller
    rw [List.forall_mem_append] at hmem
    rw [foldl_push_block decodeBlock out hblock (by decide), ih hmem.2 _ hfiller,
      wholeBytes_block hblock hmem.1, List.append_assoc]

/-- The zeros after the last characters are looked up and give 255. -/
theorem decodeEnd_eq (s : Buffer UInt8 UInt8) :
    decodeEnd s = decodeEndWith (List.replicate (4 - s.pending.length) 255) s := by
  have hzero : findByte 0 = 255 := by decide
  rw [decodeEnd, decodeEndWith, decodeTail, List.map_append, List.map_replicate, hzero]

/-- The loop stops after the characters of the alphabet. -/
theorem decodeLoop_eq {s : Bytes} (hlt : s.length < 2147483648) :
    decodeLoop (toInt s.length) 0 ⟨[], []⟩ s = some (loopState (alphabetPrefix s)) := by
  have hsize : toInt s.length = s.length := by
    simp only [toInt]
    split_ifs <;> omega
  have hsplit : alphabetPrefix s ++ s.dropWhile (fun c => decide (c ∈ kBase64Chars)) = s :=
    List.takeWhile_append_dropWhile
  have hlength := congrArg List.length hsplit
  rw [List.length_append] at hlength
  have hread : ∀ c ∈ alphabetPrefix s, InAlphabet c := fun c hc =>
    (inAlphabet_iff c).mpr (mem_kBase64Chars_of_mem_alphabetPrefix hc)
  rw [hsize]
  nth_rewrite 2 [← hsplit]
  rw [decodeLoop_characters hread (by omega) (by rw [INT_MAX]; omega)]
  -- what is left is counted down from its own length, so the counter is not at its limit
  have hmin : (s.length : ℤ) - (alphabetPrefix s).length ≠ INT_MIN := by
    rw [INT_MIN]
    omega
  cases hrest : s.dropWhile fun c => decide (c ∈ kBase64Chars) with
  | nil => rw [decodeLoop, if_neg hmin]; rfl
  | cons c rest =>
    -- the next character is not in the alphabet
    have hne : s.dropWhile (fun c => decide (c ∈ kBase64Chars)) ≠ [] := by
      rw [hrest]
      exact List.cons_ne_nil c rest
    have hhead := List.head_dropWhile_not (fun c => decide (c ∈ kBase64Chars)) hne
    simp only [hrest, List.head_cons, decide_eq_false_iff_not] at hhead
    have hfind : find c = none := List.idxOf?_eq_none_iff.mpr hhead
    rw [decodeLoop, if_neg hmin, if_pos (Or.inr (Or.inr hfind))]
    rfl

end Base64

open Base64

/-- A string that is not an encoding is decoded up to its first character outside of the alphabet:
the result has the whole bytes of what is before, the buffer for a group is long enough, and what
fills it up at the end is not used. -/
theorem base64Decode_eq_wholeBytes {encoded_string : Bytes}
    (h : encoded_string.length < 2147483648) :
    base64Decode encoded_string = some (wholeBytes (alphabetPrefix encoded_string)) ∧
      StoresInBounds encoded_string ∧ FillerUnused encoded_string := by
  have hmem : ∀ c ∈ alphabetPrefix encoded_string, c ∈ kBase64Chars := fun c hc =>
    mem_kBase64Chars_of_mem_alphabetPrefix hc
  have hfilled {filler : Bytes}
      (hfiller : (loopState (alphabetPrefix encoded_string)).pending.length +
        filler.length = 4) :
      decodeEndWith filler (loopState (alphabetPrefix encoded_string)) =
        wholeBytes (alphabetPrefix encoded_string) := by
    rw [length_pending_loopState] at hfiller
    exact decodeEndWith_foldl hmem [] hfiller
  have hlt : (loopState (alphabetPrefix encoded_string)).pending.length < 4 := by
    rw [length_pending_loopState]
    exact Nat.mod_lt _ (by decide)
  have hend : decodeEnd (loopState (alphabetPrefix encoded_string)) =
      wholeBytes (alphabetPrefix encoded_string) := by
    rw [decodeEnd_eq]
    apply hfilled
    rw [List.length_replicate]
    omega
  refine ⟨?_, ?_, ?_⟩
  · rw [base64Decode, decodeLoop_eq h, Option.map_some, hend]
  · intro read c rest _
    rw [length_pending_loopState]
    exact Nat.mod_lt _ (by decide)
  · intro filler hfiller
    rw [hend, hfilled hfiller]

/-- Six characters and one that ends the reading: the last two give one byte. -/
theorem base64Decode_eq_wholeBytes_malformed :
    base64Decode (bytes "TWFueQ*==") = some (bytes "Many") ∧
      base64Decode (bytes "TWFueQ*==") =
        some (wholeBytes (alphabetPrefix (bytes "TWFueQ*=="))) ∧
      StoresInBounds (bytes "TWFueQ*==") ∧ FillerUnused (bytes "TWFueQ*==") :=
  ⟨by decide, base64Decode_eq_wholeBytes (by decide)⟩

end OpenAPT
