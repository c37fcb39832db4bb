import Mathlib.Data.Nat.Digits.Defs
import OpenAPT.Lib.WhileLoop
import OpenAPT.Sha256

/-! `hash256_one_by_one`, which takes its input in pieces, and the functions that run it over a whole
range. -/
namespace OpenAPT

namespace Picosha2

open Sha2 (Registers)

/-- `data_length_digits_` has 16 bits of the length in each of its four words. -/
structure Hash256OneByOne where
  buffer : Bytes
  dataLengthDigits : List Word
  h : Registers Word
  deriving DecidableEq

def init : Hash256OneByOne := ⟨[], List.replicate 4 0, initialMessageDigest⟩

/-- The loop of `add_to_data_length`: it goes on as long as there is something to carry. -/
def carryOver (carry : Word) : List Word → List Word
  | [] => []
  | d :: digits =>
    let d := d + carry
    -- without a carry the loop breaks, and the digits above stay
    if 65536 ≤ d then (d &&& 65535) :: carryOver (d >>> 16) digits else d :: digits

def addToDataLength (n : Word) : List Word → List Word
  | [] => []
  | d :: digits => carryOver 0 ((d + n) :: digits)

/-- The block loop runs while `i + 64 <= buffer_.size()`, and the blocks it has handled are erased. -/
def process (s : Hash256OneByOne) (data : Bytes) : Hash256OneByOne :=
  let digits := addToDataLength (BitVec.ofNat 64 data.length) s.dataLengthDigits
  let buffer := s.buffer ++ data
  let turns := buffer.length / 64
  ⟨buffer.drop (turns * 64), digits,
    (List.range turns).foldl (fun h k => hash256Block h ((buffer.drop (64 * k)).take 64)) s.h⟩

/-- The length in bits, digit by digit from the lowest one. -/
def dataBitLengthDigits (carry : Word) : List Word → List Word
  | [] => []
  | d :: digits =>
    (((d <<< 3) ||| carry) &&& 65535) :: dataBitLengthDigits ((d >>> 13) &&& 65535) digits

def writeDataBitLength (digits : List Word) : Bytes :=
  (dataBitLengthDigits 0 digits).reverse.flatMap fun d : Word =>
    [UInt8.ofBitVec ((d >>> 8).setWidth 8), UInt8.ofBitVec (d.setWidth 8)]

/-- What is copied, or filled, over the elements of an array from `i` on. -/
def overwrite (i : ℕ) (data temp : Bytes) : Bytes :=
  temp.take i ++ data ++ temp.drop (i + data.length)

/-- What `std::fill` puts in `n` places. -/
def zeros (n : ℕ) : Bytes := List.replicate n 0

/-- `finish` leaves the hash in `h_`. -/
def finish (s : Hash256OneByOne) : Hash256OneByOne :=
  let remains := s.buffer.length
  let temp := overwrite 0 s.buffer (zeros 64)
  let temp := temp.set remains 0x80
  let (h, temp) :=
    -- the length does not fit behind the one bit, and goes into a block of its own
    if 55 < remains then
      let temp := overwrite (remains + 1) (zeros (64 - (remains + 1))) temp
      (hash256Block s.h temp, overwrite 0 (zeros (64 - 4)) temp)
    else
      (s.h, overwrite (remains + 1) (zeros (64 - 4 - (remains + 1))) temp)
  let temp := overwrite 56 (writeDataBitLength s.dataLengthDigits) temp
  { s with h := hash256Block h temp }

/-- The bytes that are put in a range of `n` places. -/
def getHashBytes (n : ℕ) (s : Hash256OneByOne) : Bytes :=
  (s.h.toList.flatMap fun w : Word => (List.range 4).map fun i =>
    mask8bit (UInt8.ofBitVec ((w >>> (24 - 8 * i)).setWidth 8))).take n


/-- `hash256` on a range with random access. -/
def hash256 (src : Bytes) (n : ℕ) : Bytes := getHashBytes n (finish (process init src))

/-- `output_hex`. -/
def outputHex (bs : Bytes) : Bytes := bs.flatMap fun b => Hex.format 2 b.toNat

def hash256HexString (src : Bytes) : Bytes := outputHex (hash256 src 32)

/-- A turn of `hash256_impl` for an input iterator: what is left of the range and the hasher. Up to
`buffer_size` bytes are copied, the hasher is passed those. -/
structure Reading where
  left : Bytes
  hasher : Hash256OneByOne
  deriving DecidableEq

def readBuffer (bufferSize : ℕ) (r : Reading) : Reading :=
  ⟨r.left.drop bufferSize, process r.hasher (r.left.take bufferSize)⟩

/-- `while (first != last)`. -/
def ReadsAll (bufferSize : ℕ) (src : Bytes) (hasher : Hash256OneByOne) : Prop :=
  WhileLoop.Ends (fun r : Reading => !r.left.isEmpty) (fun r => some (readBuffer bufferSize r))
    ⟨src, init⟩ (some ⟨[], hasher⟩)

/-! ### The length -/

/-- The length that the digits stand for. -/
def dataLength (digits : List Word) : ℕ := Nat.ofDigits 65536 (digits.map BitVec.toNat)

def Normal (digits : List Word) : Prop := ∀ d ∈ digits, d.toNat < 65536

theorem dataLength_cons (d : Word) (digits : List Word) :
    dataLength (d :: digits) = d.toNat + 65536 * dataLength digits := by
  rw [dataLength, List.map_cons, Nat.ofDigits_cons]
  rfl

theorem dataLength_lt {digits : List Word} (h : Normal digits) :
    dataLength digits < 65536 ^ digits.length := by
  induction digits with
  | nil => exact Nat.one_pos
  | cons d digits ih =>
    have hd := h d List.mem_cons_self
    have hrest := ih fun e he => h e (List.mem_cons_of_mem d he)
    rw [dataLength_cons, List.length_cons, Nat.pow_succ]
    omega

theorem toNat_and_65535 (x : Word) : (x &&& 65535).toNat = x.toNat % 65536 := by
  have hmask : (65535 : Word).toNat = 2 ^ 16 - 1 := by decide
  rw [BitVec.toNat_and, hmask, Nat.and_two_pow_sub_one_eq_mod]

theorem toNat_shiftRight (x : Word) (n : ℕ) : (x >>> n).toNat = x.toNat / 2 ^ n := by
  rw [BitVec.toNat_ushiftRight, Nat.shiftRight_eq_div_pow]

/-- What is carried out of the last digit is lost. -/
theorem carryOver_spec {digits : List Word} (h : Normal digits) {carry : Word}
    (hcarry : carry.toNat + 65536 ≤ 2 ^ 64) :
    (carryOver carry digits).length = digits.length ∧ Normal (carryOver carry digits) ∧
      dataLength (carryOver carry digits) =
        (dataLength digits + carry.toNat) % 65536 ^ digits.length := by
  induction digits generalizing carry with
  | nil =>
    refine ⟨rfl, h, ?_⟩
    rw [List.length_nil, Nat.pow_zero, Nat.mod_one]
    rfl
  | cons d digits ih =>
    have hd := h d List.mem_cons_self
    have hrest : Normal digits := fun e he => h e (List.mem_cons_of_mem d he)
    have hsum : (d + carry).toNat = d.toNat + carry.toNat := by
      rw [BitVec.toNat_add, Nat.mod_eq_of_lt (by omega)]
    have hbound : (65536 : Word) ≤ d + carry ↔ 65536 ≤ d.toNat + carry.toNat := by
      rw [BitVec.le_def, hsum]
      rfl
    rw [carryOver, dataLength_cons, List.length_cons]
    by_cases hle : 65536 ≤ d.toNat + carry.toNat
    · -- the carry goes to the next digit, which is below 2^48
      have hnext : ((d + carry) >>> 16).toNat = (d.toNat + carry.toNat) / 65536 := by
        rw [toNat_shiftRight, hsum]
        rfl
      have hsmall : ((d + carry) >>> 16).toNat + 65536 ≤ 2 ^ 64 := by omega
      obtain ⟨hlength, hnormal, hvalue⟩ := ih hrest hsmall
      rw [if_pos (hbound.mpr hle), List.length_cons, dataLength_cons, toNat_and_65535, hsum,
        hlength, hvalue, hnext]
      refine ⟨rfl, ?_, ?_⟩
      · intro e he
        rcases List.mem_cons.mp he with rfl | he
        · rw [toNat_and_65535]
          exact Nat.mod_lt _ (by decide)
        · exact hnormal e he
      · have hsplit : d.toNat + 65536 * dataLength digits + carry.toNat =
            d.toNat + carry.toNat + 65536 * dataLength digits := by omega
        rw [hsplit, Nat.pow_succ, Nat.mul_comm (65536 ^ digits.length), Nat.mod_mul,
          Nat.add_mul_mod_self_left, Nat.add_mul_div_left _ _ (by decide),
          Nat.add_comm (dataLength digits)]
    · -- nothing is carried, and nothing is lost
      have hlt := dataLength_lt hrest
      rw [if_neg (fun hge => hle (hbound.mp hge)), List.length_cons, dataLength_cons, hsum]
      refine ⟨rfl, ?_, ?_⟩
      · intro e he
        rcases List.mem_cons.mp he with rfl | he
        · omega
        · exact hrest e he
      · rw [Nat.mod_eq_of_lt (by rw [Nat.pow_succ]; omega)]
        omega

theorem addToDataLength_spec {digits : List Word} (h : Normal digits) (hne : digits ≠ [])
    {n : Word} (hn : n.toNat + 65536 ≤ 2 ^ 64) :
    (addToDataLength n digits).length = digits.length ∧ Normal (addToDataLength n digits) ∧
      dataLength (addToDataLength n digits) =
        (dataLength digits + n.toNat) % 65536 ^ digits.length := by
  match digits, hne with
  | d :: digits, _ =>
    -- the length is added to the first digit before the loop, instead of a carry
    have hzero : d + n + (0 : Word) = d + n := BitVec.add_zero _
    have hfirst : addToDataLength n (d :: digits) = carryOver n (d :: digits) := by
      rw [addToDataLength, carryOver, carryOver, hzero]
    rw [hfirst]
    exact carryOver_spec h hn

/-- Three bits of each digit go to the next one. -/
theorem dataBitLengthDigits_spec {digits : List Word} (h : Normal digits) {carry : Word}
    (hcarry : carry.toNat < 8) :
    (dataBitLengthDigits carry digits).length = digits.length ∧
      Normal (dataBitLengthDigits carry digits) ∧
      dataLength (dataBitLengthDigits carry digits) =
        (8 * dataLength digits + carry.toNat) % 65536 ^ digits.length := by
  induction digits generalizing carry with
  | nil =>
    refine ⟨rfl, h, ?_⟩
    rw [List.length_nil, Nat.pow_zero, Nat.mod_one]
    rfl
  | cons d digits ih =>
    have hd := h d List.mem_cons_self
    have hrest : Normal digits := fun e he => h e (List.mem_cons_of_mem d he)
    -- the three bits that are carried in are free after the shift
    have hdigit : (((d <<< 3) ||| carry) &&& 65535).toNat =
        (8 * d.toNat + carry.toNat) % 65536 := by
      have hshift : (d <<< 3).toNat = d.toNat <<< 3 := by
        rw [BitVec.toNat_shiftLeft, Nat.shiftLeft_eq, Nat.mod_eq_of_lt (by omega)]
      rw [toNat_and_65535, BitVec.toNat_or, hshift, ← Nat.shiftLeft_add_eq_or_of_lt hcarry,
        Nat.shiftLeft_eq, Nat.mul_comm]
    have hnext : ((d >>> 13) &&& 65535).toNat = (8 * d.toNat + carry.toNat) / 65536 := by
      rw [toNat_and_65535, toNat_shiftRight]
      omega
    have hsmall : ((d >>> 13) &&& 65535).toNat < 2 ^ 3 := by omega
    obtain ⟨hlength, hnormal, hvalue⟩ := ih hrest hsmall
    rw [dataBitLengthDigits, List.length_cons, List.length_cons, dataLength_cons, dataLength_cons,
      hdigit, hlength, hvalue, hnext]
    refine ⟨rfl, ?_, ?_⟩
    · intro e he
      rcases List.mem_cons.mp he with rfl | he
      · rw [hdigit]
        exact Nat.mod_lt _ (by decide)
      · exact hnormal e he
    · have hsplit : 8 * (d.toNat + 65536 * dataLength digits) + carry.toNat =
          8 * d.toNat + carry.toNat + 65536 * (8 * dataLength digits) := by omega
      rw [hsplit, Nat.pow_succ, Nat.mul_comm (65536 ^ digits.length), Nat.mod_mul,
        Nat.add_mul_mod_self_left, Nat.add_mul_div_left _ _ (by decide),
        Nat.add_comm (8 * dataLength digits)]

/-- The digits are written from the highest one. -/
theorem flatMap_digits {digits : List Word} (h : Normal digits) :
    (digits.reverse.flatMap fun d : Word =>
      [UInt8.ofBitVec ((d >>> 8).setWidth 8), UInt8.ofBitVec (d.setWidth 8)]) =
        BigEndian.bytes (2 * digits.length) (dataLength digits) := by
  induction digits with
  | nil => rfl
  | cons d digits ih =>
    have hd := h d List.mem_cons_self
    have hrest : Normal digits := fun e he => h e (List.mem_cons_of_mem d he)
    have hvalue := dataLength_cons d digits
    have hbytes : 2 * (digits.length + 1) = 2 * digits.length + 1 + 1 := by omega
    have hhigh : dataLength (d :: digits) / 256 / 256 = dataLength digits := by omega
    -- a digit is two bytes, the upper one first
    have hsecond : UInt8.ofBitVec ((d >>> 8).setWidth 8) =
        UInt8.ofNat (dataLength (d :: digits) / 256) := by
      apply UInt8.toNat_inj.mp
      rw [UInt8.toNat_ofNat', UInt8.toNat_ofBitVec, BitVec.toNat_setWidth, toNat_shiftRight]
      omega
    have hlast : UInt8.ofBitVec (d.setWidth 8) = UInt8.ofNat (dataLength (d :: digits)) := by
      apply UInt8.toNat_inj.mp
      rw [UInt8.toNat_ofNat', UInt8.toNat_ofBitVec, BitVec.toNat_setWidth]
      omega
    rw [List.reverse_cons, List.flatMap_append, ih hrest, List.flatMap_singleton,
      List.length_cons, hbytes, BigEndian.bytes, BigEndian.bytes, hhigh, hsecond, hlast,
      List.append_assoc, List.singleton_append]

theorem writeDataBitLength_eq {digits : List Word} (h : Normal digits)
    (hlength : digits.length = 4) :
    writeDataBitLength digits = BigEndian.bytes 8 (8 * dataLength digits) := by
  have hnone : (0 : Word).toNat < 2 ^ 3 := by decide
  obtain ⟨hlen, hnormal, hvalue⟩ := dataBitLengthDigits_spec h hnone
  have hpow : 65536 ^ 4 = 256 ^ 8 := by decide
  have hzero : (0 : Word).toNat = 0 := rfl
  rw [hlength] at hlen
  rw [hlength, hzero, Nat.add_zero, hpow] at hvalue
  rw [writeDataBitLength, flatMap_digits hnormal, hlen, hvalue]
  exact BigEndian.bytes_mod 8 _

/-! ### Runs -/

/-- `s` has been passed `message`. -/
structure Hashed (s : Hash256OneByOne) (message : Bytes) : Prop where
  buffer_eq : s.buffer = Blocks.tail 64 message
  h_eq : s.h = (Chaining.absorb Sha2.compress 64 Sha2.initial message).map embed
  digits_length : s.dataLengthDigits.length = 4
  digits_normal : Normal s.dataLengthDigits
  length_eq : dataLength s.dataLengthDigits = message.length % 2 ^ 64

theorem hashed_init : Hashed init [] where
  buffer_eq := rfl
  h_eq := initialMessageDigest_eq
  digits_length := rfl
  digits_normal := by
    intro d hd
    rw [List.eq_of_mem_replicate hd]
    decide
  length_eq := by decide

theorem absorb_embed (H : Registers Sha2.Word) (data : Bytes) :
    Chaining.absorb hash256Block 64 (H.map embed) data =
      (Chaining.absorb Sha2.compress 64 H data).map embed := by
  have hstep (s : Registers Word) (t : Registers Sha2.Word) (b : Bytes) (hb : b.length = 64)
      (h : s = t.map embed) : hash256Block s b = (Sha2.compress t b).map embed := by
    rw [h, hash256Block_eq_compress t b hb]
  exact Chaining.absorb_related (R := fun s (t : Registers Sha2.Word) => s = t.map embed)
    (by decide) hstep rfl data

/-- A piece more. Its length has to fit a `ptrdiff_t`, as `std::distance` returns it. -/
theorem Hashed.process {s : Hash256OneByOne} {message : Bytes} (h : Hashed s message)
    {data : Bytes} (hdata : data.length < 2 ^ 63) :
    Hashed (process s data) (message ++ data) := by
  have hne : s.dataLengthDigits ≠ [] :=
    List.ne_nil_of_length_pos (by rw [h.digits_length]; decide)
  have hn : (BitVec.ofNat 64 data.length).toNat = data.length := by
    rw [BitVec.toNat_ofNat, Nat.mod_eq_of_lt (by omega)]
  obtain ⟨hlength, hnormal, hvalue⟩ :=
    addToDataLength_spec h.digits_normal hne (n := BitVec.ofNat 64 data.length) (by omega)
  have hpow : 65536 ^ 4 = 2 ^ 64 := by decide
  -- the blocks are cut from the buffer and the new piece, as if from the whole message
  refine ⟨?_, ?_, hlength.trans h.digits_length, hnormal, ?_⟩
  · calc (Picosha2.process s data).buffer
        = Blocks.tail 64 (s.buffer ++ data) := rfl
      _ = Blocks.tail 64 (message ++ data) := by
          rw [h.buffer_eq, Chaining.tail_tail_append (by decide)]
  · calc (Picosha2.process s data).h
        = Chaining.absorb hash256Block 64 s.h (s.buffer ++ data) := rfl
      _ = (Chaining.absorb Sha2.compress 64 Sha2.initial (message ++ data)).map embed := by
          rw [h.h_eq, h.buffer_eq, absorb_embed, Chaining.absorb_tail_append (by decide)]
  · rw [h.digits_length, hpow, h.length_eq, hn] at hvalue
    rw [List.length_append, Nat.add_mod, Nat.mod_eq_of_lt (by omega : data.length < 2 ^ 64)]
    exact hvalue

theorem hashed_foldl {s : Hash256OneByOne} {message : Bytes} (h : Hashed s message)
    {pieces : List Bytes} (hpieces : ∀ p ∈ pieces, p.length < 2 ^ 63) :
    Hashed (pieces.foldl process s) (message ++ pieces.flatten) := by
  induction pieces generalizing s message with
  | nil => rwa [List.foldl_nil, List.flatten_nil, List.append_nil]
  | cons p pieces ih =>
    rw [List.foldl_cons, List.flatten_cons, ← List.append_assoc]
    exact ih (h.process (hpieces p List.mem_cons_self))
      fun q hq => hpieces q (List.mem_cons_of_mem p hq)

/-! ### The last blocks -/

theorem overwrite_of_split {i : ℕ} {data temp : Bytes} (xs old ys : Bytes)
    (htemp : temp = xs ++ (old ++ ys)) (hi : i = xs.length) (h : old.length = data.length) :
    overwrite i data temp = xs ++ (data ++ ys) := by
  rw [overwrite, htemp, hi, List.take_left, ← List.append_assoc xs old, ← h, ← List.length_append,
    List.drop_left, List.append_assoc]

theorem length_zeros (n : ℕ) : (zeros n).length = n := List.length_replicate

theorem zeros_split {n : ℕ} (k m : ℕ) (h : n = k + m) : zeros n = zeros k ++ zeros m := by
  rw [h]
  exact List.replicate_append_replicate.symm

/-- The rest of the message and the one bit, in an array of zeros. -/
theorem set_overwrite (b : Bytes) (hb : b.length < 64) :
    (overwrite 0 b (zeros 64)).set b.length 0x80 = b ++ 0x80 :: zeros (63 - b.length) := by
  have hone : zeros (64 - b.length) = 0 :: zeros (63 - b.length) :=
    zeros_split 1 (63 - b.length) (by omega)
  have hcopy : overwrite 0 b (zeros 64) = [] ++ (b ++ zeros (64 - b.length)) :=
    overwrite_of_split [] (zeros b.length) (zeros (64 - b.length))
      (zeros_split b.length (64 - b.length) (by omega)) rfl (length_zeros _)
  rw [hcopy, List.nil_append, hone, List.set_append_right _ _ (Nat.le_refl _), Nat.sub_self,
    List.set_cons_zero]

/-- There is room for the length in the block of the last bytes. -/
theorem one_last_block (b len : Bytes) (hb : b.length ≤ 55) (hlen : len.length = 8) :
    overwrite 56 len (overwrite (b.length + 1) (zeros (64 - 4 - (b.length + 1)))
      (b ++ 0x80 :: zeros (63 - b.length))) = b ++ 0x80 :: (zeros (55 - b.length) ++ len) := by
  have hone : (b ++ [0x80]).length = b.length + 1 := by
    rw [List.length_append, List.length_singleton]
  have hfill : overwrite (b.length + 1) (zeros (64 - 4 - (b.length + 1)))
      (b ++ 0x80 :: zeros (63 - b.length)) =
        b ++ [0x80] ++ (zeros (64 - 4 - (b.length + 1)) ++ zeros 4) := by
    apply overwrite_of_split (b ++ [0x80]) (zeros (64 - 4 - (b.length + 1))) (zeros 4) _ hone.symm
      rfl
    rw [zeros_split (64 - 4 - (b.length + 1)) 4 (by omega), List.append_assoc,
      List.singleton_append]
  have hsplit : zeros (64 - 4 - (b.length + 1)) ++ zeros 4 = zeros (55 - b.length) ++ zeros 8 := by
    rw [← zeros_split (64 - 4 - (b.length + 1)) 4 (n := 63 - b.length) (by omega),
      ← zeros_split (55 - b.length) 8 (n := 63 - b.length) (by omega)]
  have hlength : 56 = (b ++ [0x80] ++ zeros (55 - b.length)).length := by
    rw [List.length_append, hone, length_zeros]
    omega
  rw [hfill, hsplit, overwrite_of_split (b ++ [0x80] ++ zeros (55 - b.length)) (zeros 8) []
    (by rw [List.append_nil, List.append_assoc _ _ (zeros 8)]) hlength ((length_zeros 8).trans hlen.symm)]
  simp only [List.append_nil, List.append_assoc, List.nil_append, List.cons_append]

/-- The length gets a block of its own. -/
theorem two_last_blocks (b len : Bytes) (hb : 55 < b.length) (hb' : b.length < 64)
    (hlen : len.length = 8) :
    overwrite (b.length + 1) (zeros (64 - (b.length + 1))) (b ++ 0x80 :: zeros (63 - b.length)) =
        b ++ 0x80 :: zeros (63 - b.length) ∧
      overwrite 56 len (overwrite 0 (zeros (64 - 4)) (b ++ 0x80 :: zeros (63 - b.length))) =
        zeros 56 ++ len := by
  have hone : (b ++ [0x80]).length = b.length + 1 := by
    rw [List.length_append, List.length_singleton]
  have hassoc : b ++ 0x80 :: zeros (63 - b.length) = b ++ [0x80] ++ zeros (63 - b.length) := by
    rw [List.append_assoc, List.singleton_append]
  constructor
  · have hrest : 64 - (b.length + 1) = 63 - b.length := by omega
    rw [hassoc, hrest, overwrite_of_split (b ++ [0x80]) (zeros (63 - b.length)) []
      (by rw [List.append_nil]) hone.symm rfl, List.append_nil]
  · -- the last four bytes are not filled, but the length goes over them
    generalize htemp : b ++ 0x80 :: zeros (63 - b.length) = temp
    have htemp_length : temp.length = 64 := by
      rw [← htemp, hassoc, List.length_append, hone, length_zeros]
      omega
    have hdrop : (temp.drop 60).length = 4 := by rw [List.length_drop, htemp_length]
    have htake : (temp.take 60).length = 60 := by
      rw [List.length_take, htemp_length]
      rfl
    have hfill : overwrite 0 (zeros (64 - 4)) temp = [] ++ (zeros 60 ++ temp.drop 60) :=
      overwrite_of_split [] (temp.take 60) (temp.drop 60) (List.take_append_drop 60 temp).symm rfl
        (htake.trans (length_zeros 60).symm)
    rw [hfill, List.nil_append, overwrite_of_split (zeros 56) (zeros 4 ++ temp.drop 60) []
      (by rw [List.append_nil, ← List.append_assoc, ← zeros_split 56 4 (n := 60) (by decide)])
      (length_zeros 56).symm, List.append_nil]
    rw [List.length_append, hdrop, length_zeros, hlen]

/-- `finish` compresses what the standard pads the message with. -/
theorem Hashed.finish {s : Hash256OneByOne} {message : Bytes} (h : Hashed s message) :
    (finish s).h = (Chaining.absorb Sha2.compress 64 Sha2.initial
      (message ++ Sha2.padding message.length)).map embed := by
  have hb : s.buffer.length < 64 := by
    rw [h.buffer_eq]
    exact Chaining.length_tail_lt (by decide) message
  have hrest : message.length % 64 = s.buffer.length := by
    have hsplit := Nat.div_add_mod message.length 64
    rw [h.buffer_eq, Blocks.tail, List.length_drop]
    omega
  have hlen : (writeDataBitLength s.dataLengthDigits).length = 8 := by
    rw [writeDataBitLength_eq h.digits_normal h.digits_length, BigEndian.length_bytes]
  -- the length in bits has only 64 of its bits written, and so it has in the standard
  have hlength : writeDataBitLength s.dataLengthDigits =
      BigEndian.bytes 8 (8 * message.length) := by
    have hpow : 256 ^ 8 = 2 ^ 64 := by decide
    rw [writeDataBitLength_eq h.digits_normal h.digits_length, h.length_eq, ← BigEndian.bytes_mod,
      ← BigEndian.bytes_mod 8 (8 * message.length), hpow, Nat.mul_mod, Nat.mod_mod, ← Nat.mul_mod]
  -- the state is that of the whole blocks, so only the rest and the padding are left
  have hstate : (Chaining.absorb Sha2.compress 64 Sha2.initial
      (message ++ Sha2.padding message.length)).map embed =
        Chaining.absorb hash256Block 64 s.h (s.buffer ++ Sha2.padding message.length) := by
    rw [h.h_eq, h.buffer_eq, absorb_embed, Chaining.absorb_tail_append (by decide)]
  have hpadding (n : ℕ) : List.replicate n 0 = zeros n := rfl
  rw [hstate, Sha2.padding, hrest, ← hlength, hpadding, Picosha2.finish, set_overwrite s.buffer hb]
  by_cases hlt : 55 < s.buffer.length
  · -- the padding makes two blocks of the rest
    obtain ⟨hfirst, hsecond⟩ := two_last_blocks s.buffer _ hlt hb hlen
    have hcount : (119 - s.buffer.length) % 64 = 63 - s.buffer.length + 56 := by omega
    have hblock : (s.buffer ++ 0x80 :: zeros (63 - s.buffer.length)).length = 64 := by
      rw [List.length_append, List.length_cons, length_zeros]
      omega
    have hlast : (zeros 56 ++ writeDataBitLength s.dataLengthDigits).length = 64 := by
      rw [List.length_append, length_zeros, hlen]
    have hsplit : s.buffer ++ 0x80 :: (zeros ((119 - s.buffer.length) % 64) ++
        writeDataBitLength s.dataLengthDigits) =
          s.buffer ++ 0x80 :: zeros (63 - s.buffer.length) ++
            (zeros 56 ++ writeDataBitLength s.dataLengthDigits) := by
      rw [zeros_split _ _ hcount]
      simp only [List.append_assoc, List.cons_append]
    rw [hsplit, Chaining.absorb_block_append (by decide) hblock]
    have hend : Chaining.absorb hash256Block 64
        (hash256Block s.h (s.buffer ++ 0x80 :: zeros (63 - s.buffer.length)))
        (zeros 56 ++ writeDataBitLength s.dataLengthDigits) =
          hash256Block (hash256Block s.h (s.buffer ++ 0x80 :: zeros (63 - s.buffer.length)))
            (zeros 56 ++ writeDataBitLength s.dataLengthDigits) := by
      have hnil := @Chaining.absorb_block_append _ _ hash256Block _ _ (by decide) hlast
        (hash256Block s.h (s.buffer ++ 0x80 :: zeros (63 - s.buffer.length))) []
      rwa [List.append_nil, Chaining.absorb_nil] at hnil
    rw [hend]
    simp only [if_pos hlt]
    rw [hfirst, hsecond]
  · -- the padding makes one block of the rest
    have hone := one_last_block s.buffer _ (Nat.le_of_not_lt hlt) hlen
    have hcount : (119 - s.buffer.length) % 64 = 55 - s.buffer.length := by omega
    have hblock : (s.buffer ++ 0x80 :: (zeros (55 - s.buffer.length) ++
        writeDataBitLength s.dataLengthDigits)).length = 64 := by
      rw [List.length_append, List.length_cons, List.length_append, length_zeros, hlen]
      omega
    have hend := @Chaining.absorb_block_append _ _ hash256Block _ _ (by decide) hblock s.h []
    rw [List.append_nil, Chaining.absorb_nil] at hend
    rw [hcount]
    simp only [if_neg hlt]
    rw [hend, hone]

/-! ### What comes out -/

theorem bytes_of_word (w : Sha2.Word) :
    ((List.range 4).map fun i =>
      mask8bit (UInt8.ofBitVec ((embed w >>> (24 - 8 * i)).setWidth 8))) =
        BigEndian.bytes 4 w.toNat := by
  have hmask (x : UInt8) : mask8bit x = x :=
    Readers.forall_byte (P := fun x => mask8bit x = x) (by decide +kernel) x
  have hw := w.isLt
  have hembed : (embed w).toNat = w.toNat := by
    rw [embed, BitVec.toNat_setWidth, Nat.mod_eq_of_lt (by omega)]
  have hbyte (k : ℕ) : UInt8.ofBitVec ((embed w >>> k).setWidth 8) =
      UInt8.ofNat (w.toNat / 2 ^ k) := by
    apply UInt8.toNat_inj.mp
    rw [UInt8.toNat_ofNat', UInt8.toNat_ofBitVec, BitVec.toNat_setWidth, toNat_shiftRight, hembed]
  have hlast : UInt8.ofNat (w.toNat / 2 ^ 0) = UInt8.ofNat w.toNat := by
    rw [Nat.pow_zero, Nat.div_one]
  simp only [hmask, hbyte, BigEndian.bytes, Nat.div_div_eq_div_mul]
  change [_, _, _, UInt8.ofNat (w.toNat / 2 ^ 0)] = _
  rw [hlast]
  rfl

theorem getHashBytes_of_embed {s : Hash256OneByOne} {H : Registers Sha2.Word}
    (h : s.h = H.map embed) (n : ℕ) : getHashBytes n s = (Sha2.digest H).take n := by
  rw [getHashBytes, h, Registers.map_toList, List.flatMap_map]
  simp only [bytes_of_word]
  rfl

theorem Hashed.getHashBytes {s : Hash256OneByOne} {message : Bytes} (h : Hashed s message) :
    getHashBytes 32 (Picosha2.finish s) = Sha2.sha256 message := by
  rw [getHashBytes_of_embed h.finish, Sha2.sha256, List.take_of_length_le]
  rw [Sha2.length_digest]

/-- A message may come in any pieces; its hash is that of the whole. -/
theorem getHashBytes_of_pieces (pieces : List Bytes) (h : ∀ p ∈ pieces, p.length < 2 ^ 63) :
    getHashBytes 32 (finish (pieces.foldl process init)) = Sha2.sha256 pieces.flatten := by
  have hrun := hashed_foldl hashed_init h
  rw [List.nil_append] at hrun
  exact hrun.getHashBytes

theorem getHashBytes_of_pieces_abc :
    getHashBytes 32 (finish ([bytes "a", [], bytes "bc"].foldl process init)) =
      Sha2.sha256 [bytes "a", [], bytes "bc"].flatten :=
  getHashBytes_of_pieces [bytes "a", [], bytes "bc"] (by decide)

theorem hash256_eq (src : Bytes) (h : src.length < 2 ^ 63) (n : ℕ) :
    hash256 src n = (Sha2.sha256 src).take n := by
  have hrun := hashed_init.process h
  rw [List.nil_append] at hrun
  rw [hash256, getHashBytes_of_embed hrun.finish, Sha2.sha256]

/-- What the hasher has got and what is left make up the range. -/
theorem hashed_readBuffer {r : Reading} {src message : Bytes} {bufferSize : ℕ}
    (hsize : bufferSize < 2 ^ 31) (hsrc : message ++ r.left = src) (h : Hashed r.hasher message) :
    ∃ message, message ++ (readBuffer bufferSize r).left = src ∧
      Hashed (readBuffer bufferSize r).hasher message := by
  have htake : (r.left.take bufferSize).length ≤ bufferSize := List.length_take_le _ _
  refine ⟨message ++ r.left.take bufferSize, ?_, h.process (by omega)⟩
  rw [readBuffer, List.append_assoc, List.take_append_drop, hsrc]

theorem exists_readsAll (src : Bytes) {bufferSize : ℕ} (hpos : 0 < bufferSize) :
    ∃ hasher, ReadsAll bufferSize src hasher := by
  -- every turn takes at least one byte from the stream
  have hstep (r : Reading) (_ : True) (htest : (!r.left.isEmpty) = true) :
      ∃ t, some (readBuffer bufferSize r) = some t ∧ True ∧ t.left.length < r.left.length := by
    refine ⟨_, rfl, trivial, ?_⟩
    have hne : r.left ≠ [] := by
      intro hnil
      rw [hnil] at htest
      cases htest
    have hlength := List.length_pos_of_ne_nil hne
    rw [readBuffer, List.length_drop]
    omega
  obtain ⟨⟨left, hasher⟩, hends, -, htest⟩ :=
    WhileLoop.exists_ends_of_variant (fun r : Reading => r.left.length) hstep
      (s := ⟨src, init⟩) trivial
  cases left with
  | nil => exact ⟨hasher, hends⟩
  | cons b left => cases htest

theorem ReadsAll.hashed {bufferSize : ℕ} {src : Bytes} {hasher : Hash256OneByOne}
    (h : ReadsAll bufferSize src hasher) (hsize : bufferSize < 2 ^ 31) : Hashed hasher src := by
  obtain ⟨r, hr, ⟨message, hmessage, hhashed⟩, -⟩ := WhileLoop.Ends.invariant
    (I := fun r : Reading => ∃ message, message ++ r.left = src ∧ Hashed r.hasher message) h
    ⟨[], rfl, hashed_init⟩
    fun r ⟨_, hmessage, hhashed⟩ _ => ⟨_, rfl, hashed_readBuffer hsize hmessage hhashed⟩
  obtain rfl := Option.some.inj hr
  rw [List.append_nil] at hmessage
  rwa [hmessage] at hhashed

theorem outputHex_eq (bs : Bytes) : outputHex bs = Hex.text bs := by
  have hdigits : (fun b : UInt8 => Hex.format 2 b.toNat) = Hex.byte := funext Hex.format_two
  rw [outputHex, hdigits]
  rfl

/-- A stream is read to its end through a buffer of any size, and its hash is the one that its bytes
have in memory; the text is the hash in hexadecimal. -/
theorem hash256HexString_of_stream (src : Bytes) (bufferSize : ℕ) (hpos : 0 < bufferSize)
    (hsize : bufferSize < 2 ^ 31) :
    (∃ hasher, ReadsAll bufferSize src hasher) ∧
    ∀ hasher, ReadsAll bufferSize src hasher →
      getHashBytes 32 (finish hasher) = Sha2.sha256 src ∧
      outputHex (getHashBytes 32 (finish hasher)) = Hex.text (Sha2.sha256 src) ∧
      (src.length < 2 ^ 63 →
        hash256HexString src = outputHex (getHashBytes 32 (finish hasher))) := by
  refine ⟨exists_readsAll src hpos, fun hasher hreads => ?_⟩
  have hbytes := (hreads.hashed hsize).getHashBytes
  refine ⟨hbytes, ?_, fun hsrc => ?_⟩
  · rw [hbytes, outputHex_eq]
  · rw [hbytes, hash256HexString, hash256_eq src hsrc, List.take_of_length_le]
    rw [Sha2.sha256, Sha2.length_digest]

theorem hash256HexString_of_stream_abc :
    ∃ hasher, ReadsAll 2 (bytes "abc") hasher ∧
      outputHex (getHashBytes 32 (finish hasher)) =
        bytes ("ba7816bf8f01cfea414140de5dae2223" ++ "b00361a396177a9cb410ff61f20015ad") := by
  obtain ⟨⟨hasher, hreads⟩, h⟩ :=
    hash256HexString_of_stream (bytes "abc") 2 (by decide) (by decide)
  refine ⟨hasher, hreads, ?_⟩
  rw [(h hasher hreads).2.1]
  decide +kernel

end Picosha2

end OpenAPT
