import Mathlib.Data.List.Induction
import OpenAPT.FileManager
import OpenAPT.Lib.Hex

/-! The MD5 of a file, as `FileManager::calculateMD5` and as `computeMd5Hash` of the logger make it.
The first hashes the whole blocks that are left in a stream it shares with other calls, and writes
the bytes as signed numbers. -/
namespace OpenAPT

open FileStream

structure Md5Digest where
  bytes : Bytes
  length_eq : bytes.length = 16

/-- The text of a digest, 32 digits. -/
def Md5Digest.text (d : Md5Digest) : Bytes := Hex.text d.bytes

/-- `static_cast<int>` of a `char` that is signed, as a stream writes it in hexadecimal. -/
def signedHex (b : UInt8) : Bytes := Hex.format 2 b.toInt8.toInt32.toUInt32.toNat

/-- The same for an `unsigned char`. -/
def unsignedHex (b : UInt8) : Bytes := Hex.format 2 b.toNat

namespace FileManager

/-- `md5` is the hash of all that was passed to `MD5_Update`. -/
def calculateMD5 (md5 : Bytes → Md5Digest) (s : FileManager) : Bytes × FileManager :=
  if !s.m_file.isOpen then ([], s)
  else
    -- the rest of the buffer after the last read is not used
    let (blocks, _, m_file) := s.m_file.readBlocks 1024 (by decide)
    ((md5 blocks).bytes.flatMap signedHex, { s with m_file := m_file })

/-- `computeMd5Hash` of a path, with the content of the file there if it can be opened. -/
def computeMd5Hash (md5 : Bytes → Md5Digest) (content : Option Bytes) : Bytes :=
  match content with
  | none => []
  | some content =>
    let (blocks, buffer, _) := (Stream.ofContent content).readBlocks 4096 (by decide)
    (md5 (blocks ++ buffer)).bytes.flatMap unsignedHex

/-- The calls before, on a manager that has opened the file. -/
inductive EarlierCall
  | readFile
  | getFileSize
  | calculateMD5
  deriving DecidableEq

def earlierCall (md5 : Bytes → Md5Digest) (s : FileManager) : EarlierCall → FileManager
  | .readFile => s.readFile.2
  | .getFileSize => s.getFileSize.2
  | .calculateMD5 => (s.calculateMD5 md5).2

def afterCalls (md5 : Bytes → Md5Digest) (filename content : Bytes) (calls : List EarlierCall) :
    FileManager :=
  calls.foldl (earlierCall md5) ⟨.ofContent content, filename⟩

/-- The part of the content that is hashed: nothing after the stream was read to its end, otherwise
the whole blocks. -/
def hashed (content : Bytes) (calls : List EarlierCall) : Bytes :=
  if .calculateMD5 ∈ calls ∨ calls.getLast? = some .readFile then []
  else Blocks.whole 1024 content

variable {md5 : Bytes → Md5Digest} {s : FileManager} {content filename : Bytes}

/-! ### Digits -/

theorem unsignedHex_eq (b : UInt8) : unsignedHex b = Hex.byte b := Hex.format_two b

/-- The bytes from `0x80` on are written with the digits of a negative number. -/
theorem signedHex_cases (b : UInt8) : b < 0x80 ∧ signedHex b = Hex.byte b ∨
    ¬ b < 0x80 ∧ (Hex.byte b).length < (signedHex b).length := by
  have hall : ∀ n : Fin 256,
      UInt8.ofFin n < 0x80 ∧ signedHex (UInt8.ofFin n) = Hex.byte (UInt8.ofFin n) ∨
        ¬ UInt8.ofFin n < 0x80 ∧ 2 < (signedHex (UInt8.ofFin n)).length := by decide +kernel
  exact hall b.toFin

theorem signedHex_eq_byte_iff (b : UInt8) : signedHex b = Hex.byte b ↔ b < 0x80 := by
  rcases signedHex_cases b with ⟨hlow, heq⟩ | ⟨hhigh, hlt⟩
  · exact iff_of_true heq hlow
  · apply iff_of_false _ hhigh
    intro heq
    rw [heq] at hlt
    exact Nat.lt_irrefl _ hlt

/-- The signed digits of one digest are the text of another only if the digests are the same and
have no byte with a sign. -/
theorem flatMap_signedHex_eq_text_iff (d e : Md5Digest) :
    d.bytes.flatMap signedHex = e.text ↔ d.bytes = e.bytes ∧ ∀ b ∈ e.bytes, b < 0x80 := by
  have hpieces (b : UInt8) : signedHex b = Hex.byte b ∨
      (Hex.byte b).length < (signedHex b).length := by
    rcases signedHex_cases b with ⟨-, heq⟩ | ⟨-, hlt⟩
    · exact Or.inl heq
    · exact Or.inr hlt
  have hown := Pieces.flatMap_eq_flatMap_iff hpieces d.bytes
  simp only [signedHex_eq_byte_iff] at hown
  constructor
  · intro heq
    -- a digest with a signed byte has too many digits
    have hlength : (d.bytes.flatMap signedHex).length = (d.bytes.flatMap Hex.byte).length := by
      rw [heq, Md5Digest.text, Hex.length_text, e.length_eq, ← d.length_eq, ← Hex.length_text,
        Hex.text]
    have hplain := Pieces.flatMap_eq_of_length_eq hpieces hlength
    have hbytes : d.bytes = e.bytes := Hex.text_injective (hplain.symm.trans heq)
    exact ⟨hbytes, hbytes ▸ hown.mp hplain⟩
  · intro ⟨hbytes, hlow⟩
    rw [← hbytes] at hlow
    rw [hown.mpr hlow, Md5Digest.text, ← hbytes, Hex.text]

/-! ### Streams -/

theorem computeMd5Hash_eq (md5 : Bytes → Md5Digest) (content : Bytes) :
    computeMd5Hash md5 (some content) = (md5 content).text := by
  have hleft : (Stream.ofContent content).left = content := rfl
  have hdigits : unsignedHex = Hex.byte := funext unsignedHex_eq
  simp only [computeMd5Hash, Stream.readBlocks_fst, Stream.readBlocks_last, hleft,
    Blocks.whole_append_tail, hdigits]
  rfl

theorem calculateMD5_fst (hopen : s.m_file.isOpen = true) : (s.calculateMD5 md5).1 =
    (md5 (Blocks.whole 1024 s.m_file.left)).bytes.flatMap signedHex := by
  simp only [calculateMD5, hopen, Bool.not_true, Bool.false_eq_true, ↓reduceIte,
    Stream.readBlocks_fst]

/-- What is known of the manager after the calls: a `calculateMD5` leaves the stream failed, and
before that it is at the end or at the beginning. -/
structure Ready (content : Bytes) (calls : List EarlierCall) (s : FileManager) : Prop where
  content_eq : s.m_file.file.map OpenFile.content = some content
  failed : .calculateMD5 ∈ calls → s.m_file.failbit = true
  ready : .calculateMD5 ∉ calls → s.m_file = ⟨some ⟨content,
    if calls.getLast? = some .readFile then content.length else 0⟩, false, false⟩

theorem Ready.isOpen {calls : List EarlierCall} (h : Ready content calls s) :
    s.m_file.isOpen = true := by
  have hsome : (s.m_file.file.map OpenFile.content).isSome := by
    rw [h.content_eq, Option.isSome_some]
  rwa [Option.isSome_map] at hsome

theorem Ready.whole_left {calls : List EarlierCall} (h : Ready content calls s) :
    Blocks.whole 1024 s.m_file.left = hashed content calls := by
  have hnil : Blocks.whole 1024 ([] : Bytes) = [] := Blocks.whole_of_lt (by decide)
  rw [hashed]
  by_cases hmd5 : .calculateMD5 ∈ calls
  · rw [if_pos (Or.inl hmd5), Stream.left_of_failbit (h.failed hmd5), hnil]
  · rw [h.ready hmd5, Stream.left_of_good rfl rfl]
    simp only [hmd5, false_or]
    split_ifs
    · rw [List.drop_length, hnil]
    · rw [List.drop_zero]

theorem calculateMD5_mem_concat_iff (calls : List EarlierCall) {c : EarlierCall}
    (hc : .calculateMD5 ≠ c) : .calculateMD5 ∈ calls ++ [c] ↔ .calculateMD5 ∈ calls := by
  rw [List.mem_append, List.mem_singleton, or_iff_left hc]

theorem Ready.readFile {calls : List EarlierCall} (h : Ready content calls s) :
    Ready content (calls ++ [.readFile]) s.readFile.2 := by
  have hfile : s.readFile.2.m_file = s.m_file.drain.2 := by
    simp only [FileManager.readFile, h.isOpen, Bool.not_true, Bool.false_eq_true, ↓reduceIte]
  have hmem := calculateMD5_mem_concat_iff calls (c := .readFile) (by decide)
  refine ⟨?_, fun hmd5 => ?_, fun hmd5 => ?_⟩
  · rw [hfile, Stream.drain_content, h.content_eq]
  · rw [hfile, Stream.drain_failbit, h.failed (hmem.mp hmd5)]
  · rw [hfile, h.ready (mt hmem.mpr hmd5), List.getLast?_concat, if_pos rfl]
    rfl

theorem Ready.getFileSize {calls : List EarlierCall} (h : Ready content calls s) :
    Ready content (calls ++ [.getFileSize]) s.getFileSize.2 := by
  have hfile : s.getFileSize.2.m_file =
      (s.m_file.seekg List.length).tellg.2.seekg fun _ => 0 := by
    simp only [FileManager.getFileSize, h.isOpen, Bool.not_true, Bool.false_eq_true, ↓reduceIte]
  have hmem := calculateMD5_mem_concat_iff calls (c := .getFileSize) (by decide)
  refine ⟨?_, fun hmd5 => ?_, fun hmd5 => ?_⟩
  · rw [hfile, Stream.seekg_content, Stream.tellg_content, Stream.seekg_content, h.content_eq]
  · rw [hfile, Stream.seekg_failbit]
    apply Stream.tellg_failbit
    rw [Stream.seekg_failbit, h.failed (hmem.mp hmd5)]
  · rw [hfile, h.ready (mt hmem.mpr hmd5), List.getLast?_concat]
    rfl

theorem Ready.calculateMD5 {calls : List EarlierCall} (h : Ready content calls s) :
    Ready content (calls ++ [.calculateMD5]) (s.calculateMD5 md5).2 := by
  have hfile : (s.calculateMD5 md5).2.m_file = (s.m_file.readBlocks 1024 (by decide)).2.2 := by
    simp only [FileManager.calculateMD5, h.isOpen, Bool.not_true, Bool.false_eq_true, ↓reduceIte]
  have hmem : .calculateMD5 ∈ calls ++ [EarlierCall.calculateMD5] :=
    List.mem_append_right calls List.mem_cons_self
  refine ⟨?_, fun _ => ?_, fun hmd5 => absurd hmem hmd5⟩
  · rw [hfile, Stream.readBlocks_content, h.content_eq]
  · rw [hfile, Stream.readBlocks_failbit]

/-- The manager is the one that a new manager becomes by opening the file. -/
theorem afterCalls_nil (md5 : Bytes → Md5Digest) (filename content : Bytes) :
    afterCalls md5 filename content [] = (init.openFile filename (.content content)).2 := by
  rw [openFile_of_opens rfl, afterCalls, List.foldl_nil]

theorem ready_afterCalls (md5 : Bytes → Md5Digest) (filename content : Bytes)
    (calls : List EarlierCall) : Ready content calls (afterCalls md5 filename content calls) := by
  induction calls using List.reverseRecOn with
  | nil => exact ⟨rfl, fun hmem => absurd hmem List.not_mem_nil, fun _ => rfl⟩
  | append_singleton calls c ih =>
    have hconcat : afterCalls md5 filename content (calls ++ [c]) =
        earlierCall md5 (afterCalls md5 filename content calls) c := by
      rw [afterCalls, List.foldl_append, List.foldl_cons, List.foldl_nil]
      rfl
    rw [hconcat]
    cases c with
    | readFile => exact ih.readFile
    | getFileSize => exact ih.getFileSize
    | calculateMD5 => exact ih.calculateMD5

/-- What is hashed is the whole content only of a file of whole blocks, and only before the stream
was read. -/
theorem hashed_eq_self_iff (content : Bytes) (calls : List EarlierCall) :
    hashed content calls = content ↔ content = [] ∨
      .calculateMD5 ∉ calls ∧ calls.getLast? ≠ some .readFile ∧ 1024 ∣ content.length := by
  rw [hashed]
  split_ifs with hread
  · have hnot : ¬ (.calculateMD5 ∉ calls ∧ calls.getLast? ≠ some .readFile ∧
        1024 ∣ content.length) :=
      fun h => hread.elim h.1 h.2.1
    rw [or_iff_left hnot]
    exact eq_comm
  · rw [not_or] at hread
    rw [Blocks.whole_eq_self_iff, and_iff_right hread.1, and_iff_right hread.2]
    constructor
    · exact Or.inr
    · rintro (rfl | hdvd)
      · exact Nat.dvd_zero 1024
      · exact hdvd

/-- What `calculateMD5` returns after the calls. -/
theorem calculateMD5_afterCalls (md5 : Bytes → Md5Digest) (filename content : Bytes)
    (calls : List EarlierCall) : ((afterCalls md5 filename content calls).calculateMD5 md5).1 =
      (md5 (hashed content calls)).bytes.flatMap signedHex := by
  have hready := ready_afterCalls md5 filename content calls
  rw [calculateMD5_fst hready.isOpen, hready.whole_left]

/-- After any calls on the open manager both functions return the MD5 of the whole file exactly if
what is hashed has that MD5, and no byte of it has a sign. -/
theorem calculateMD5_agrees_iff (md5 : Bytes → Md5Digest) (filename content : Bytes)
    (calls : List EarlierCall) :
    let result := ((afterCalls md5 filename content calls).calculateMD5 md5).1
    result = (md5 content).text ∧ result = computeMd5Hash md5 (some content) ↔
      (md5 (hashed content calls)).bytes = (md5 content).bytes ∧
        ∀ b ∈ (md5 content).bytes, b < 0x80 := by
  dsimp only
  rw [calculateMD5_afterCalls, computeMd5Hash_eq, and_self]
  exact flatMap_signedHex_eq_text_iff _ _

/-- The MD5 of no bytes, and that of the byte `a`. -/
def md5OfShort (s : Bytes) : Md5Digest :=
  if s = [] then
    ⟨[0xD4, 0x1D, 0x8C, 0xD9, 0x8F, 0x00, 0xB2, 0x04, 0xE9, 0x80, 0x09, 0x98, 0xEC, 0xF8, 0x42,
      0x7E], rfl⟩
  else
    ⟨[0x0C, 0xC1, 0x75, 0xB9, 0xC0, 0xF1, 0xB6, 0xA8, 0x31, 0xC3, 0x99, 0xE2, 0x69, 0x77, 0x26,
      0x61], rfl⟩

/-- Of a file with one byte nothing is hashed, and the digest is written with signs. -/
theorem calculateMD5_of_one_byte :
    let result :=
      ((afterCalls md5OfShort (bytes "a.txt") (bytes "a") []).calculateMD5 md5OfShort).1
    result = bytes ("ffffffd41dffffff8cffffffd9ffffff8f00ffffffb204ffffffe9ffffff8009ffffff98" ++
      "ffffffecfffffff8427e") ∧
    computeMd5Hash md5OfShort (some (bytes "a")) = bytes "0cc175b9c0f1b6a831c399e269772661" ∧
    result ≠ computeMd5Hash md5OfShort (some (bytes "a")) := by
  dsimp only
  rw [calculateMD5_afterCalls, computeMd5Hash_eq]
  decide +kernel

end FileManager

end OpenAPT
