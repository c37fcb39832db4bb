import OpenAPT.Bytes
import OpenAPT.Lib.FileStream
import OpenAPT.Lib.Hex

/-! `ServerLauncher::calculate_sha256`, which hashes a file in blocks. -/
namespace OpenAPT

open FileStream

structure Sha256Digest where
  bytes : Bytes
  length_eq : bytes.length = 32

/-- The text of a digest, 64 digits. -/
def Sha256Digest.text (d : Sha256Digest) : Bytes := Hex.text d.bytes

/-- What is used of OpenSSL. The hash does not depend on how its input is cut into updates. -/
structure OpenSsl where
  SHA256_CTX : Type
  SHA256_Init : SHA256_CTX
  SHA256_Update : SHA256_CTX → Bytes → SHA256_CTX
  SHA256_Final : SHA256_CTX → Sha256Digest
  sha256 : Bytes → Sha256Digest
  final_updates : ∀ pieces : List Bytes,
    SHA256_Final (pieces.foldl SHA256_Update SHA256_Init) = sha256 pieces.flatten

namespace ServerLauncher

variable (openssl : OpenSsl)

theorem bufferSize_pos : 0 < 1024 := by decide

/-- The result and `sha256_val` after the call. `content` is what is in the file if it can be
opened. -/
def calculateSha256 (content : Option Bytes) (sha256_val : Bytes) : Bool × Bytes :=
  match content with
  | none => (false, sha256_val)
  | some content =>
    let (ctx, buffer, _) := (Stream.ofContent content).foldBlocks openssl.SHA256_Update 1024
      bufferSize_pos openssl.SHA256_Init
    -- `gcount` is how much the last read has put in the buffer
    let ctx := if buffer.length > 0 then openssl.SHA256_Update ctx buffer else ctx
    (true, (openssl.SHA256_Final ctx).bytes.flatMap fun b => Hex.format 2 b.toNat)

/-- The updates have got the whole content, with its last incomplete block once. -/
theorem final_calculateSha256 (content : Bytes) :
    let r := (Stream.ofContent content).foldBlocks openssl.SHA256_Update 1024 bufferSize_pos
      openssl.SHA256_Init
    openssl.SHA256_Final (if r.2.1.length > 0 then openssl.SHA256_Update r.1 r.2.1 else r.1) =
      openssl.sha256 content := by
  have hleft : (Stream.ofContent content).left = content := rfl
  obtain ⟨blocks, hfold, hflatten⟩ := Stream.exists_blocks_of_foldBlocks bufferSize_pos
    (Stream.ofContent content) openssl.SHA256_Update openssl.SHA256_Init
  rw [Stream.readBlocks_fst, hleft] at hflatten
  have hlast : ((Stream.ofContent content).readBlocks 1024 bufferSize_pos).2.1 =
      Blocks.tail 1024 content := by
    rw [Stream.readBlocks_last, hleft]
  have hcontent : Blocks.whole 1024 content ++ Blocks.tail 1024 content = content :=
    Blocks.whole_append_tail 1024 content
  dsimp only
  rw [hfold, hlast]
  split_ifs with hrest
  · -- the tail is one more update
    have hconcat : openssl.SHA256_Update (blocks.foldl openssl.SHA256_Update openssl.SHA256_Init)
        (Blocks.tail 1024 content) =
          (blocks ++ [Blocks.tail 1024 content]).foldl openssl.SHA256_Update
            openssl.SHA256_Init := by
      rw [List.foldl_append, List.foldl_cons, List.foldl_nil]
    rw [hconcat, openssl.final_updates, List.flatten_append, List.flatten_singleton, hflatten,
      hcontent]
  · -- there are whole blocks only
    have htail : Blocks.tail 1024 content = [] := List.length_eq_zero_iff.mp (by omega)
    rw [htail, List.append_nil] at hcontent
    rw [openssl.final_updates, hflatten, hcontent]

/-- Of every file that can be opened the whole content is hashed, and `sha256_val` becomes the 64
digits of the hash. -/
theorem calculateSha256_readable (content sha256_val : Bytes) :
    calculateSha256 openssl (some content) sha256_val =
        (true, (openssl.sha256 content).text) ∧
      (calculateSha256 openssl (some content) sha256_val).2.length = 64 ∧
      ∀ c ∈ (calculateSha256 openssl (some content) sha256_val).2,
        c ∈ bytes "0123456789abcdef" := by
  have hdigits : (fun b : UInt8 => Hex.format 2 b.toNat) = Hex.byte := funext Hex.format_two
  have heq : calculateSha256 openssl (some content) sha256_val =
      (true, (openssl.sha256 content).text) := by
    have hfinal := final_calculateSha256 openssl content
    dsimp only at hfinal
    simp only [calculateSha256, hfinal, hdigits]
    rfl
  rw [heq]
  refine ⟨rfl, ?_, ?_⟩
  · rw [Sha256Digest.text, Hex.length_text, (openssl.sha256 content).length_eq]
  · have hlower : ∀ d < 16, Hex.digit d ∈ bytes "0123456789abcdef" := by decide
    intro c hc
    obtain ⟨d, hd, rfl⟩ := Hex.exists_digit_of_mem_text hc
    exact hlower d hd

/-- The SHA-256 of no bytes, and that of 1500 times the letter `a`. -/
def sha256OfLetters (s : Bytes) : Sha256Digest :=
  if s = [] then
    ⟨[0xE3, 0xB0, 0xC4, 0x42, 0x98, 0xFC, 0x1C, 0x14, 0x9A, 0xFB, 0xF4, 0xC8, 0x99, 0x6F, 0xB9,
      0x24, 0x27, 0xAE, 0x41, 0xE4, 0x64, 0x9B, 0x93, 0x4C, 0xA4, 0x95, 0x99, 0x1B, 0x78, 0x52,
      0xB8, 0x55], rfl⟩
  else
    ⟨[0xB9, 0x35, 0xF6, 0xB7, 0xA9, 0xC5, 0x6A, 0x15, 0xE7, 0xB9, 0x9C, 0x8D, 0x6D, 0x4B, 0x5E,
      0x91, 0x8F, 0x5A, 0x68, 0xFA, 0xFC, 0x44, 0x90, 0x54, 0x4A, 0x44, 0x6B, 0x2A, 0xE4, 0x7B,
      0xF8, 0x09], rfl⟩

/-- A context that keeps what it has been passed. -/
def lettersOpenSsl : OpenSsl where
  SHA256_CTX := Bytes
  SHA256_Init := []
  SHA256_Update ctx data := ctx ++ data
  SHA256_Final := sha256OfLetters
  sha256 := sha256OfLetters
  final_updates pieces := by
    have hfold : pieces.foldl (fun ctx data => ctx ++ id data) [] =
        [] ++ (pieces.map id).flatten := List.foldl_append_eq_append
    rw [List.map_id, List.nil_append] at hfold
    exact congrArg sha256OfLetters hfold

/-- A file of one whole block and a tail. -/
theorem calculateSha256_readable_letters :
    (calculateSha256 lettersOpenSsl (some (List.replicate 1500 0x61)) []).2 =
      bytes ("b935f6b7a9c56a15e7b99c8d6d4b5e91" ++
        "8f5a68fafc4490544a446b2ae47bf809") := by
  rw [(calculateSha256_readable lettersOpenSsl (List.replicate 1500 0x61) []).1]
  decide +kernel

end ServerLauncher

end OpenAPT
