import OpenAPT.CompressFile

/-! `decompress_file`, whose loop goes on while `gzread` gives data, and ends without a look at why
it gives none. What `compress_file` wrote, it gives back. -/
namespace OpenAPT

open WhileLoop

/-- What `gzread` returns: a positive number of bytes, `0` at the end of the file, which may be in
the middle of the stream, or `-1` for an error. -/
inductive GzRead
  | data (bytes : Bytes) (ne_nil : bytes ≠ []) (length_le : bytes.length ≤ CHUNK)
  | eof
  | truncated
  | error

/-- The bytes of a positive result. -/
def GzRead.bytes : GzRead → Option Bytes
  | data bytes _ _ => some bytes
  | eof | truncated | error => none

/-- What `decompress_file` finds: whether the input exists and both files can be opened, whether the
input is gzip data, which `gzread` only copies otherwise, what each read returns, which pieces the
output accepts after what was written, and whether it is closed without an error. -/
structure DecompressEnv where
  inputExists : Bool
  outputOpens : Bool
  inputOpens : Bool
  gzip : Bool
  gzread : ℕ → GzRead
  accepts : Bytes → Bytes → Bool
  closes : Bool

/-- The loop: the reads so far, and what was written. -/
structure DecompressState where
  reads : ℕ
  written : Bytes

namespace DecompressEnv

/-- `fwrite` returns less than the number of bytes it was given for an error. -/
def fwrite (e : DecompressEnv) (written buf : Bytes) : ℕ :=
  if e.accepts written buf then buf.length else 0

/-- One turn of the loop, `none` if the function returns `false` there. -/
def turn (e : DecompressEnv) (s : DecompressState) : Option DecompressState :=
  let buf := (e.gzread s.reads).bytes.getD []
  if e.fwrite s.written buf ≠ buf.length then none
  else some ⟨s.reads + 1, s.written ++ buf⟩

/-- `while ((bytesRead = gzread(in, buf, CHUNK)) > 0)`, and how it ends. -/
def Decompresses (e : DecompressEnv) (o : Option DecompressState) : Prop :=
  Ends (fun s => (e.gzread s.reads).bytes.isSome) e.turn ⟨0, []⟩ o

def opens (e : DecompressEnv) : Bool := e.inputExists && e.outputOpens && e.inputOpens

/-- `decompress_file` returns `result`. -/
def decompress_file (e : DecompressEnv) (result : Bool) : Prop :=
  if !e.opens then result = false
  else ∃ o, e.Decompresses o ∧ result = o.isSome

/-- What the first `n` reads give. -/
def content (e : DecompressEnv) (n : ℕ) : Bytes :=
  (List.range n).flatMap fun i => (e.gzread i).bytes.getD []

/-- The input is a gzip file that is read up to its end, and all of its data is written. -/
def DecodesAll (e : DecompressEnv) : Prop :=
  ∃ n s, (∀ i < n, (e.gzread i).bytes.isSome = true) ∧ e.gzread n = .eof ∧ e.gzip = true ∧
    e.Decompresses (some s) ∧ s.written = e.content n ∧ e.closes = true

/-- The function returns `true` only if the file was decoded as a whole. -/
def ReportsCorruption (e : DecompressEnv) : Prop := e.decompress_file true → e.DecodesAll

/-- The reads before `n` give data, which is written. -/
def Passes (e : DecompressEnv) (n : ℕ) : Prop :=
  ∀ i < n, (e.gzread i).bytes.isSome = true ∧
    e.fwrite (e.content i) ((e.gzread i).bytes.getD []) = ((e.gzread i).bytes.getD []).length

/-- A file cannot be opened, or a read that ends the loop is at the end of a gzip file, and the
output is closed without an error. -/
def Intact (e : DecompressEnv) : Prop :=
  e.opens = true → ∀ n, e.Passes n → (e.gzread n).bytes.isSome = false →
    e.gzread n = .eof ∧ e.gzip = true ∧ e.closes = true

variable {e : DecompressEnv} {n : ℕ}

/-- The loop after `n` reads. -/
def trace (e : DecompressEnv) (n : ℕ) : DecompressState := ⟨n, e.content n⟩

theorem content_succ (e : DecompressEnv) (n : ℕ) :
    e.content (n + 1) = e.content n ++ (e.gzread n).bytes.getD [] := by
  rw [content, List.range_succ, List.flatMap_append, List.flatMap_singleton]
  rfl

theorem turn_trace_iff (e : DecompressEnv) (i : ℕ) (t : DecompressState) :
    e.turn (e.trace i) = some t ↔
      e.fwrite (e.content i) ((e.gzread i).bytes.getD []) =
        ((e.gzread i).bytes.getD []).length ∧ t = e.trace (i + 1) := by
  have hturn : e.turn (e.trace i) =
      if e.fwrite (e.content i) ((e.gzread i).bytes.getD []) ≠ ((e.gzread i).bytes.getD []).length
      then none else some (e.trace (i + 1)) := by
    rw [trace, trace, content_succ]
    rfl
  rw [hturn]
  split_ifs with h
  · exact iff_of_false nofun fun h' => h h'.1
  · rw [Option.some_inj, eq_comm, and_iff_right (not_not.mp h)]

/-- The loop ends at the first read that gives no data, if everything before it is written. -/
theorem decompresses_some_iff (e : DecompressEnv) (s : DecompressState) :
    e.Decompresses (some s) ↔
      ∃ n, e.Passes n ∧ (e.gzread n).bytes.isSome = false ∧ s = ⟨n, e.content n⟩ := by
  have hpasses (n : ℕ) : (∀ i < n, (e.gzread (e.trace i).reads).bytes.isSome = true ∧
      e.turn (e.trace i) = some (e.trace (i + 1))) ↔ e.Passes n := by
    apply forall₂_congr
    intro i _
    rw [turn_trace_iff, and_iff_left rfl]
    rfl
  have hends : e.Decompresses (some s) ↔ ∃ n,
      (∀ i < n, (e.gzread (e.trace i).reads).bytes.isSome = true ∧
        e.turn (e.trace i) = some (e.trace (i + 1))) ∧
      (e.gzread (e.trace n).reads).bytes.isSome = false ∧ s = e.trace n :=
    ends_some_iff_of_trace (fun i t h => ((turn_trace_iff e i t).mp h).2) s
  refine hends.trans (exists_congr fun n => ?_)
  rw [hpasses]
  rfl

theorem decompress_file_true_iff (e : DecompressEnv) : e.decompress_file true ↔
    e.opens = true ∧ ∃ n, e.Passes n ∧ (e.gzread n).bytes.isSome = false := by
  have htrue : (∃ o, e.Decompresses o ∧ true = o.isSome) ↔
      ∃ n, e.Passes n ∧ (e.gzread n).bytes.isSome = false := by
    rw [exists_true_eq_isSome_iff]
    constructor
    · intro ⟨s, hs⟩
      obtain ⟨n, hpasses, hend, -⟩ := (decompresses_some_iff e s).mp hs
      exact ⟨n, hpasses, hend⟩
    · intro ⟨n, hpasses, hend⟩
      exact ⟨⟨n, e.content n⟩, (decompresses_some_iff e _).mpr ⟨n, hpasses, hend, rfl⟩⟩
  rw [decompress_file, htrue]
  cases e.opens with
  | false => exact iff_of_false Bool.noConfusion fun h => Bool.noConfusion h.1
  | true => exact (and_iff_right rfl).symm

/-- There is only one read that ends the loop. -/
theorem eq_of_ends {m : ℕ} (hm : ∀ i < m, (e.gzread i).bytes.isSome = true)
    (hm_end : (e.gzread m).bytes.isSome = false)
    (hn : ∀ i < n, (e.gzread i).bytes.isSome = true)
    (hn_end : (e.gzread n).bytes.isSome = false) : m = n :=
  eq_of_first hm (Bool.eq_false_iff.mp hm_end) hn (Bool.eq_false_iff.mp hn_end)

theorem reportsCorruption_iff_intact (e : DecompressEnv) : e.ReportsCorruption ↔ e.Intact := by
  rw [ReportsCorruption, decompress_file_true_iff]
  constructor
  · -- the loop ends at the read `n`, so the file was decoded up to the same read
    intro h hopens n hpasses hend
    obtain ⟨m, s, hdata, heof, hgzip, -, -, hcloses⟩ := h ⟨hopens, n, hpasses, hend⟩
    have hm_end : (e.gzread m).bytes.isSome = false := by
      rw [heof]
      rfl
    obtain rfl := eq_of_ends hdata hm_end (fun i hi => (hpasses i hi).1) hend
    exact ⟨heof, hgzip, hcloses⟩
  · intro h ⟨hopens, n, hpasses, hend⟩
    obtain ⟨heof, hgzip, hcloses⟩ := h hopens n hpasses hend
    have hends := (decompresses_some_iff e ⟨n, e.content n⟩).mpr ⟨n, hpasses, hend, rfl⟩
    exact ⟨n, _, fun i hi => (hpasses i hi).1, heof, hgzip, hends, rfl, hcloses⟩

/-! ### Compress and decompress -/

/-- `gzread` gives `data` in pieces and is then at the end. -/
def Gives (e : DecompressEnv) (data : Bytes) : Prop :=
  ∃ n, (∀ i < n, (e.gzread i).bytes.isSome = true) ∧ e.gzread n = .eof ∧ e.content n = data

/-- The output file after the loop and the `fclose`. -/
def Leaves (e : DecompressEnv) (file : Bytes) : Prop :=
  ∃ s, e.Decompresses (some s) ∧ e.closes = true ∧ file = s.written

/-- All data that is given is in the output file. -/
theorem leaves_iff_of_gives {data : Bytes} (hgives : e.Gives data)
    (htrue : e.decompress_file true) (hcloses : e.closes = true) (file : Bytes) :
    e.Leaves file ↔ file = data := by
  obtain ⟨n, hdata, heof, rfl⟩ := hgives
  have hn_end : (e.gzread n).bytes.isSome = false := by
    rw [heof]
    rfl
  have heq {m : ℕ} (hpasses : e.Passes m) (hm_end : (e.gzread m).bytes.isSome = false) : m = n :=
    eq_of_ends (fun i hi => (hpasses i hi).1) hm_end hdata hn_end
  constructor
  · rintro ⟨s, hs, -, rfl⟩
    obtain ⟨m, hpasses, hm_end, rfl⟩ := (decompresses_some_iff e s).mp hs
    rw [heq hpasses hm_end]
  · rintro rfl
    obtain ⟨-, m, hpasses, hm_end⟩ := (decompress_file_true_iff e).mp htrue
    obtain rfl := heq hpasses hm_end
    have hends : e.Decompresses (some ⟨m, e.content m⟩) :=
      (decompresses_some_iff e _).mpr ⟨m, hpasses, hm_end, rfl⟩
    exact ⟨_, hends, hcloses, rfl⟩

end DecompressEnv

namespace CompressEnv

variable {e : CompressEnv}

/-- The reads are those of a readable file: in full up to a last one at its end, which may be
empty. -/
def Reads (e : CompressEnv) (file : Bytes) : Prop :=
  ∃ n, (∀ i < n, ∃ data h, e.device i = .full data h) ∧ (∃ data h, e.device n = .eof data h) ∧
    e.content (n + 1) = file

/-- The compressed file is complete, and holds `data`. -/
def Compressed (e : CompressEnv) (data : Bytes) : Prop :=
  ∃ s, e.Copies (some s) ∧ e.closes = true ∧ data = s.written

/-- Where the loop ends without an error, the whole file was written. -/
theorem written_of_copies {file : Bytes} (hreads : e.Reads file) {s : CopyState}
    (hs : e.Copies (some s)) : s.written = file := by
  obtain ⟨n, hfull, ⟨data, h, heof⟩, rfl⟩ := hreads
  have hnot_full : ¬ ∃ data h, e.device n = .full data h := by
    intro ⟨data', h', hfull'⟩
    cases heof.symm.trans hfull'
  rcases e.exists_decided_or_passes with hall | ⟨m, hpasses, hm⟩
  · exact absurd (hall (n + 1) n (Nat.lt_succ_self n)).1 hnot_full
  · -- the read that decides can only be the one at the end of the file
    cases hm with
    | refused hm => cases (copies_of_not_written hpasses hm _).mp hs
    | bad hm data' h' hdevice => exact absurd hs (not_copies_of_bad hpasses hm hdevice _)
    | eof hm data' h' hdevice =>
      have hnot_full' : ¬ ∃ data h, e.device m = .full data h := by
        intro ⟨data', h', hfull'⟩
        cases hdevice.symm.trans hfull'
      obtain rfl := eq_of_first (fun i hi => (hpasses i hi).1) hnot_full' hfull hnot_full
      obtain rfl := Option.some.inj ((copies_of_eof hpasses hm hdevice _).mp hs)
      rfl

theorem compressed_iff_of_reads {file : Bytes} (hreads : e.Reads file)
    (htrue : e.compress_file true) (hcloses : e.closes = true) (data : Bytes) :
    e.Compressed data ↔ data = file := by
  obtain ⟨s, hs⟩ : ∃ s, e.Copies (some s) := by
    unfold compress_file at htrue
    split_ifs at htrue
    exact exists_true_eq_isSome_iff.mp htrue
  constructor
  · rintro ⟨t, ht, -, rfl⟩
    exact written_of_copies hreads ht
  · rintro rfl
    exact ⟨s, hs, hcloses, (written_of_copies hreads hs).symm⟩

end CompressEnv

/-- A file that was compressed and decompressed with success has its content again. -/
theorem decompress_compress_file (c : CompressEnv) (d : DecompressEnv) (file : Bytes)
    (hreads : c.Reads file) (hcompress : c.compress_file true) (hclosed : c.closes = true)
    (hlossless : ∀ data, c.Compressed data → d.Gives data)
    (hdecompress : d.decompress_file true) (hcloses : d.closes = true) (output : Bytes) :
    d.Leaves output ↔ output = file := by
  have hcompressed : c.Compressed file :=
    (CompressEnv.compressed_iff_of_reads hreads hcompress hclosed file).mpr rfl
  exact DecompressEnv.leaves_iff_of_gives (hlossless file hcompressed) hdecompress hcloses output

theorem lastByte_length : ([7] : Bytes).length < CHUNK := by decide

/-- Sevens that fill the buffer. -/
def fullChunk : Bytes := List.replicate CHUNK 7

theorem length_fullChunk : fullChunk.length = CHUNK := List.length_replicate

/-- A file of one byte more than the buffer holds. -/
def longFile : CompressEnv where
  inputExists := true
  outputOpens := true
  inputOpens := true
  device i := if i = 0 then .full fullChunk length_fullChunk else .eof [7] lastByte_length
  accepts _ _ := true
  closes := true

/-- Its gzip data. -/
def longFileGz : DecompressEnv where
  inputExists := true
  outputOpens := true
  inputOpens := true
  gzip := true
  gzread i :=
    if i = 0 then .data fullChunk (List.cons_ne_nil 7 _) (Nat.le_of_eq length_fullChunk)
    else if i = 1 then .data [7] (List.cons_ne_nil 7 []) (Nat.le_of_lt lastByte_length)
    else .eof
  accepts _ _ := true
  closes := true

theorem reads_longFile : longFile.Reads (fullChunk ++ [7]) := by
  refine ⟨1, fun i hi => ?_, ⟨[7], lastByte_length, rfl⟩, rfl⟩
  obtain rfl := Nat.lt_one_iff.mp hi
  exact ⟨fullChunk, length_fullChunk, rfl⟩

theorem passes_longFile : longFile.Passes 1 := by
  intro i hi
  obtain rfl := Nat.lt_one_iff.mp hi
  exact ⟨⟨fullChunk, length_fullChunk, rfl⟩, rfl⟩

theorem passes_longFileGz : longFileGz.Passes 2 := by
  intro i hi
  have hcases : i = 0 ∨ i = 1 := by omega
  rcases hcases with rfl | rfl
  · exact ⟨rfl, rfl⟩
  · exact ⟨rfl, rfl⟩

/-- The second chunk of one byte is written and given back after the first. -/
theorem leaves_longFileGz : longFileGz.Leaves (fullChunk ++ [7]) := by
  have hwritten : longFile.Written 1 := rfl
  have hcopies : longFile.Copies (some ⟨2, true, true, longFile.content 2⟩) :=
    (CompressEnv.copies_of_eof passes_longFile hwritten rfl _).mpr rfl
  have hcompress : longFile.compress_file true := ⟨_, hcopies, rfl⟩
  have hlossless (data : Bytes) (h : longFile.Compressed data) : longFileGz.Gives data := by
    obtain ⟨s, hs, -, rfl⟩ := h
    rw [CompressEnv.written_of_copies reads_longFile hs]
    exact ⟨2, fun i hi => (passes_longFileGz i hi).1, rfl, rfl⟩
  have hdecompress : longFileGz.decompress_file true :=
    (DecompressEnv.decompress_file_true_iff longFileGz).mpr ⟨rfl, 2, passes_longFileGz, rfl⟩
  exact (decompress_compress_file longFile longFileGz (fullChunk ++ [7]) reads_longFile hcompress
    rfl hlossless hdecompress rfl (fullChunk ++ [7])).mpr rfl

end OpenAPT
