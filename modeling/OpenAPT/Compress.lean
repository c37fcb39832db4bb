import OpenAPT.Json

/-! `create_zip` of `compress.cpp`: the files of a folder through one zlib stream. -/
namespace OpenAPT

/-- The return codes of `deflate`. -/
inductive ZCode
  | Z_OK
  | Z_STREAM_END
  | Z_STREAM_ERROR
  | Z_BUF_ERROR
  deriving DecidableEq

/-- What a call of `deflate` leaves: the stream, the input it did not consume, and its output. -/
structure Deflated (S : Type) where
  ret : ZCode
  stream : S
  rest : Bytes
  output : Bytes

/-- zlib, by what `create_zip` uses of it: `deflateInit2`, which may fail, and `deflate` with
`Z_FINISH` on the input at `next_in` and with `avail_out` bytes of room. `inflate` is the reader of
gzip data. What a stream has taken in and given out, and what its last call left unconsumed, is kept
with it. -/
structure Zlib (S : Type) where
  deflateInit2 : Option S
  deflate : S → Bytes → ℕ → Deflated S
  inflate : Bytes → Option Bytes
  deflateBound : ℕ → ℕ
  taken : S → Bytes
  given : S → Bytes
  unconsumed : S → Option Bytes
  finished : S → Bool

/-- The call is the first one, or goes on with the input that the last one left. -/
def Zlib.Continues {S : Type} (z : Zlib S) (s : S) (input : Bytes) : Prop :=
  z.unconsumed s = none ∨ z.unconsumed s = some input

/-- zlib's contract for a stream on which `deflate` is only called with `Z_FINISH`. -/
structure Zlib.Lawful {S : Type} (z : Zlib S) : Prop where
  deflateInit2 : ∀ s, z.deflateInit2 = some s →
    z.taken s = [] ∧ z.given s = [] ∧ z.unconsumed s = none ∧ z.finished s = false
  /-- A consistent stream is no error. -/
  ret : ∀ s input avail_out, (z.deflate s input avail_out).ret ≠ .Z_STREAM_ERROR
  /-- The input is consumed from its front. -/
  taken : ∀ s input avail_out,
    z.taken (z.deflate s input avail_out).stream ++ (z.deflate s input avail_out).rest =
      z.taken s ++ input
  given : ∀ s input avail_out, z.given (z.deflate s input avail_out).stream =
    z.given s ++ (z.deflate s input avail_out).output
  unconsumed : ∀ s input avail_out, z.finished s = false → z.Continues s input →
    z.unconsumed (z.deflate s input avail_out).stream = some (z.deflate s input avail_out).rest
  finished : ∀ s input avail_out, z.finished (z.deflate s input avail_out).stream = true ↔
    z.finished s = true ∨ (z.deflate s input avail_out).ret = .Z_STREAM_END
  /-- The end of the stream comes when there is room for it, and otherwise the room is filled. -/
  room : ∀ s input avail_out, z.finished s = false → z.Continues s input →
    (z.deflate s input avail_out).ret ≠ .Z_STREAM_END →
    (z.deflate s input avail_out).output.length = avail_out
  /-- At its end what the stream gave out gives back its whole input. -/
  stream_end : ∀ s input avail_out, z.finished s = false → z.Continues s input →
    (z.deflate s input avail_out).ret = .Z_STREAM_END →
    z.inflate (z.given (z.deflate s input avail_out).stream) = some (z.taken s ++ input)
  /-- A part of it is no gzip data: the length and the checksum stand at the end. -/
  truncated : ∀ s input avail_out n, z.finished s = false → z.Continues s input →
    (z.deflate s input avail_out).ret = .Z_STREAM_END →
    n < (z.given (z.deflate s input avail_out).stream).length →
    z.inflate ((z.given (z.deflate s input avail_out).stream).take n) = none
  /-- After the end nothing is consumed and nothing comes out. -/
  after_end : ∀ s input avail_out, z.finished s = true →
    (z.deflate s input avail_out).output = []
  bound : ∀ s, (z.given s).length ≤ z.deflateBound (z.taken s).length
  bound_mono : ∀ m n, m ≤ n → z.deflateBound m ≤ z.deflateBound n
  /-- Empty data is no gzip data. -/
  inflate_nil : z.inflate [] = none

namespace Compress

/-- What `recursive_directory_iterator` lists; a file that cannot be opened has no contents. -/
structure DirectoryEntry where
  is_regular_file : Bool
  contents : Option Bytes

/-- The output stream on the archive: whether it is still good, what is in the archive, and how many
bytes it takes until a write fails (`none` if no write does). -/
structure ArchiveFile where
  good : Bool
  content : Bytes
  room : Option ℕ

/-- The stream on an archive that has just been created. -/
def ArchiveFile.created (room : Option ℕ) : ArchiveFile := ⟨true, [], room⟩

/-- A write that fails may have got a part of its bytes to the archive, and the stream takes nothing
after it. -/
def ArchiveFile.write (file : ArchiveFile) (data : Bytes) : ArchiveFile :=
  match file.good, file.room with
  | false, _ => file
  | true, none => { file with content := file.content ++ data }
  | true, some n =>
    if data.length ≤ n then
      { file with content := file.content ++ data, room := some (n - data.length) }
    else { good := false, content := file.content ++ data.take n, room := some 0 }

/-- The size of `buffer` and of `output_buffer`. -/
def bufferSize : ℕ := 8192

variable {S : Type} (z : Zlib S)

/-- The `do … while (stream.avail_out == 0)` loop on the input of one read: whether to go on, the
stream, and the archive. `none` if it is still running when the fuel is used up. -/
def deflateLoop : ℕ → S → Bytes → ArchiveFile → Option (Bool × S × ArchiveFile)
  | 0, _, _, _ => none
  | fuel + 1, stream, input, file =>
    let r := z.deflate stream input bufferSize
    if r.ret = .Z_STREAM_ERROR then some (false, r.stream, file)
    -- nobody looks whether the write got through
    else if r.output.length = bufferSize then
      deflateLoop fuel r.stream r.rest (file.write r.output)
    else some (true, r.stream, file.write r.output)

/-- The `while (input_file.good())` loop. The file is good until a read comes to its end, so after
a last read that fills the buffer there is one more. -/
def readLoop : ℕ → S → Bytes → ArchiveFile → Option (Bool × S × ArchiveFile)
  | 0, _, _, _ => none
  | fuel + 1, stream, contents, file =>
    match deflateLoop z fuel stream (contents.take bufferSize) file with
    | some (true, stream, file) =>
      if contents.length < bufferSize then some (true, stream, file)
      else readLoop fuel stream (contents.drop bufferSize) file
    | r => r

/-- The loop over `file_paths`. -/
def filesLoop (fuel : ℕ) : List (Option Bytes) → S → ArchiveFile → Option (Bool × ArchiveFile)
  | [], _, file => some (true, file)
  | none :: files, stream, file => filesLoop fuel files stream file
  | some contents :: files, stream, file =>
    match readLoop z fuel stream contents file with
    | none => none
    | some (true, stream, file) => filesLoop fuel files stream file
    | some (false, _, file) => some (false, file)

/-- `create_zip`: what it returns or throws, and what is in the archive then. `opened` is whether the
archive could be created, `room` how much it takes, and `listing` what the iterator gives if it does
not throw. -/
def create_zip (fuel : ℕ) (opened : Bool) (room : Option ℕ)
    (listing : Except StdException (List DirectoryEntry)) :
    Option (Except StdException Bool × Bytes) :=
  if opened = false then some (.ok false, [])
  else
    match z.deflateInit2 with
    | none => some (.ok false, [])
    | some stream =>
      match listing with
      | .error e => some (.error e, [])
      | .ok entries =>
        let file_paths := entries.filter (·.is_regular_file)
        (filesLoop z fuel (file_paths.map (·.contents)) stream (.created room)).map
          fun r => (.ok r.1, r.2.content)

/-- The contents of the regular files in the order they are listed. -/
def regularFiles (entries : List DirectoryEntry) : List Bytes :=
  (entries.filter (·.is_regular_file)).map fun e => e.contents.getD []

/-- All regular files can be read. -/
def Readable (entries : List DirectoryEntry) : Prop :=
  ∀ e ∈ entries, e.is_regular_file = true → e.contents.isSome = true

/-- When `create_zip` returns true, inflating the archive gives the contents of all files. -/
def ArchivesAll (opened : Bool) (room : Option ℕ)
    (listing : Except StdException (List DirectoryEntry)) : Prop :=
  ∀ fuel archive, create_zip z fuel opened room listing = some (.ok true, archive) →
    ∀ entries, listing = .ok entries → z.inflate archive = some (regularFiles entries).flatten

/-- No write of what zlib makes of the input fails: the archive takes as many bytes. -/
def TakesAll (room : Option ℕ) (stream : S) (input : Bytes) : Prop :=
  ∀ fuel r, deflateLoop z fuel stream input (.created none) = some r →
    ∀ n, room = some n → r.2.2.content.length ≤ n

@[simp] theorem write_nil (file : ArchiveFile) : file.write [] = file := by
  obtain ⟨good, content, room⟩ := file
  cases good with
  | false => rfl
  | true => cases room <;> simp [ArchiveFile.write]

/-- Two writes in a row are one write of both texts: the first one that fails ends it. -/
theorem write_write (file : ArchiveFile) (a b : Bytes) :
    (file.write a).write b = file.write (a ++ b) := by
  obtain ⟨good, content, room⟩ := file
  cases good with
  | false => rfl
  | true =>
    cases room with
    | none => simp [ArchiveFile.write]
    | some n =>
      by_cases ha : a.length ≤ n
      · by_cases hb : b.length ≤ n - a.length
        · have hab : a.length + b.length ≤ n := by omega
          simp [ArchiveFile.write, ha, hb, hab, Nat.sub_sub]
        · have hab : ¬ a.length + b.length ≤ n := by omega
          simp [ArchiveFile.write, ha, hb, hab, List.take_append, List.take_of_length_le ha]
      · have hab : ¬ a.length + b.length ≤ n := by omega
        have hlt : n - a.length = 0 := by omega
        simp [ArchiveFile.write, ha, hab, List.take_append, hlt]

/-- On a new archive a text arrives up to the place where a write fails. -/
theorem content_created_write (room : Option ℕ) (data : Bytes) :
    ((ArchiveFile.created room).write data).content =
      room.elim data fun n => data.take n := by
  cases room with
  | none => rfl
  | some n =>
    simp only [ArchiveFile.write, ArchiveFile.created, Option.elim_some]
    split_ifs with hle
    · rw [List.nil_append, List.take_of_length_le hle]
    · rfl

/-- Gzip data of the input, no part of which is gzip data. -/
def WholeGzip (input data : Bytes) : Prop :=
  z.inflate data = some input ∧ ∀ n < data.length, z.inflate (data.take n) = none

variable {z}

/-- What a loop does to the stream does not depend on the archive. -/
theorem deflateLoop_unlimited {fuel : ℕ} {stream : S} {input : Bytes} {file g : ArchiveFile}
    {r : Bool × S × ArchiveFile} (h : deflateLoop z fuel stream input file = some r) :
    ∃ data, r.2.2 = file.write data ∧
      deflateLoop z fuel stream input g = some (r.1, r.2.1, g.write data) := by
  induction fuel generalizing stream input file g with
  | zero => cases h
  | succ fuel ih =>
    rw [deflateLoop] at h ⊢
    split_ifs at h ⊢ with herror hroom
    · obtain rfl := Option.some.inj h
      exact ⟨[], (write_nil file).symm, by rw [write_nil]⟩
    · obtain ⟨data, hfile, hrun⟩ := ih h
      rw [write_write] at hfile hrun
      exact ⟨_, hfile, hrun⟩
    · obtain rfl := Option.some.inj h
      exact ⟨_, rfl, rfl⟩

/-- More fuel does not change what a loop comes to. -/
theorem deflateLoop_mono {fuel : ℕ} {stream : S} {input : Bytes} {file : ArchiveFile}
    {r : Bool × S × ArchiveFile} (h : deflateLoop z fuel stream input file = some r) (k : ℕ) :
    deflateLoop z (fuel + k) stream input file = some r := by
  induction fuel generalizing stream input file with
  | zero => cases h
  | succ fuel ih =>
    rw [Nat.succ_add, deflateLoop]
    rw [deflateLoop] at h
    split_ifs at h ⊢
    · exact h
    · exact ih h
    · exact h

theorem deflateLoop_unique {fuel fuel' : ℕ} {stream : S} {input : Bytes} {file : ArchiveFile}
    {r r' : Bool × S × ArchiveFile} (h : deflateLoop z fuel stream input file = some r)
    (h' : deflateLoop z fuel' stream input file = some r') : r = r' := by
  have hboth := deflateLoop_mono h fuel'
  rw [Nat.add_comm] at hboth
  exact Option.some.inj (hboth.symm.trans (deflateLoop_mono h' fuel))

section Loops

variable (hz : z.Lawful)
include hz

/-- After its end a stream ignores what it is offered. -/
theorem deflateLoop_finished {stream : S} (hfinished : z.finished stream = true) (fuel : ℕ)
    (input : Bytes) (file : ArchiveFile) :
    ∃ stream', z.finished stream' = true ∧ z.given stream' = z.given stream ∧
      deflateLoop z (fuel + 1) stream input file = some (true, stream', file) := by
  have houtput := hz.after_end stream input bufferSize hfinished
  have hempty : ¬ (z.deflate stream input bufferSize).output.length = bufferSize := by
    rw [houtput]
    decide
  refine ⟨(z.deflate stream input bufferSize).stream, ?_, ?_, ?_⟩
  · exact (hz.finished stream input bufferSize).mpr (Or.inl hfinished)
  · rw [hz.given, houtput, List.append_nil]
  · rw [deflateLoop, if_neg (hz.ret _ _ _), if_neg hempty, houtput, write_nil]

/-- A stream that has not ended takes the whole input of its first loop, and then it has ended. -/
theorem deflateLoop_spec {fuel : ℕ} {stream : S} {input : Bytes} {file : ArchiveFile}
    {r : Bool × S × ArchiveFile} (hfinished : z.finished stream = false)
    (hcontinues : z.Continues stream input) (h : deflateLoop z fuel stream input file = some r) :
    r.1 = true ∧ z.finished r.2.1 = true ∧
      (∃ data, r.2.2 = file.write data ∧ z.given r.2.1 = z.given stream ++ data) ∧
      WholeGzip z (z.taken stream ++ input) (z.given r.2.1) := by
  induction fuel generalizing stream input file with
  | zero => cases h
  | succ fuel ih =>
    let d := z.deflate stream input bufferSize
    have hret : d.ret ≠ .Z_STREAM_ERROR := hz.ret _ _ _
    have hgiven : z.given d.stream = z.given stream ++ d.output := hz.given _ _ _
    have htaken : z.taken d.stream ++ d.rest = z.taken stream ++ input := hz.taken _ _ _
    rw [deflateLoop, if_neg hret] at h
    by_cases hend : d.ret = .Z_STREAM_END
    · have hfin : z.finished d.stream = true := (hz.finished _ _ _).mpr (Or.inr hend)
      have hwhole : WholeGzip z (z.taken stream ++ input) (z.given d.stream) :=
        ⟨hz.stream_end stream input bufferSize hfinished hcontinues hend, fun n hn =>
          hz.truncated stream input bufferSize n hfinished hcontinues hend hn⟩
      by_cases hroom : d.output.length = bufferSize
      · -- the end of the stream filled the room to the last byte: one more turn, without output
        rw [if_pos hroom] at h
        cases fuel with
        | zero => cases h
        | succ fuel =>
          obtain ⟨stream', hfin', hgiven', hrun⟩ := deflateLoop_finished hz hfin fuel d.rest
            (file.write d.output)
          obtain rfl := Option.some.inj (hrun.symm.trans h)
          exact ⟨rfl, hfin', ⟨d.output, rfl, hgiven'.trans hgiven⟩, hgiven' ▸ hwhole⟩
      · rw [if_neg hroom] at h
        obtain rfl := Option.some.inj h
        exact ⟨rfl, hfin, ⟨d.output, rfl, hgiven⟩, hwhole⟩
    · have hroom : d.output.length = bufferSize := hz.room _ _ _ hfinished hcontinues hend
      have hfin : z.finished d.stream = false := by
        rw [Bool.eq_false_iff]
        intro hfin
        rcases (hz.finished _ _ _).mp hfin with hbefore | hafter
        · rw [hfinished] at hbefore
          cases hbefore
        · exact hend hafter
      rw [if_pos hroom] at h
      obtain ⟨hok, hfin', ⟨data, hfile, hgiven'⟩, hwhole⟩ :=
        ih hfin (Or.inr (hz.unconsumed _ _ _ hfinished hcontinues)) h
      refine ⟨hok, hfin', ⟨d.output ++ data, ?_, ?_⟩, htaken ▸ hwhole⟩
      · rw [hfile, write_write]
      · rw [hgiven', hgiven, List.append_assoc]

/-- The output is bounded by what the stream takes, and each further turn has filled a buffer. -/
theorem deflateLoop_isSome {fuel : ℕ} {stream : S} {input : Bytes} (file : ArchiveFile)
    (hfinished : z.finished stream = false)
    (hfuel : z.deflateBound (z.taken stream ++ input).length < (z.given stream).length + fuel) :
    (deflateLoop z (fuel + 1) stream input file).isSome = true := by
  induction fuel generalizing stream input file with
  | zero =>
    have hbound := hz.bound stream
    have hmono := hz.bound_mono (z.taken stream).length (z.taken stream ++ input).length
      (List.prefix_append _ _).length_le
    omega
  | succ fuel ih =>
    let d := z.deflate stream input bufferSize
    have hret : d.ret ≠ .Z_STREAM_ERROR := hz.ret _ _ _
    have hgiven : z.given d.stream = z.given stream ++ d.output := hz.given _ _ _
    have htaken : z.taken d.stream ++ d.rest = z.taken stream ++ input := hz.taken _ _ _
    rw [deflateLoop, if_neg hret]
    by_cases hroom : d.output.length = bufferSize
    · rw [if_pos hroom]
      cases hfin : z.finished d.stream with
      | true =>
        obtain ⟨stream', -, -, hrun⟩ := deflateLoop_finished hz hfin fuel d.rest
          (file.write d.output)
        rw [hrun, Option.isSome_some]
      | false =>
        apply ih _ hfin
        have hlength : (z.given d.stream).length = (z.given stream).length + bufferSize := by
          rw [hgiven, List.length_append, hroom]
        have hpos : 0 < bufferSize := by decide
        rw [htaken, hlength]
        omega
    · rw [if_neg hroom, Option.isSome_some]

theorem readLoop_finished {fuel : ℕ} {stream : S} {contents : Bytes} {file : ArchiveFile}
    {r : Bool × S × ArchiveFile}
    (hfinished : z.finished stream = true) (h : readLoop z fuel stream contents file = some r) :
    r.1 = true ∧ z.finished r.2.1 = true ∧ r.2.2 = file := by
  induction fuel generalizing stream contents with
  | zero => cases h
  | succ fuel ih =>
    cases fuel with
    | zero => cases h
    | succ fuel =>
      obtain ⟨stream', hfin, -, hrun⟩ := deflateLoop_finished hz hfinished fuel
        (contents.take bufferSize) file
      rw [readLoop, hrun] at h
      dsimp only at h
      split_ifs at h with hshort
      · obtain rfl := Option.some.inj h
        exact ⟨rfl, hfin, rfl⟩
      · exact ih hfin h

theorem readLoop_finished_isSome {fuel : ℕ} {stream : S} {contents : Bytes}
    (hfinished : z.finished stream = true) (file : ArchiveFile) (hfuel : contents.length < fuel) :
    (readLoop z (fuel + 1) stream contents file).isSome = true := by
  induction fuel generalizing stream contents with
  | zero => omega
  | succ fuel ih =>
    obtain ⟨stream', hfin, -, hrun⟩ := deflateLoop_finished hz hfinished fuel
      (contents.take bufferSize) file
    rw [readLoop, hrun]
    dsimp only
    split_ifs with hshort
    · rfl
    · apply ih hfin
      have hpos : 0 < bufferSize := by decide
      rw [List.length_drop]
      omega

/-- Of the first file the stream takes what the first read gave. -/
theorem readLoop_spec {fuel : ℕ} {stream : S} {contents : Bytes} {file : ArchiveFile}
    {r : Bool × S × ArchiveFile} (hfinished : z.finished stream = false)
    (hfirst : z.unconsumed stream = none) (hgiven : z.given stream = [])
    (h : readLoop z fuel stream contents file = some r) :
    r.1 = true ∧ z.finished r.2.1 = true ∧ ∃ stream',
      deflateLoop z (fuel - 1) stream (contents.take bufferSize) file =
          some (true, stream', file.write (z.given stream')) ∧
        r.2.2 = file.write (z.given stream') ∧
        WholeGzip z (z.taken stream ++ contents.take bufferSize) (z.given stream') := by
  cases fuel with
  | zero => cases h
  | succ fuel =>
    rw [readLoop] at h
    cases hrun : deflateLoop z fuel stream (contents.take bufferSize) file with
    | none =>
      rw [hrun] at h
      cases h
    | some first =>
      obtain ⟨ok, stream', file'⟩ := first
      obtain ⟨hok, hfin, ⟨data, hfile, hgiven'⟩, hwhole⟩ :=
        deflateLoop_spec hz hfinished (Or.inl hfirst) hrun
      dsimp only at hok hfin hfile hgiven' hwhole
      rw [hgiven, List.nil_append] at hgiven'
      subst hok hfile hgiven'
      rw [hrun] at h
      dsimp only at h
      split_ifs at h with hshort
      · obtain rfl := Option.some.inj h
        exact ⟨rfl, hfin, stream', hrun, rfl, hwhole⟩
      · obtain ⟨hr, hfin', hsame⟩ := readLoop_finished hz hfin h
        exact ⟨hr, hfin', stream', hrun, hsame, hwhole⟩

theorem readLoop_isSome {fuel : ℕ} {stream : S} {contents : Bytes} (file : ArchiveFile)
    (hfinished : z.finished stream = false) (hfirst : z.unconsumed stream = none)
    (hlength : contents.length < fuel)
    (hfuel : z.deflateBound (z.taken stream ++ contents.take bufferSize).length < fuel) :
    (readLoop z (fuel + 1 + 1) stream contents file).isSome = true := by
  have hsome := deflateLoop_isSome hz file hfinished (Nat.lt_add_left _ hfuel)
  obtain ⟨⟨ok, stream', file'⟩, hrun⟩ := Option.isSome_iff_exists.mp hsome
  obtain ⟨hok, hfin, -⟩ := deflateLoop_spec hz hfinished (Or.inl hfirst) hrun
  dsimp only at hok hfin
  rw [readLoop, hrun, hok]
  dsimp only
  split_ifs with hshort
  · rfl
  · apply readLoop_finished_isSome hz hfin
    rw [List.length_drop]
    omega

theorem filesLoop_finished {fuel : ℕ} {files : List (Option Bytes)} {stream : S}
    {file : ArchiveFile} {r : Bool × ArchiveFile} (hfinished : z.finished stream = true)
    (h : filesLoop z fuel files stream file = some r) : r = (true, file) := by
  induction files generalizing stream with
  | nil => exact (Option.some.inj h).symm
  | cons contents files ih =>
    cases contents with
    | none => exact ih hfinished h
    | some contents =>
      rw [filesLoop] at h
      cases hread : readLoop z fuel stream contents file with
      | none =>
        rw [hread] at h
        cases h
      | some read =>
        obtain ⟨ok, stream', file'⟩ := read
        obtain ⟨hok, hfin, hsame⟩ := readLoop_finished hz hfinished hread
        dsimp only at hok hfin hsame
        rw [hread, hok, hsame] at h
        exact ih hfin h

/-- Once the stream has ended, enough fuel for the longest file is enough for all. -/
theorem filesLoop_finished_isSome {fuel : ℕ} {files : List Bytes} {stream : S} (file : ArchiveFile)
    (hfinished : z.finished stream = true) (hfuel : ∀ contents ∈ files, contents.length < fuel) :
    (filesLoop z (fuel + 1) (files.map some) stream file).isSome = true := by
  induction files generalizing stream with
  | nil => rfl
  | cons contents files ih =>
    rw [List.forall_mem_cons] at hfuel
    have hsome := readLoop_finished_isSome hz hfinished file hfuel.1
    obtain ⟨⟨ok, stream', file'⟩, hread⟩ := Option.isSome_iff_exists.mp hsome
    obtain ⟨hok, hfin, hsame⟩ := readLoop_finished hz hfinished hread
    dsimp only at hok hfin hsame
    rw [List.map_cons, filesLoop, hread, hok, hsame]
    exact ih hfin hfuel.2

end Loops

/-- The files the loop goes through when all can be read. -/
theorem map_contents_eq {entries : List DirectoryEntry} (h : Readable entries) :
    (entries.filter (·.is_regular_file)).map (·.contents) = (regularFiles entries).map some := by
  rw [regularFiles, List.map_map]
  apply List.map_congr_left
  intro e he
  obtain ⟨hmem, hregular⟩ := List.mem_filter.mp he
  obtain ⟨contents, hcontents⟩ := Option.isSome_iff_exists.mp (h e hmem hregular)
  rw [Function.comp_apply, hcontents, Option.getD_some]

variable {entries : List DirectoryEntry} {room : Option ℕ}

/-- What is in the archive when `create_zip` returns: nothing if there is no file, and otherwise
the first buffer of the first file, as far as the writes do not fail. -/
theorem create_zip_spec (hz : z.Lawful) {stream : S} (hinit : z.deflateInit2 = some stream)
    (hreadable : Readable entries) {fuel : ℕ} {ok : Except StdException Bool} {archive : Bytes}
    (h : create_zip z fuel true room (.ok entries) = some (ok, archive)) :
    ok = .ok true ∧
      (regularFiles entries = [] ∧ archive = [] ∨
        ∃ contents files r, regularFiles entries = contents :: files ∧
          deflateLoop z (fuel - 1) stream (contents.take bufferSize) (.created none) = some r ∧
          archive = room.elim r.2.2.content (fun n => r.2.2.content.take n) ∧
          WholeGzip z (contents.take bufferSize) r.2.2.content) := by
  obtain ⟨htaken, hgiven, hfirst, hfinished⟩ := hz.deflateInit2 stream hinit
  rw [create_zip, if_neg (by decide), hinit] at h
  dsimp only at h
  rw [map_contents_eq hreadable] at h
  cases hfiles : regularFiles entries with
  | nil =>
    rw [hfiles] at h
    obtain ⟨rfl, rfl⟩ := Prod.mk.inj (Option.some.inj h)
    exact ⟨rfl, Or.inl ⟨rfl, rfl⟩⟩
  | cons contents files =>
    rw [hfiles, List.map_cons, filesLoop] at h
    cases hread : readLoop z fuel stream contents (.created room) with
    | none =>
      rw [hread] at h
      cases h
    | some read =>
      obtain ⟨ok', stream', file'⟩ := read
      obtain ⟨hok, hfin, stream'', hrun, hfile, hwhole⟩ :=
        readLoop_spec hz hfinished hfirst hgiven hread
      dsimp only at hok hfin hfile
      subst hok hfile
      rw [hread] at h
      obtain ⟨r, hr, heq⟩ := Option.map_eq_some_iff.mp h
      obtain rfl := filesLoop_finished hz hfin hr
      obtain ⟨rfl, rfl⟩ := Prod.mk.inj heq
      rw [htaken, List.nil_append] at hwhole
      -- the same loop on an archive that takes everything
      obtain ⟨data, -, hunlimited⟩ := deflateLoop_unlimited (g := .created none) hrun
      have hdata : data = z.given stream'' := by
        obtain ⟨-, -, ⟨data', hwritten, hgiven'⟩, -⟩ :=
          deflateLoop_spec hz hfinished (Or.inl hfirst) hunlimited
        have hcontent : data = data' := by
          simpa [content_created_write] using congrArg ArchiveFile.content hwritten
        rw [hgiven, List.nil_append] at hgiven'
        exact hcontent.trans hgiven'.symm
      subst hdata
      have hcontent := content_created_write room (z.given stream'')
      exact ⟨rfl, Or.inr ⟨contents, files, _, rfl, hunlimited, hcontent, hwhole⟩⟩

/-- `create_zip` returns. -/
theorem exists_create_zip (hz : z.Lawful) {stream : S} (hinit : z.deflateInit2 = some stream)
    (hreadable : Readable entries) (room : Option ℕ) :
    ∃ fuel archive, create_zip z fuel true room (.ok entries) = some (.ok true, archive) := by
  obtain ⟨htaken, hgiven, hfirst, hfinished⟩ := hz.deflateInit2 stream hinit
  let total := (regularFiles entries).flatten.length + z.deflateBound bufferSize + 1
  have hsome : (create_zip z (total + 2) true room (.ok entries)).isSome = true := by
    rw [create_zip, if_neg (by decide), hinit]
    dsimp only
    rw [map_contents_eq hreadable, Option.isSome_map]
    have hlength : ∀ contents ∈ regularFiles entries, contents.length < total := by
      intro contents hmem
      have hle := (List.sublist_flatten_of_mem hmem).length_le
      omega
    cases hfiles : regularFiles entries with
    | nil => rfl
    | cons contents files =>
      rw [hfiles, List.forall_mem_cons] at hlength
      have htake : (contents.take bufferSize).length ≤ bufferSize := List.length_take_le _ _
      have hbound := hz.bound_mono _ _ htake
      have hread : (readLoop z (total + 2) stream contents (.created room)).isSome = true := by
        apply readLoop_isSome hz _ hfinished hfirst hlength.1
        rw [htaken, List.nil_append]
        omega
      obtain ⟨⟨ok, stream', file'⟩, hrun⟩ := Option.isSome_iff_exists.mp hread
      obtain ⟨hok, hfin, -⟩ := readLoop_spec hz hfinished hfirst hgiven hrun
      dsimp only at hok hfin
      rw [List.map_cons, filesLoop, hrun, hok]
      apply filesLoop_finished_isSome hz _ hfin
      intro other hmem
      exact Nat.lt_succ_of_lt (hlength.2 other hmem)
  obtain ⟨⟨ok, archive⟩, hrun⟩ := Option.isSome_iff_exists.mp hsome
  obtain ⟨rfl, -⟩ := create_zip_spec hz hinit hreadable hrun
  exact ⟨_, archive, hrun⟩

/-- A list of files is its first buffer exactly when the first file fits into one buffer and the
others are empty. -/
theorem take_eq_flatten_iff (contents : Bytes) (files : List Bytes) :
    contents.take bufferSize = (contents :: files).flatten ↔
      contents.length ≤ bufferSize ∧ ∀ f ∈ files, f = [] := by
  rw [← List.flatten_eq_nil_iff, List.flatten_cons]
  constructor
  · intro h
    have hlength := congrArg List.length h
    rw [List.length_take, List.length_append] at hlength
    refine ⟨by omega, List.eq_nil_of_length_eq_zero ?_⟩
    omega
  · intro ⟨hle, hnil⟩
    rw [hnil, List.append_nil, List.take_of_length_le hle]

/-- What an archive holds that takes a whole text. -/
theorem elim_take_of_le {data : Bytes} (h : ∀ n, room = some n → data.length ≤ n) :
    room.elim data (fun n => data.take n) = data := by
  cases room with
  | none => rfl
  | some n => exact List.take_of_length_le (h n rfl)

/-- With files in the folder everything is archived exactly when the first file fits into one read,
the others are empty, and the gzip data of that read gets to the archive. -/
theorem archivesAll_files_iff (hz : z.Lawful) {stream : S} (hinit : z.deflateInit2 = some stream)
    (hreadable : Readable entries) {contents : Bytes} {files : List Bytes}
    (hfiles : regularFiles entries = contents :: files) :
    ArchivesAll z true room (.ok entries) ↔
      contents.length ≤ bufferSize ∧ (∀ f ∈ files, f = []) ∧ TakesAll z room stream contents := by
  rw [← and_assoc, ← take_eq_flatten_iff]
  constructor
  · intro hall
    obtain ⟨fuel, archive, hrun⟩ := exists_create_zip hz hinit hreadable room
    have hinflate := hall fuel archive hrun entries rfl
    obtain ⟨-, ⟨hnil, -⟩ | ⟨contents', files', r, hfiles', hloop, rfl, hwhole⟩⟩ :=
      create_zip_spec hz hinit hreadable hrun
    · cases hfiles.symm.trans hnil
    · obtain ⟨rfl, rfl⟩ := List.cons.inj (hfiles'.symm.trans hfiles)
      -- a part of the gzip data would not be gzip data
      have hfits : ∀ n, room = some n → r.2.2.content.length ≤ n := by
        rintro n rfl
        by_contra hlt
        rw [Option.elim_some, hwhole.2 n (not_le.mp hlt)] at hinflate
        cases hinflate
      rw [elim_take_of_le hfits, hwhole.1, hfiles] at hinflate
      have htake := Option.some.inj hinflate
      refine ⟨htake, fun fuel' r' hloop' => ?_⟩
      rw [List.take_of_length_le ((take_eq_flatten_iff _ _).mp htake).1] at hloop
      rw [deflateLoop_unique hloop' hloop]
      exact hfits
  · rintro ⟨htake, htakes⟩ fuel archive hrun entries' hentries
    cases hentries
    obtain ⟨-, ⟨hnil, -⟩ | ⟨contents', files', r, hfiles', hloop, rfl, hwhole⟩⟩ :=
      create_zip_spec hz hinit hreadable hrun
    · cases hfiles.symm.trans hnil
    · obtain ⟨rfl, rfl⟩ := List.cons.inj (hfiles'.symm.trans hfiles)
      rw [List.take_of_length_le ((take_eq_flatten_iff _ _).mp htake).1] at hloop
      rw [elim_take_of_le (htakes _ _ hloop), hwhole.1, hfiles, htake]

/-- `create_zip` archives everything exactly when the first file fits into one read, the others are
empty, and no write to the archive fails: the first call of `deflate` already ends the stream.
Without a file there is no gzip data at all. -/
theorem archivesAll_iff (hz : z.Lawful) (opened : Bool) (room : Option ℕ)
    {listing : Except StdException (List DirectoryEntry)}
    (hreadable : ∀ entries, listing = .ok entries → Readable entries) :
    ArchivesAll z opened room listing ↔
      opened = false ∨ z.deflateInit2 = none ∨ (∃ e, listing = .error e) ∨
        ∃ stream entries contents files, z.deflateInit2 = some stream ∧ listing = .ok entries ∧
          regularFiles entries = contents :: files ∧
          contents.length ≤ bufferSize ∧ (∀ f ∈ files, f = []) ∧
          TakesAll z room stream contents := by
  cases opened with
  | false => exact iff_of_true (fun fuel archive h => by cases h) (Or.inl rfl)
  | true =>
    rw [or_iff_right (Bool.noConfusion : ¬ true = false)]
    cases hinit : z.deflateInit2 with
    | none =>
      refine iff_of_true ?_ (Or.inl rfl)
      intro fuel archive h
      rw [create_zip, hinit] at h
      cases h
    | some stream =>
      rw [or_iff_right (Option.some_ne_none stream)]
      cases listing with
      | error e => exact iff_of_true (fun fuel archive _ entries h => nomatch h) (Or.inl ⟨e, rfl⟩)
      | ok entries =>
        rw [or_iff_right fun ⟨e, he⟩ => nomatch he]
        have hentries : Readable entries := hreadable entries rfl
        cases hfiles : regularFiles entries with
        | nil =>
          refine iff_of_false (fun hall => ?_) ?_
          · obtain ⟨fuel, archive, hrun⟩ := exists_create_zip hz hinit hentries room
            obtain ⟨-, ⟨-, rfl⟩ | ⟨contents, files, r, hcons, -⟩⟩ :=
              create_zip_spec hz hinit hentries hrun
            · have hinflate := hall fuel [] hrun entries rfl
              rw [hz.inflate_nil] at hinflate
              cases hinflate
            · cases hfiles.symm.trans hcons
          · rintro ⟨_, _, contents, files, -, heq, hcons, -⟩
            cases heq
            cases hfiles.symm.trans hcons
        | cons contents files =>
          rw [archivesAll_files_iff hz hinit hentries hfiles]
          constructor
          · exact fun h => ⟨stream, entries, contents, files, rfl, rfl, hfiles, h⟩
          · rintro ⟨_, _, contents', files', hstream, heq, hcons, h⟩
            cases hstream
            cases heq
            obtain ⟨rfl, rfl⟩ := List.cons.inj (hcons.symm.trans hfiles)
            exact h

/-- The gzip data of the one byte "a". -/
def gzipA : Bytes :=
  [0x1f, 0x8b, 0x08, 0, 0, 0, 0, 0, 0, 0x03, 0x4b, 0x04, 0, 0x43, 0xbe, 0xb7, 0xe8, 0x01, 0, 0, 0]

/-- Other data with a zero in front of every byte and a one at the end. -/
def marked : Bytes → Bytes
  | [] => [1]
  | b :: data => 0 :: b :: marked data

def unmarked : Bytes → Option Bytes
  | [1] => some []
  | 0 :: b :: rest => (unmarked rest).map (b :: ·)
  | _ => none

/-- A compressor that makes gzip data of "a" and marks other data. -/
def gzipEncode (data : Bytes) : Bytes := if data = bytes "a" then gzipA else marked data

def gzipDecode (data : Bytes) : Option Bytes :=
  if data = gzipA then some (bytes "a") else unmarked data

theorem unmarked_marked (data : Bytes) : unmarked (marked data) = some data := by
  induction data with
  | nil => rfl
  | cons b data ih => rw [marked, unmarked, ih, Option.map_some]

theorem unmarked_take (data : Bytes) {n : ℕ} (hn : n < (marked data).length) :
    unmarked ((marked data).take n) = none := by
  induction data generalizing n with
  | nil =>
    obtain rfl : n = 0 := Nat.lt_one_iff.mp hn
    rfl
  | cons b data ih =>
    match n with
    | 0 => rfl
    | 1 => rfl
    | n + 2 =>
      have hrest : unmarked ((marked data).take n) = none := by
        apply ih
        simpa [marked] using hn
      rw [marked, List.take_succ_cons, List.take_succ_cons, unmarked, hrest, Option.map_none]

/-- Marked data does not start as gzip data does. -/
theorem marked_take_ne_gzipA (data : Bytes) (n : ℕ) : (marked data).take n ≠ gzipA := by
  intro h
  have hhead := congrArg List.head? h
  cases n with
  | zero => cases hhead
  | succ n => cases data <;> cases hhead

theorem gzipDecode_gzipEncode (data : Bytes) : gzipDecode (gzipEncode data) = some data := by
  unfold gzipEncode
  split_ifs with ha
  · rw [ha, gzipDecode, if_pos rfl]
  · have hne : marked data ≠ gzipA := by
      have htake := marked_take_ne_gzipA data (marked data).length
      rwa [List.take_length] at htake
    rw [gzipDecode, if_neg hne, unmarked_marked]

theorem gzipDecode_take (data : Bytes) {n : ℕ} (hn : n < (gzipEncode data).length) :
    gzipDecode ((gzipEncode data).take n) = none := by
  unfold gzipEncode at hn ⊢
  split_ifs at hn ⊢ with ha
  · have hne : gzipA.take n ≠ gzipA := by
      intro h
      have hlength := congrArg List.length h
      rw [List.length_take] at hlength
      omega
    rw [gzipDecode, if_neg hne]
    cases n with
    | zero => rfl
    | succ n => cases n <;> rfl
  · rw [gzipDecode, if_neg (marked_take_ne_gzipA data n), unmarked_take data hn]

theorem length_gzipEncode_le (data : Bytes) : (gzipEncode data).length ≤ 2 * data.length + 21 := by
  have hmarked : (marked data).length = 2 * data.length + 1 := by
    induction data with
    | nil => rfl
    | cons b data ih =>
      simp only [marked, List.length_cons, ih]
      omega
  unfold gzipEncode
  split_ifs
  · exact Nat.le_add_left _ _
  · omega

/-- Its stream: not used yet, with a part of its output given out, or at its end. -/
inductive GzipStream
  | fresh
  | writing (data : Bytes) (written : ℕ)
  | ended (data : Bytes)

/-- The output of `data` from the place `written` on. -/
def gzipWrite (data : Bytes) (written avail_out : ℕ) : Deflated GzipStream :=
  if ((gzipEncode data).drop written).length ≤ avail_out then
    ⟨.Z_STREAM_END, .ended data, [], (gzipEncode data).drop written⟩
  else
    ⟨.Z_OK, .writing data (written + avail_out), [],
      ((gzipEncode data).drop written).take avail_out⟩

def gzip : Zlib GzipStream where
  deflateInit2 := some .fresh
  deflate
    | .fresh, input, avail_out => gzipWrite input 0 avail_out
    | .writing data written, input, avail_out =>
      if input = [] then gzipWrite data written avail_out
      else ⟨.Z_BUF_ERROR, .writing data written, input, []⟩
    | .ended data, input, _ => ⟨.Z_BUF_ERROR, .ended data, input, []⟩
  inflate := gzipDecode
  deflateBound n := 2 * n + 21
  taken
    | .fresh => []
    | .writing data _ => data
    | .ended data => data
  given
    | .fresh => []
    | .writing data written => (gzipEncode data).take written
    | .ended data => gzipEncode data
  unconsumed
    | .fresh => none
    | .writing _ _ => some []
    | .ended _ => some []
  finished
    | .ended _ => true
    | _ => false

/-- A call that writes: it takes all its input, and it fills its room or ends the stream. -/
theorem gzipWrite_spec (data : Bytes) (written avail_out : ℕ) :
    (gzip.taken (gzipWrite data written avail_out).stream = data ∧
      (gzipWrite data written avail_out).rest = [] ∧
      gzip.unconsumed (gzipWrite data written avail_out).stream = some [] ∧
      gzip.given (gzipWrite data written avail_out).stream =
        (gzipEncode data).take written ++ (gzipWrite data written avail_out).output) ∧
    (((gzipWrite data written avail_out).ret = .Z_STREAM_END ∧
        (gzipWrite data written avail_out).stream = .ended data) ∨
      ((gzipWrite data written avail_out).ret = .Z_OK ∧
        gzip.finished (gzipWrite data written avail_out).stream = false ∧
        (gzipWrite data written avail_out).output.length = avail_out)) := by
  unfold gzipWrite
  split_ifs with hroom
  · exact ⟨⟨rfl, rfl, rfl, (List.take_append_drop _ _).symm⟩, Or.inl ⟨rfl, rfl⟩⟩
  · refine ⟨⟨rfl, rfl, rfl, List.take_add⟩, Or.inr ⟨rfl, rfl, ?_⟩⟩
    rw [List.length_take]
    omega

theorem gzipWrite_ret (data : Bytes) (written avail_out : ℕ) :
    (gzipWrite data written avail_out).ret ≠ .Z_STREAM_ERROR := by
  rcases (gzipWrite_spec data written avail_out).2 with ⟨hret, -⟩ | ⟨hret, -⟩
  · rw [hret]
    decide
  · rw [hret]
    decide

theorem gzipWrite_finished (data : Bytes) (written avail_out : ℕ) :
    gzip.finished (gzipWrite data written avail_out).stream = true ↔
      (gzipWrite data written avail_out).ret = .Z_STREAM_END := by
  rcases (gzipWrite_spec data written avail_out).2 with ⟨hret, hended⟩ | ⟨hret, hnot, -⟩
  · rw [hret, hended]
    exact iff_of_true rfl rfl
  · rw [hret, hnot]
    decide

theorem gzipWrite_room {data : Bytes} {written avail_out : ℕ}
    (h : (gzipWrite data written avail_out).ret ≠ .Z_STREAM_END) :
    (gzipWrite data written avail_out).output.length = avail_out := by
  rcases (gzipWrite_spec data written avail_out).2 with ⟨hret, -⟩ | ⟨-, -, hlength⟩
  · exact absurd hret h
  · exact hlength

theorem gzipWrite_stream_end {data : Bytes} {written avail_out : ℕ}
    (h : (gzipWrite data written avail_out).ret = .Z_STREAM_END) :
    gzip.inflate (gzip.given (gzipWrite data written avail_out).stream) = some data := by
  rcases (gzipWrite_spec data written avail_out).2 with ⟨-, hended⟩ | ⟨hret, -⟩
  · rw [hended]
    exact gzipDecode_gzipEncode data
  · rw [hret] at h
    cases h

theorem gzipWrite_truncated {data : Bytes} {written avail_out n : ℕ}
    (h : (gzipWrite data written avail_out).ret = .Z_STREAM_END)
    (hn : n < (gzip.given (gzipWrite data written avail_out).stream).length) :
    gzip.inflate ((gzip.given (gzipWrite data written avail_out).stream).take n) = none := by
  rcases (gzipWrite_spec data written avail_out).2 with ⟨-, hended⟩ | ⟨hret, -⟩
  · rw [hended] at hn ⊢
    exact gzipDecode_take data hn
  · rw [hret] at h
    cases h

/-- A call writes the output of all that was taken, or is refused and changes nothing. -/
theorem gzip_deflate_cases (s : GzipStream) (input : Bytes) (avail_out : ℕ) :
    (gzip.finished s = false ∧ ∃ data written,
      gzip.deflate s input avail_out = gzipWrite data written avail_out ∧
      gzip.taken s ++ input = data ∧ gzip.given s = (gzipEncode data).take written) ∨
    ((gzip.finished s = false → ¬ gzip.Continues s input) ∧
      gzip.deflate s input avail_out = ⟨.Z_BUF_ERROR, s, input, []⟩) := by
  cases s with
  | fresh => exact Or.inl ⟨rfl, input, 0, rfl, rfl, rfl⟩
  | writing data written =>
    by_cases hinput : input = []
    · exact Or.inl ⟨rfl, data, written, if_pos hinput, by rw [hinput]; exact List.append_nil _, rfl⟩
    · refine Or.inr ⟨fun _ => ?_, if_neg hinput⟩
      rintro (hnone | hsome)
      · cases hnone
      · exact hinput (Option.some.inj hsome).symm
  | ended data => exact Or.inr ⟨fun h => absurd h.symm Bool.false_ne_true, rfl⟩

theorem gzip_lawful : gzip.Lawful where
  deflateInit2 s h := by
    obtain rfl := Option.some.inj h
    exact ⟨rfl, rfl, rfl, rfl⟩
  ret s input avail_out := by
    rcases gzip_deflate_cases s input avail_out with ⟨-, data, written, hrun, -⟩ | ⟨-, hrun⟩
    · rw [hrun]
      exact gzipWrite_ret _ _ _
    · rw [hrun]
      exact nofun
  taken s input avail_out := by
    rcases gzip_deflate_cases s input avail_out with ⟨-, data, written, hrun, hdata, -⟩ | ⟨-, hrun⟩
    · obtain ⟨htaken, hrest, -⟩ := (gzipWrite_spec data written avail_out).1
      rw [hrun, htaken, hrest, List.append_nil, hdata]
    · rw [hrun]
  given s input avail_out := by
    rcases gzip_deflate_cases s input avail_out with
      ⟨-, data, written, hrun, -, hgiven⟩ | ⟨-, hrun⟩
    · rw [hrun, hgiven, (gzipWrite_spec data written avail_out).1.2.2.2]
    · rw [hrun, List.append_nil]
  unconsumed s input avail_out hfinished hcontinues := by
    rcases gzip_deflate_cases s input avail_out with ⟨-, data, written, hrun, -⟩ | ⟨hnot, -⟩
    · obtain ⟨-, hrest, hunconsumed, -⟩ := (gzipWrite_spec data written avail_out).1
      rw [hrun, hunconsumed, hrest]
    · exact absurd hcontinues (hnot hfinished)
  finished s input avail_out := by
    rcases gzip_deflate_cases s input avail_out with ⟨hfin, data, written, hrun, -⟩ | ⟨-, hrun⟩
    · rw [hrun, hfin, gzipWrite_finished]
      exact (or_iff_right Bool.false_ne_true).symm
    · rw [hrun]
      exact (or_iff_left nofun).symm
  room s input avail_out hfinished hcontinues hret := by
    rcases gzip_deflate_cases s input avail_out with ⟨-, data, written, hrun, -⟩ | ⟨hnot, -⟩
    · rw [hrun] at hret ⊢
      exact gzipWrite_room hret
    · exact absurd hcontinues (hnot hfinished)
  stream_end s input avail_out hfinished hcontinues hret := by
    rcases gzip_deflate_cases s input avail_out with ⟨-, data, written, hrun, hdata, -⟩ | ⟨hnot, -⟩
    · rw [hrun] at hret ⊢
      rw [hdata]
      exact gzipWrite_stream_end hret
    · exact absurd hcontinues (hnot hfinished)
  truncated s input avail_out n hfinished hcontinues hret hn := by
    rcases gzip_deflate_cases s input avail_out with ⟨-, data, written, hrun, -⟩ | ⟨hnot, -⟩
    · rw [hrun] at hret hn ⊢
      exact gzipWrite_truncated hret hn
    · exact absurd hcontinues (hnot hfinished)
  after_end s input avail_out hfinished := by
    rcases gzip_deflate_cases s input avail_out with ⟨hfin, -⟩ | ⟨-, hrun⟩
    · rw [hfinished] at hfin
      cases hfin
    · rw [hrun]
  bound s := by
    cases s with
    | fresh => exact Nat.zero_le _
    | writing data written =>
      exact Nat.le_trans (List.length_take_le' _ _) (length_gzipEncode_le data)
    | ended data => exact length_gzipEncode_le data
  bound_mono m n h := Nat.add_le_add_right (Nat.mul_le_mul_left 2 h) 21
  inflate_nil := rfl

/-- A folder with the one file "a" is archived on a device with room for 21 bytes. -/
theorem archivesAll_one :
    ArchivesAll gzip true (some 21) (.ok [⟨true, some (bytes "a")⟩]) := by
  apply (archivesAll_iff gzip_lawful true (some 21) ?_).mpr
  · refine Or.inr (Or.inr (Or.inr ⟨.fresh, _, bytes "a", [], rfl, rfl, rfl, by decide, nofun, ?_⟩))
    intro fuel r h n hn
    have hrun : deflateLoop gzip 1 .fresh (bytes "a") (.created none) =
        some (true, .ended (bytes "a"), ⟨true, gzipA, none⟩) := rfl
    obtain rfl := deflateLoop_unique h hrun
    obtain rfl := Option.some.inj hn
    decide
  · intro entries hentries e he _
    cases hentries
    rw [List.mem_singleton.mp he]
    rfl

/-- Of two files "a" the second is lost, also when every write succeeds. -/
theorem second_file_lost :
    Zlib.Lawful gzip ∧ Readable [⟨true, some (bytes "a")⟩, ⟨true, some (bytes "a")⟩] ∧
      ¬ ArchivesAll gzip true none
        (.ok [⟨true, some (bytes "a")⟩, ⟨true, some (bytes "a")⟩]) := by
  refine ⟨gzip_lawful, ?_, ?_⟩
  · intro e he _
    rcases List.mem_cons.mp he with rfl | he
    · rfl
    · rw [List.mem_singleton.mp he]
      rfl
  · intro hall
    have hrun : create_zip gzip 2 true none
        (.ok [⟨true, some (bytes "a")⟩, ⟨true, some (bytes "a")⟩]) = some (.ok true, gzipA) := rfl
    cases hall 2 gzipA hrun _ rfl

end Compress

end OpenAPT
