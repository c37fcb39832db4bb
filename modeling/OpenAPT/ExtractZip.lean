import OpenAPT.DecompressFile
import OpenAPT.Lib.FileStream

/-! `extract_zip`, which feeds a file to `inflate` block by block. Of the return codes it only looks
at `Z_STREAM_ERROR`. -/
namespace OpenAPT

open WhileLoop FileStream

/-- The return codes of `inflate`. -/
inductive InflateCode
  | Z_OK
  | Z_STREAM_END
  | Z_NEED_DICT
  | Z_DATA_ERROR
  | Z_STREAM_ERROR
  | Z_MEM_ERROR
  | Z_BUF_ERROR
  deriving DecidableEq

/-- What a call of `inflate` leaves: the stream, the input that was not consumed, the output, and
`total_in`. -/
structure Inflated (S : Type) where
  ret : InflateCode
  stream : S
  rest : Bytes
  output : Bytes
  total_in : ℕ

/-- What `extract_zip` finds: the bytes that can be read of the file, if it can be opened, zlib, and
which pieces can be appended to the file of a `total_in` after what was written. -/
structure ExtractEnv (S : Type) where
  zip_file : Option Bytes
  inflateInit2 : Option S
  inflate : S → Bytes → Inflated S
  accepts : List (ℕ × Bytes) → ℕ → Bytes → Bool

/-- Both loops: the file, the stream with its input at `next_in`, whether `avail_out` is `0`, and
the pieces that were written. -/
structure ExtractState (S : Type) where
  file : Stream UInt8
  stream : S
  next_in : Bytes
  full : Bool
  written : List (ℕ × Bytes)

namespace ExtractEnv

/-- The size of `buffer` and of `output_buffer`. -/
def bufferSize : ℕ := 8192

variable {S : Type}

/-- The input of the next call: what the last one left if it filled the output buffer, or the next
block of the file. -/
def input (s : ExtractState S) : Bytes × Stream UInt8 :=
  if s.full then (s.next_in, s.file) else s.file.read bufferSize

/-- The outer loop breaks where nothing is read. -/
def goesOn (s : ExtractState S) : Bool := s.full || (s.file.read bufferSize).1 ≠ []

def call (e : ExtractEnv S) (s : ExtractState S) : Inflated S := e.inflate s.stream (input s).1

/-- The pieces that are written after a call. -/
def write (e : ExtractEnv S) (written : List (ℕ × Bytes)) (r : Inflated S) : List (ℕ × Bytes) :=
  if r.output ≠ [] ∧ e.accepts written r.total_in r.output = true then
    written ++ [(r.total_in, r.output)]
  else written

def next (e : ExtractEnv S) (s : ExtractState S) : ExtractState S where
  file := (input s).2
  stream := (e.call s).stream
  next_in := (e.call s).rest
  full := (e.call s).output.length = bufferSize
  written := e.write s.written (e.call s)

/-- One turn of the inner loop, `none` if the function returns `false` there. -/
def turn (e : ExtractEnv S) (s : ExtractState S) : Option (ExtractState S) :=
  if (e.call s).ret = .Z_STREAM_ERROR then none else some (e.next s)

/-- The loops before the call `n`, as long as they do not end. -/
def trace (e : ExtractEnv S) (content : Bytes) (stream : S) : ℕ → ExtractState S
  | 0 => ⟨Stream.ofContent content, stream, [], false, []⟩
  | n + 1 => e.next (e.trace content stream n)

/-- How the loops end. -/
def Extracts (e : ExtractEnv S) (content : Bytes) (stream : S) (o : Option (ExtractState S)) :
    Prop :=
  Ends goesOn e.turn (e.trace content stream 0) o

/-- `extract_zip` returns `result`. -/
def extract_zip (e : ExtractEnv S) (result : Bool) : Prop :=
  match e.zip_file, e.inflateInit2 with
  | some content, some stream => ∃ o, e.Extracts content stream o ∧ result = o.isSome
  | _, _ => result = false

/-- The code that the call `i` returns. -/
def ret (e : ExtractEnv S) (content : Bytes) (stream : S) (i : ℕ) : InflateCode :=
  (e.call (e.trace content stream i)).ret

/-- What the first `n` calls give. -/
def decoded (e : ExtractEnv S) (content : Bytes) (stream : S) (n : ℕ) : Bytes :=
  (List.range n).flatMap fun i => (e.call (e.trace content stream i)).output

/-- One of the first `n` calls comes to the end of the stream, and none before it reports an error.
`Z_BUF_ERROR` only says that there was nothing to do. -/
def ReachesEnd (e : ExtractEnv S) (content : Bytes) (stream : S) (n : ℕ) : Prop :=
  ∃ k < n, e.ret content stream k = .Z_STREAM_END ∧
    ∀ i < k, e.ret content stream i = .Z_OK ∨ e.ret content stream i = .Z_BUF_ERROR

/-- Before the call `n` the loops do not end. -/
def Passes (e : ExtractEnv S) (content : Bytes) (stream : S) (n : ℕ) : Prop :=
  ∀ i < n, goesOn (e.trace content stream i) = true ∧ e.ret content stream i ≠ .Z_STREAM_ERROR

/-- The loops end after `n` calls, without a `Z_STREAM_ERROR`. -/
def EndsAfter (e : ExtractEnv S) (content : Bytes) (stream : S) (n : ℕ) : Prop :=
  e.Passes content stream n ∧ goesOn (e.trace content stream n) = false

/-- The stream was decoded up to its end, and all decoded bytes were written in their order. -/
def DecodesAll (e : ExtractEnv S) : Prop :=
  ∃ content stream n, e.zip_file = some content ∧ e.inflateInit2 = some stream ∧
    e.EndsAfter content stream n ∧ e.ReachesEnd content stream n ∧
    (e.trace content stream n).written.flatMap Prod.snd = e.decoded content stream n

/-- The function returns `true` only if the file was decoded as a whole. -/
def ReportsCorruption (e : ExtractEnv S) : Prop := e.extract_zip true → e.DecodesAll

/-- Whatever the first `n` calls give can be written. -/
def Accepted (e : ExtractEnv S) (content : Bytes) (stream : S) (n : ℕ) : Prop :=
  ∀ i < n, (e.call (e.trace content stream i)).output ≠ [] →
    e.accepts (e.trace content stream i).written (e.call (e.trace content stream i)).total_in
      (e.call (e.trace content stream i)).output = true

/-- The file or zlib cannot be opened, or where the loops are at the end of the file, the stream was
at its end before and all pieces could be written. -/
def Intact (e : ExtractEnv S) : Prop :=
  ∀ content stream, e.zip_file = some content → e.inflateInit2 = some stream →
    ∀ n, e.EndsAfter content stream n →
      e.ReachesEnd content stream n ∧ e.Accepted content stream n

variable {e : ExtractEnv S} {content : Bytes} {stream : S} {n : ℕ}

theorem turn_trace_iff (e : ExtractEnv S) (content : Bytes) (stream : S) (i : ℕ)
    (t : ExtractState S) : e.turn (e.trace content stream i) = some t ↔
      e.ret content stream i ≠ .Z_STREAM_ERROR ∧ t = e.trace content stream (i + 1) := by
  unfold turn
  split_ifs with h
  · exact iff_of_false nofun fun h' => h'.1 h
  · rw [Option.some_inj, eq_comm, trace]
    exact (and_iff_right h).symm

/-- The loops end at the end of the file, if no call before it reports `Z_STREAM_ERROR`. -/
theorem extracts_some_iff (e : ExtractEnv S) (content : Bytes) (stream : S) (s : ExtractState S) :
    e.Extracts content stream (some s) ↔
      ∃ n, e.EndsAfter content stream n ∧ s = e.trace content stream n := by
  have hpasses (n : ℕ) : (∀ i < n, goesOn (e.trace content stream i) = true ∧
      e.turn (e.trace content stream i) = some (e.trace content stream (i + 1))) ↔
      e.Passes content stream n := by
    apply forall₂_congr
    intro i _
    rw [turn_trace_iff, and_iff_left rfl]
  have hends : e.Extracts content stream (some s) ↔ ∃ n,
      (∀ i < n, goesOn (e.trace content stream i) = true ∧
        e.turn (e.trace content stream i) = some (e.trace content stream (i + 1))) ∧
      goesOn (e.trace content stream n) = false ∧ s = e.trace content stream n :=
    ends_some_iff_of_trace (fun i t h => ((turn_trace_iff e content stream i t).mp h).2) s
  refine hends.trans (exists_congr fun n => ?_)
  rw [hpasses, EndsAfter, and_assoc]

theorem extract_zip_true_iff (e : ExtractEnv S) : e.extract_zip true ↔
    ∃ content stream n, e.zip_file = some content ∧ e.inflateInit2 = some stream ∧
      e.EndsAfter content stream n := by
  unfold extract_zip
  cases hfile : e.zip_file with
  | none =>
    -- the file cannot be opened
    refine iff_of_false Bool.noConfusion ?_
    rintro ⟨content, stream, n, hcontent, -⟩
    cases hcontent
  | some content =>
    cases hinit : e.inflateInit2 with
    | none =>
      -- `inflateInit2` fails
      refine iff_of_false Bool.noConfusion ?_
      rintro ⟨content, stream, n, -, hstream, -⟩
      cases hstream
    | some stream =>
      constructor
      · intro h
        obtain ⟨s, hs⟩ := exists_true_eq_isSome_iff.mp h
        obtain ⟨n, hends, -⟩ := (extracts_some_iff e content stream s).mp hs
        exact ⟨content, stream, n, rfl, rfl, hends⟩
      · rintro ⟨_, _, n, hcontent, hstream, hends⟩
        obtain rfl := Option.some.inj hcontent
        obtain rfl := Option.some.inj hstream
        apply exists_true_eq_isSome_iff.mpr
        exact ⟨_, (extracts_some_iff e _ _ _).mpr ⟨n, hends, rfl⟩⟩

theorem decoded_succ (e : ExtractEnv S) (content : Bytes) (stream : S) (n : ℕ) :
    e.decoded content stream (n + 1) =
      e.decoded content stream n ++ (e.call (e.trace content stream n)).output := by
  rw [decoded, List.range_succ, List.flatMap_append, List.flatMap_singleton]
  rfl

/-- A piece that cannot be written is lost. -/
theorem write_bytes (e : ExtractEnv S) (written : List (ℕ × Bytes)) (r : Inflated S) :
    (e.write written r).flatMap Prod.snd =
      written.flatMap Prod.snd ++
        if r.output ≠ [] → e.accepts written r.total_in r.output = true then r.output else [] := by
  unfold write
  by_cases hnil : r.output = []
  · rw [if_neg fun h => h.1 hnil, if_pos fun h => absurd hnil h, hnil, List.append_nil]
  · by_cases haccepts : e.accepts written r.total_in r.output = true
    · rw [if_pos ⟨hnil, haccepts⟩, if_pos fun _ => haccepts, List.flatMap_append,
        List.flatMap_singleton]
    · rw [if_neg fun h => haccepts h.2, if_neg fun h => haccepts (h hnil), List.append_nil]

theorem written_length_le (e : ExtractEnv S) (content : Bytes) (stream : S) (n : ℕ) :
    ((e.trace content stream n).written.flatMap Prod.snd).length ≤
      (e.decoded content stream n).length := by
  induction n with
  | zero => exact le_rfl
  | succ n ih =>
    rw [trace, next, write_bytes, decoded_succ, List.length_append, List.length_append]
    apply Nat.add_le_add ih
    split_ifs
    · exact le_rfl
    · exact Nat.zero_le _

/-- All bytes were written exactly if all pieces could be written. -/
theorem written_eq_decoded_iff (e : ExtractEnv S) (content : Bytes) (stream : S) (n : ℕ) :
    (e.trace content stream n).written.flatMap Prod.snd = e.decoded content stream n ↔
      e.Accepted content stream n := by
  induction n with
  | zero => exact iff_of_true rfl fun i hi => absurd hi (Nat.not_lt_zero i)
  | succ n ih =>
    have hsucc : e.Accepted content stream (n + 1) ↔ e.Accepted content stream n ∧
        ((e.call (e.trace content stream n)).output ≠ [] →
          e.accepts (e.trace content stream n).written
            (e.call (e.trace content stream n)).total_in
            (e.call (e.trace content stream n)).output = true) := Nat.forall_lt_succ_right
    rw [trace, next, write_bytes, decoded_succ, hsucc, ← ih]
    split_ifs with haccepts
    · rw [List.append_left_inj, and_iff_left haccepts]
    · -- the bytes of a lost piece are missing at the end
      apply iff_of_false _ fun h => haccepts h.2
      intro heq
      have hle := written_length_le e content stream n
      have hlength := congrArg List.length heq
      rw [List.length_append, List.length_append, List.length_nil] at hlength
      have hnil : (e.call (e.trace content stream n)).output = [] :=
        List.length_eq_zero_iff.mp (by omega)
      exact haccepts fun hne => absurd hnil hne

/-- The loops end after one number of calls only. -/
theorem EndsAfter.eq {m : ℕ} (hm : e.EndsAfter content stream m)
    (hn : e.EndsAfter content stream n) : m = n := by
  apply eq_of_first hm.1 _ hn.1
  · exact fun h => Bool.noConfusion (hn.2.symm.trans h.1)
  · exact fun h => Bool.noConfusion (hm.2.symm.trans h.1)

theorem reportsCorruption_iff_intact (e : ExtractEnv S) : e.ReportsCorruption ↔ e.Intact := by
  rw [ReportsCorruption, extract_zip_true_iff]
  constructor
  · intro h content stream hfile hinit n hends
    obtain ⟨content', stream', m, hfile', hinit', hends', hreaches, hwritten⟩ :=
      h ⟨content, stream, n, hfile, hinit, hends⟩
    obtain rfl := Option.some.inj (hfile.symm.trans hfile')
    obtain rfl := Option.some.inj (hinit.symm.trans hinit')
    obtain rfl := hends'.eq hends
    exact ⟨hreaches, (written_eq_decoded_iff e _ _ m).mp hwritten⟩
  · intro h ⟨content, stream, n, hfile, hinit, hends⟩
    obtain ⟨hreaches, haccepted⟩ := h content stream hfile hinit n hends
    exact ⟨content, stream, n, hfile, hinit, hends, hreaches,
      (written_eq_decoded_iff e _ _ n).mpr haccepted⟩

end ExtractEnv

/-- Decompression reports corruption exactly where the functions find what they look at. -/
theorem decompression_reports_iff {S : Type} (d : DecompressEnv) (z : ExtractEnv S) :
    (d.ReportsCorruption ↔ d.Intact) ∧ (z.ReportsCorruption ↔ z.Intact) :=
  ⟨d.reportsCorruption_iff_intact, z.reportsCorruption_iff_intact⟩

/-- A gzip file that is damaged at its start. -/
def damagedGz : DecompressEnv where
  inputExists := true
  outputOpens := true
  inputOpens := true
  gzip := true
  gzread _ := .error
  accepts _ _ := true
  closes := true

/-- A file of one byte in which `inflate` finds an error. -/
def damagedZip : ExtractEnv Unit where
  zip_file := some [0]
  inflateInit2 := some ()
  inflate _ _ := ⟨.Z_DATA_ERROR, (), [], [], 0⟩
  accepts _ _ _ := true

theorem damaged_not_reported : ¬ damagedGz.ReportsCorruption ∧ ¬ damagedZip.ReportsCorruption := by
  constructor
  · rw [DecompressEnv.reportsCorruption_iff_intact]
    intro h
    cases (h rfl 0 (fun i hi => absurd hi (Nat.not_lt_zero i)) rfl).1
  · rw [ExtractEnv.reportsCorruption_iff_intact]
    intro h
    have hends : damagedZip.EndsAfter [0] () 1 := by
      refine ⟨fun i hi => ?_, rfl⟩
      obtain rfl := Nat.lt_one_iff.mp hi
      exact ⟨rfl, by decide⟩
    obtain ⟨⟨k, hk, hret, -⟩, -⟩ := h [0] () rfl rfl 1 hends
    cases hret

end OpenAPT
