import Mathlib.Data.Nat.Find
import OpenAPT.Bytes
import OpenAPT.Lib.WhileLoop

/-! `compress_file`. Its loop reads until the end of file is seen, and a stream that failed without
seeing it is read for ever. -/
namespace OpenAPT

open WhileLoop

def CHUNK : ℕ := 16384

/-- How a read of `CHUNK` bytes from a good stream ends: in full, at the end of the file with less,
or by an error, which does not set `eofbit`. -/
inductive ChunkRead
  | full (data : Bytes) (length_eq : data.length = CHUNK)
  | eof (data : Bytes) (length_lt : data.length < CHUNK)
  | bad (data : Bytes) (length_le : data.length ≤ CHUNK)

/-- The bytes that were read, as `gcount` counts them. -/
def ChunkRead.data : ChunkRead → Bytes
  | full data _ | eof data _ | bad data _ => data

/-- What `compress_file` finds: whether the input exists and both files can be opened, how each read
ends, which pieces the compressed file accepts after what was written, and whether it is closed
without an error. -/
structure CompressEnv where
  inputExists : Bool
  outputOpens : Bool
  inputOpens : Bool
  device : ℕ → ChunkRead
  accepts : Bytes → Bytes → Bool
  closes : Bool

/-- The loop: the reads so far, the bits of the input, and what was written uncompressed. -/
structure CopyState where
  reads : ℕ
  eofbit : Bool
  failed : Bool
  written : Bytes

namespace CompressEnv

/-- `in.read(buf, CHUNK)`. A stream that is not good only fails. -/
def read (e : CompressEnv) (s : CopyState) : Bytes × CopyState :=
  if s.eofbit || s.failed then ([], { s with failed := true })
  else
    match e.device s.reads with
    | .full data _ => (data, { s with reads := s.reads + 1 })
    | .eof data _ => (data, { s with reads := s.reads + 1, eofbit := true, failed := true })
    | .bad data _ => (data, { s with reads := s.reads + 1, failed := true })

/-- `gzwrite` returns the number of bytes it was given, or `0` for an error. -/
def gzwrite (e : CompressEnv) (written buf : Bytes) : ℕ :=
  if e.accepts written buf then buf.length else 0

/-- One turn of the loop, `none` if the function returns `false` there. -/
def turn (e : CompressEnv) (s : CopyState) : Option CopyState :=
  let (buf, t) := e.read s
  if e.gzwrite s.written buf ≠ buf.length then none else some { t with written := s.written ++ buf }

def start : CopyState := ⟨0, false, false, []⟩

/-- `while (!in.eof())`, and how it ends. -/
def Copies (e : CompressEnv) (o : Option CopyState) : Prop :=
  Ends (fun s => !s.eofbit) e.turn start o

/-- `compress_file` returns `result`. -/
def compress_file (e : CompressEnv) (result : Bool) : Prop :=
  if !e.inputExists || !e.outputOpens || !e.inputOpens then result = false
  else ∃ o, e.Copies o ∧ result = o.isSome

/-- What the first `n` reads give. -/
def content (e : CompressEnv) (n : ℕ) : Bytes :=
  (List.range n).flatMap fun i => (e.device i).data

/-- The input ends with the read `n`, and all of it was written. -/
def WritesAll (e : CompressEnv) : Prop :=
  ∃ n s, (∀ i < n, ∃ data h, e.device i = .full data h) ∧ (∃ data h, e.device n = .eof data h) ∧
    e.Copies (some s) ∧ s.written = e.content (n + 1) ∧ e.closes = true

/-- The function returns, and with `true` only if the whole input was written. -/
def Reports (e : CompressEnv) : Prop :=
  (∃ result, e.compress_file result) ∧ (e.compress_file true → e.WritesAll)

/-- The piece of the read `i` is written. -/
def Written (e : CompressEnv) (i : ℕ) : Prop :=
  e.gzwrite (e.content i) (e.device i).data = (e.device i).data.length

/-- All reads before `n` are in full, and their pieces are written. -/
def Passes (e : CompressEnv) (n : ℕ) : Prop :=
  ∀ i < n, (∃ data h, e.device i = .full data h) ∧ e.Written i

/-- A file cannot be opened, or after some full reads whose pieces are written there comes a piece
that is not written, or the end of the file with its piece written and the file closed. -/
def Finishes (e : CompressEnv) : Prop :=
  (!e.inputExists || !e.outputOpens || !e.inputOpens) = true ∨
    ∃ n, e.Passes n ∧
      (¬ e.Written n ∨ e.Written n ∧ (∃ data h, e.device n = .eof data h) ∧ e.closes = true)

variable {e : CompressEnv} {n : ℕ}

/-- The loop after `n` full reads. -/
def full (e : CompressEnv) (n : ℕ) : CopyState := ⟨n, false, false, e.content n⟩

theorem content_succ (e : CompressEnv) (n : ℕ) :
    e.content (n + 1) = e.content n ++ (e.device n).data := by
  rw [content, List.range_succ, List.flatMap_append, List.flatMap_singleton]
  rfl

/-! ### Turns -/

theorem read_full_fst (e : CompressEnv) (n : ℕ) : (e.read (e.full n)).1 = (e.device n).data := by
  simp only [read, full, Bool.or_self, Bool.false_eq_true, ↓reduceIte]
  cases e.device n with
  | full data h | eof data h | bad data h => rfl

theorem turn_full (e : CompressEnv) (n : ℕ) : e.turn (e.full n) =
    if e.gzwrite (e.content n) (e.device n).data ≠ (e.device n).data.length then none
    else some { (e.read (e.full n)).2 with written := e.content (n + 1) } := by
  rw [content_succ, ← read_full_fst]
  rfl

theorem turn_of_not_written (hn : ¬ e.Written n) : e.turn (e.full n) = none := by
  rw [turn_full]
  exact if_pos hn

/-- A piece that is written is added to what was written. -/
theorem turn_of_written (hn : e.Written n) : e.turn (e.full n) =
    some { (e.read (e.full n)).2 with written := e.content (n + 1) } := by
  rw [turn_full]
  exact if_neg (not_not_intro hn)

theorem turn_of_full (hn : e.Written n) {data : Bytes} {h : data.length = CHUNK}
    (hdevice : e.device n = .full data h) : e.turn (e.full n) = some (e.full (n + 1)) := by
  rw [turn_of_written hn]
  simp only [read, full, Bool.or_self, Bool.false_eq_true, ↓reduceIte, hdevice]

/-- The end of file ends the loop. -/
theorem turn_of_eof (hn : e.Written n) {data : Bytes} {h : data.length < CHUNK}
    (hdevice : e.device n = .eof data h) :
    e.turn (e.full n) = some ⟨n + 1, true, true, e.content (n + 1)⟩ := by
  rw [turn_of_written hn]
  simp only [read, full, Bool.or_self, Bool.false_eq_true, ↓reduceIte, hdevice]

/-- An error does not. -/
theorem turn_of_bad (hn : e.Written n) {data : Bytes} {h : data.length ≤ CHUNK}
    (hdevice : e.device n = .bad data h) :
    e.turn (e.full n) = some ⟨n + 1, false, true, e.content (n + 1)⟩ := by
  rw [turn_of_written hn]
  simp only [read, full, Bool.or_self, Bool.false_eq_true, ↓reduceIte, hdevice]

/-- From then on nothing is read, and writing nothing is no error. -/
theorem turn_of_failed (e : CompressEnv) (reads : ℕ) (written : Bytes) :
    e.turn ⟨reads, false, true, written⟩ = some ⟨reads, false, true, written⟩ := by
  simp only [turn, read, gzwrite, Bool.or_true, ↓reduceIte, List.length_nil, ite_self, ne_eq,
    not_true_eq_false, List.append_nil]

/-! ### Runs -/

theorem copies_iff_of_passes (h : e.Passes n) (o : Option CopyState) :
    e.Copies o ↔ Ends (fun s => !s.eofbit) e.turn (e.full n) o := by
  have hstart : start = e.full 0 := rfl
  rw [Copies, hstart]
  apply ends_iff_of_trace
  intro i hi
  obtain ⟨⟨data, hlength, hdevice⟩, hwritten⟩ := h i hi
  exact ⟨rfl, turn_of_full hwritten hdevice⟩

theorem copies_of_not_written (h : e.Passes n) (hn : ¬ e.Written n) (o : Option CopyState) :
    e.Copies o ↔ o = none := by
  rw [copies_iff_of_passes h]
  exact ends_iff_of_none rfl (turn_of_not_written hn)

theorem copies_of_eof (h : e.Passes n) (hn : e.Written n) {data : Bytes}
    {hlength : data.length < CHUNK} (hdevice : e.device n = .eof data hlength)
    (o : Option CopyState) :
    e.Copies o ↔ o = some ⟨n + 1, true, true, e.content (n + 1)⟩ := by
  rw [copies_iff_of_passes h, ends_iff_of_some rfl (turn_of_eof hn hdevice)]
  exact ends_iff_of_false rfl

/-- After an error the loop goes on for ever. -/
theorem not_copies_of_bad (h : e.Passes n) (hn : e.Written n) {data : Bytes}
    {hlength : data.length ≤ CHUNK} (hdevice : e.device n = .bad data hlength)
    (o : Option CopyState) : ¬ e.Copies o := by
  rw [copies_iff_of_passes h, ends_iff_of_some rfl (turn_of_bad hn hdevice)]
  exact not_ends_of_fixed rfl (turn_of_failed e _ _) o

/-- An input without an end is read for ever too. -/
theorem not_copies_of_passes (h : ∀ n, e.Passes n) (o : Option CopyState) : ¬ e.Copies o := by
  apply not_ends_of_invariant (I := fun s => ∃ n, s = e.full n) _ ⟨0, rfl⟩
  rintro s ⟨n, rfl⟩
  obtain ⟨⟨data, hlength, hdevice⟩, hwritten⟩ := h (n + 1) n (Nat.lt_succ_self n)
  exact ⟨rfl, _, turn_of_full hwritten hdevice, n + 1, rfl⟩

/-- What becomes of the loop is decided at the first read that is not in full with its piece
written. -/
inductive Decided (e : CompressEnv) (n : ℕ) : Prop
  | refused (hn : ¬ e.Written n)
  | eof (hn : e.Written n) (data : Bytes) (h : data.length < CHUNK)
    (hdevice : e.device n = .eof data h)
  | bad (hn : e.Written n) (data : Bytes) (h : data.length ≤ CHUNK)
    (hdevice : e.device n = .bad data h)

theorem Decided.not_full (h : e.Decided n) :
    ¬ ((∃ data h, e.device n = .full data h) ∧ e.Written n) := by
  intro ⟨⟨data, hlength, hfull⟩, hwritten⟩
  cases h with
  | refused hn => exact hn hwritten
  | eof hn data h hdevice => cases hfull.symm.trans hdevice
  | bad hn data h hdevice => cases hfull.symm.trans hdevice

theorem exists_decided_or_passes (e : CompressEnv) :
    (∀ n, e.Passes n) ∨ ∃ n, e.Passes n ∧ e.Decided n := by
  classical
  by_cases hall : ∀ n, (∃ data h, e.device n = .full data h) ∧ e.Written n
  · exact Or.inl fun n i _ => hall i
  · -- the first read that does not pass decides
    have hsome := not_forall.mp hall
    refine Or.inr ⟨Nat.find hsome, fun i hi => ?_, ?_⟩
    · exact not_not.mp (Nat.find_min hsome hi)
    · have hfirst := Nat.find_spec hsome
      generalize Nat.find hsome = n at hfirst
      by_cases hn : e.Written n
      · cases hdevice : e.device n with
        | full data h => exact absurd ⟨⟨data, h, hdevice⟩, hn⟩ hfirst
        | eof data h => exact .eof hn data h hdevice
        | bad data h => exact .bad hn data h hdevice
      · exact .refused hn

/-- There is only one such read. -/
theorem Decided.eq {m : ℕ} (hn : e.Decided n) (hpasses : e.Passes n) (hm : e.Decided m)
    (hpasses' : e.Passes m) : m = n :=
  eq_of_first hpasses' hm.not_full hpasses hn.not_full

/-! ### Reports -/

/-- The loop ends, and without an error only if the whole input was written. -/
def CopyReports (e : CompressEnv) : Prop :=
  (∃ o, e.Copies o) ∧ ((∃ s, e.Copies (some s)) → e.WritesAll)

/-- With the files open `compress_file` returns as its loop ends. -/
theorem reports_iff_of_opens
    (hopens : ¬ (!e.inputExists || !e.outputOpens || !e.inputOpens) = true) :
    e.Reports ↔ e.CopyReports := by
  have hresult (result : Bool) :
      e.compress_file result ↔ ∃ o, e.Copies o ∧ result = o.isSome := by
    rw [compress_file, if_neg hopens]
  have hreturns : (∃ result, e.compress_file result) ↔ ∃ o, e.Copies o := by
    constructor
    · intro ⟨result, h⟩
      obtain ⟨o, ho, -⟩ := (hresult result).mp h
      exact ⟨o, ho⟩
    · intro ⟨o, ho⟩
      exact ⟨o.isSome, (hresult _).mpr ⟨o, ho, rfl⟩⟩
  have htrue : e.compress_file true ↔ ∃ s, e.Copies (some s) := by
    rw [hresult]
    exact exists_true_eq_isSome_iff
  rw [Reports, CopyReports, hreturns, htrue]

/-- A piece that is not written makes the function return `false`. -/
theorem copyReports_of_not_written (hpasses : e.Passes n) (hn : ¬ e.Written n) :
    e.CopyReports := by
  have hcopies := copies_of_not_written hpasses hn
  refine ⟨⟨none, (hcopies none).mpr rfl⟩, ?_⟩
  intro ⟨s, hs⟩
  exact absurd ((hcopies _).mp hs) (Option.some_ne_none s)

/-- At the end of the file the function returns `true`, whether the file is closed or not. -/
theorem copyReports_iff_of_eof (hpasses : e.Passes n) (hn : e.Written n) {data : Bytes}
    {hlength : data.length < CHUNK} (hdevice : e.device n = .eof data hlength) :
    e.CopyReports ↔ e.closes = true := by
  have hends := (copies_of_eof hpasses hn hdevice _).mpr rfl
  constructor
  · intro hreports
    obtain ⟨-, -, -, -, -, -, hcloses⟩ := hreports.2 ⟨_, hends⟩
    exact hcloses
  · intro hcloses
    refine ⟨⟨_, hends⟩, fun _ => ?_⟩
    exact ⟨n, _, fun i hi => (hpasses i hi).1, ⟨data, hlength, hdevice⟩, hends, rfl, hcloses⟩

theorem not_copyReports_of_bad (hpasses : e.Passes n) (hn : e.Written n) {data : Bytes}
    {hlength : data.length ≤ CHUNK} (hdevice : e.device n = .bad data hlength) :
    ¬ e.CopyReports := by
  intro ⟨⟨o, ho⟩, _⟩
  exact not_copies_of_bad hpasses hn hdevice o ho

theorem not_copyReports_of_passes (h : ∀ n, e.Passes n) : ¬ e.CopyReports := by
  intro ⟨⟨o, ho⟩, _⟩
  exact not_copies_of_passes h o ho

/-- The read that decides is the one that the loop ends with. -/
theorem copyReports_iff_of_decided (hpasses : e.Passes n) (hn : e.Decided n) :
    e.CopyReports ↔
      ¬ e.Written n ∨ e.Written n ∧ (∃ data h, e.device n = .eof data h) ∧ e.closes = true := by
  cases hn with
  | refused hn => exact iff_of_true (copyReports_of_not_written hpasses hn) (Or.inl hn)
  | eof hn data h hdevice =>
    rw [copyReports_iff_of_eof hpasses hn hdevice, or_iff_right (not_not_intro hn),
      and_iff_right hn, and_iff_right ⟨data, h, hdevice⟩]
  | bad hn data h hdevice =>
    apply iff_of_false (not_copyReports_of_bad hpasses hn hdevice)
    rintro (hrefused | ⟨-, ⟨data', h', heof⟩, -⟩)
    · exact hrefused hn
    · cases heof.symm.trans hdevice

theorem copyReports_iff (e : CompressEnv) : e.CopyReports ↔ ∃ n, e.Passes n ∧
    (¬ e.Written n ∨ e.Written n ∧ (∃ data h, e.device n = .eof data h) ∧ e.closes = true) := by
  have hdecided {m : ℕ} (hend : ¬ e.Written m ∨
      e.Written m ∧ (∃ data h, e.device m = .eof data h) ∧ e.closes = true) : e.Decided m := by
    rcases hend with hrefused | ⟨hwritten, ⟨data, h, hdevice⟩, -⟩
    · exact .refused hrefused
    · exact .eof hwritten data h hdevice
  rcases e.exists_decided_or_passes with hall | ⟨n, hpasses, hn⟩
  · -- an endless input has no read to finish with
    apply iff_of_false (not_copyReports_of_passes hall)
    intro ⟨n, _, hend⟩
    exact (hdecided hend).not_full (hall (n + 1) n (Nat.lt_succ_self n))
  · rw [copyReports_iff_of_decided hpasses hn]
    constructor
    · exact fun hend => ⟨n, hpasses, hend⟩
    · intro ⟨m, hm, hend⟩
      rwa [← hn.eq hpasses (hdecided hend) hm]

/-- `compress_file` ends and reports what it has done exactly if a file cannot be opened, or if the
reads end with the end of the file or with a piece that is not written. -/
theorem reports_iff_finishes (e : CompressEnv) : e.Reports ↔ e.Finishes := by
  by_cases hopens : (!e.inputExists || !e.outputOpens || !e.inputOpens) = true
  · have hfalse (result : Bool) : e.compress_file result ↔ result = false := by
      rw [compress_file, if_pos hopens]
    rw [Reports]
    simp only [hfalse]
    exact iff_of_true ⟨⟨false, rfl⟩, fun htrue => Bool.noConfusion htrue⟩ (Or.inl hopens)
  · rw [reports_iff_of_opens hopens, Finishes, or_iff_right hopens]
    exact e.copyReports_iff

/-- A directory can be opened as a file, and no byte of it can be read. -/
def directory : CompressEnv where
  inputExists := true
  outputOpens := true
  inputOpens := true
  device _ := .bad [] (by decide)
  accepts _ _ := true
  closes := true

theorem directory_never_returns :
    (∀ result, ¬ directory.compress_file result) ∧ ¬ directory.Reports := by
  have hcopies : ∀ o, ¬ directory.Copies o := by
    have hpasses : directory.Passes 0 := fun i hi => absurd hi (Nat.not_lt_zero i)
    exact not_copies_of_bad hpasses rfl rfl
  have hreturns (result : Bool) : ¬ directory.compress_file result := by
    intro ⟨o, ho, _⟩
    exact hcopies o ho
  exact ⟨hreturns, fun ⟨⟨result, hresult⟩, _⟩ => hreturns result hresult⟩

end CompressEnv

end OpenAPT
