import Mathlib.Algebra.Ring.Nat
import Mathlib.Data.List.Basic
import OpenAPT.Bytes
import OpenAPT.Lib.WhileLoop

/-! The write loop of `download_task`: the body of the response goes to the file in pieces, and the
position of the stream says how far it has got. -/
namespace OpenAPT

open WhileLoop

/-- The bytes of a string or of a file. Offsets are signed, so there are less than 2^63. -/
structure Contents where
  bytes : Bytes
  length_lt : bytes.length < 2 ^ 63

/-- What `download_task` starts from: the body of the response, what is in the file (nothing, if it
is a new one), the task, the speed limit and the time since `start_time_`. -/
structure Download where
  body : Contents
  old : Contents
  downloaded_bytes : UInt64
  completed : Bool
  paused : Bool
  download_speed : UInt64
  elapsed_ms : ℕ

/-- The state of the loop: the task, the file and the position of the stream. -/
structure DownloadState where
  downloaded_bytes : UInt64
  completed : Bool
  paused : Bool
  file : Bytes
  tellp : ℕ

namespace Download

/-- `kBufferSize`. -/
def kBufferSize : UInt64 := 1024 * 1024

/-- `buffer_size`. The product of the rate and the time, cut to an integer, is given. -/
def buffer_size (scaled : UInt64 → ℕ → UInt64) (d : Download) : UInt64 :=
  if 0 < d.download_speed then
    let bytes_to_download := scaled d.download_speed d.elapsed_ms - d.downloaded_bytes
    if bytes_to_download < kBufferSize then bytes_to_download else kBufferSize
  else kBufferSize

/-- The state after `seekp`. -/
def start (d : Download) : DownloadState :=
  ⟨d.downloaded_bytes, d.completed, d.paused, d.old.bytes, d.downloaded_bytes.toNat⟩

/-- The condition of the loop. -/
def continues (d : Download) (s : DownloadState) : Bool :=
  !d.body.bytes.isEmpty && !s.completed && !s.paused

/-- `outfile.write`, to the end of the file. Without bytes the stream stays where it is. -/
def write (data : Bytes) (s : DownloadState) : DownloadState :=
  if data.isEmpty then s
  else { s with file := s.file ++ data, tellp := (s.file ++ data).length }

/-- `body.size()`. -/
def size (body : Contents) : UInt64 := UInt64.ofNat body.bytes.length

/-- `bytes_to_write`. -/
def bytes_to_write (body : Contents) (buffer_size : UInt64) (s : DownloadState) : UInt64 :=
  if buffer_size < size body - s.downloaded_bytes then buffer_size
  else size body - s.downloaded_bytes

/-- One turn of the loop; `none` where it reads behind the body. The pause of the speed limit
changes nothing. -/
def turn (body : Contents) (buffer_size : UInt64) (s : DownloadState) : Option DownloadState :=
  let bytes_to_write := bytes_to_write body buffer_size s
  if bytes_to_write ≠ 0 ∧
      body.bytes.length < s.downloaded_bytes.toNat + bytes_to_write.toNat then none
  else
    let s := write ((body.bytes.drop s.downloaded_bytes.toNat).take bytes_to_write.toNat) s
    let bytes_written := UInt64.ofNat s.tellp - s.downloaded_bytes
    let downloaded_bytes := s.downloaded_bytes + bytes_written
    some { s with
      downloaded_bytes := downloaded_bytes
      completed := s.completed || size body ≤ downloaded_bytes }

/-- How the loop ends; `none` is a read behind the body. -/
def EndsIn (scaled : UInt64 → ℕ → UInt64) (d : Download) : Option DownloadState → Prop :=
  Ends d.continues (turn d.body (d.buffer_size scaled)) d.start

/-- The loop ends, with the task completed unless it is paused or there is no body. -/
def Terminates (scaled : UInt64 → ℕ → UInt64) (d : Download) : Prop :=
  ∃ s, d.EndsIn scaled (some s) ∧ (d.paused = false → d.body.bytes ≠ [] → s.completed = true)

/-- Where the loop completes the task, the file is the body. -/
def WritesBody (scaled : UInt64 → ℕ → UInt64) (d : Download) : Prop :=
  ¬ d.EndsIn scaled none ∧ ∀ s, d.EndsIn scaled (some s) → d.completed = false →
    s.completed = true → s.file = d.body.bytes

/-- There is nothing to do. -/
def Idle (d : Download) : Prop := d.body.bytes = [] ∨ d.paused = true ∨ d.completed = true

/-- The end of the body is reached without a piece. -/
def AtEnd (scaled : UInt64 → ℕ → UInt64) (d : Download) : Prop :=
  d.downloaded_bytes.toNat = d.body.bytes.length ∨
    d.body.bytes.length < d.downloaded_bytes.toNat ∧ d.buffer_size scaled = 0

/-- If something is left of the body, the first piece is not empty, and otherwise it is. -/
def Progresses (scaled : UInt64 → ℕ → UInt64) (d : Download) : Prop :=
  d.Idle ∨ d.AtEnd scaled ∨
    d.downloaded_bytes.toNat < d.body.bytes.length ∧ d.buffer_size scaled ≠ 0

/-- The old file with the first piece after it starts like the body. Without a first piece nothing
is completed, or the old file is the body already. -/
def Resumes (scaled : UInt64 → ℕ → UInt64) (d : Download) : Prop :=
  d.Idle ∨ (d.AtEnd scaled ∧ d.old.bytes = d.body.bytes) ∨
    d.downloaded_bytes.toNat < d.body.bytes.length ∧ (d.buffer_size scaled = 0 ∨
      d.old.bytes ++ (d.body.bytes.drop d.downloaded_bytes.toNat).take
        (d.buffer_size scaled).toNat <+: d.body.bytes)

/-! ### One turn -/

variable {body : Contents} {b : UInt64} {s : DownloadState}

theorem size_toNat (body : Contents) : (size body).toNat = body.bytes.length := by
  apply UInt64.toNat_ofNat_of_lt'
  exact Nat.lt_trans body.length_lt (by decide)

/-- Up to the end of the body the piece is what is left of it, cut to the buffer. -/
theorem bytes_to_write_toNat (hle : s.downloaded_bytes.toNat ≤ body.bytes.length) :
    (bytes_to_write body b s).toNat =
      min b.toNat (body.bytes.length - s.downloaded_bytes.toNat) := by
  have hsize : s.downloaded_bytes ≤ size body := by
    rw [UInt64.le_iff_toNat_le, size_toNat]
    exact hle
  have hsub : (size body - s.downloaded_bytes).toNat =
      body.bytes.length - s.downloaded_bytes.toNat := by
    calc
      _ = (size body).toNat - s.downloaded_bytes.toNat := UInt64.toNat_sub_of_le _ _ hsize
      _ = _ := by rw [size_toNat]
  unfold bytes_to_write
  split_ifs with hlt
  · rw [UInt64.lt_iff_toNat_lt, hsub] at hlt
    omega
  · rw [UInt64.lt_iff_toNat_lt, hsub] at hlt
    rw [hsub]
    omega

/-- Behind the end of the body the difference wraps around, and the piece is empty only if the
buffer is. -/
theorem bytes_to_write_ne_zero (hlt : body.bytes.length < s.downloaded_bytes.toNat) (hb : b ≠ 0) :
    bytes_to_write body b s ≠ 0 := by
  unfold bytes_to_write
  split_ifs
  · exact hb
  · intro hzero
    have heq : size body = s.downloaded_bytes := by
      calc
        size body = size body - s.downloaded_bytes + s.downloaded_bytes :=
          (UInt64.sub_add_cancel _ _).symm
        _ = 0 + s.downloaded_bytes := by rw [hzero]
        _ = s.downloaded_bytes := UInt64.zero_add _
    rw [← heq, size_toNat] at hlt
    exact Nat.lt_irrefl _ hlt

theorem bytes_to_write_of_zero (body : Contents) (s : DownloadState) :
    bytes_to_write body 0 s = 0 := by
  unfold bytes_to_write
  split_ifs with hlt
  · rfl
  · apply UInt64.toNat_inj.mp
    rw [UInt64.lt_iff_toNat_lt] at hlt
    have hzero : (0 : UInt64).toNat = 0 := rfl
    omega

/-- Without a piece the turn only looks whether the end is reached. -/
theorem turn_of_empty (hempty : bytes_to_write body b s = 0)
    (htell : s.tellp = s.downloaded_bytes.toNat) :
    turn body b s = some { s with
      completed := s.completed || decide (body.bytes.length ≤ s.downloaded_bytes.toNat) } := by
  have hwrite :
      write ((body.bytes.drop s.downloaded_bytes.toNat).take (0 : UInt64).toNat) s = s := by
    rw [write, UInt64.toNat_zero, List.take_zero]
    rfl
  have hposition : s.downloaded_bytes + (UInt64.ofNat s.tellp - s.downloaded_bytes) =
      s.downloaded_bytes := by
    calc
      _ = s.downloaded_bytes + (s.downloaded_bytes - s.downloaded_bytes) := by
        rw [htell, UInt64.ofNat_toNat]
      _ = s.downloaded_bytes := by rw [UInt64.sub_self, UInt64.add_zero]
  unfold turn
  simp only [hempty, ne_eq, not_true_eq_false, false_and, ↓reduceIte, hwrite, hposition,
    UInt64.le_iff_toNat_le, size_toNat]

/-- A piece goes to the end of the file, and the position there is the new count. -/
theorem turn_of_piece {n : ℕ} (hle : s.downloaded_bytes.toNat ≤ body.bytes.length)
    (hn : min b.toNat (body.bytes.length - s.downloaded_bytes.toNat) = n) (hpos : 0 < n)
    (hlt : s.file.length + n < UInt64.size) :
    turn body b s = some {
      downloaded_bytes := UInt64.ofNat (s.file.length + n)
      completed := s.completed || decide (body.bytes.length ≤ s.file.length + n)
      paused := s.paused
      file := s.file ++ (body.bytes.drop s.downloaded_bytes.toNat).take n
      tellp := s.file.length + n } := by
  have hpiece : (bytes_to_write body b s).toNat = n := (bytes_to_write_toNat hle).trans hn
  have hinside : ¬ body.bytes.length < s.downloaded_bytes.toNat + n := by omega
  have hlength : ((body.bytes.drop s.downloaded_bytes.toNat).take n).length = n := by
    rw [List.length_take, List.length_drop]
    omega
  have hwrite : write ((body.bytes.drop s.downloaded_bytes.toNat).take n) s = { s with
      file := s.file ++ (body.bytes.drop s.downloaded_bytes.toNat).take n
      tellp := s.file.length + n } := by
    have hne : ((body.bytes.drop s.downloaded_bytes.toNat).take n).isEmpty = false := by
      rw [List.isEmpty_eq_false_iff]
      intro hnil
      rw [hnil] at hlength
      exact Nat.ne_of_lt hpos hlength
    rw [write, hne, List.length_append, hlength]
    rfl
  -- the bytes written are counted from where the count was, so the count is the position
  have hposition : ∀ a t : UInt64, a + (t - a) = t := by
    intro a t
    rw [UInt64.add_comm, UInt64.sub_add_cancel]
  unfold turn
  simp only [hpiece, hinside, and_false, ↓reduceIte, hwrite, hposition, UInt64.le_iff_toNat_le,
    size_toNat, UInt64.toNat_ofNat_of_lt' hlt]

/-- Behind the end of the body there is nothing to read. -/
theorem turn_of_behind (hlt : body.bytes.length < s.downloaded_bytes.toNat) (hb : b ≠ 0) :
    turn body b s = none := by
  have hne := bytes_to_write_ne_zero hlt hb
  unfold turn
  exact if_pos ⟨hne, by omega⟩

/-! ### The loop -/

variable {d : Download} {scaled : UInt64 → ℕ → UInt64}

theorem continues_iff : d.continues s = true ↔
    d.body.bytes ≠ [] ∧ s.completed = false ∧ s.paused = false := by
  simp only [continues, Bool.and_eq_true, Bool.not_eq_true', List.isEmpty_eq_false_iff, and_assoc]

theorem completed_of_not_continues (hbody : d.body.bytes ≠ []) (hpaused : s.paused = false)
    (hfalse : d.continues s = false) : s.completed = true := by
  apply Bool.not_eq_false _ |>.mp
  intro hcompleted
  rw [continues_iff.mpr ⟨hbody, hcompleted, hpaused⟩] at hfalse
  cases hfalse

/-- After a piece was written, the count is the length of the file, and the task is completed once
that is the one of the body. -/
structure Written (d : Download) (s : DownloadState) : Prop where
  paused : s.paused = false
  tellp : s.tellp = s.downloaded_bytes.toNat
  length : s.file.length = s.downloaded_bytes.toNat
  completed : s.completed = decide (d.body.bytes.length ≤ s.downloaded_bytes.toNat)

/-- A piece of the body, if there is something left and room in the buffer. -/
theorem exists_turn_of_lt (hlt : s.downloaded_bytes.toNat < d.body.bytes.length) (hb : b ≠ 0)
    (hfile : s.file.length < 2 ^ 63) (hpaused : s.paused = false)
    (hcompleted : s.completed = false) :
    ∃ t, turn d.body b s = some t ∧ Written d t ∧
      t.file = s.file ++ (d.body.bytes.drop s.downloaded_bytes.toNat).take b.toNat ∧
      s.file.length < t.downloaded_bytes.toNat := by
  have hbody := d.body.length_lt
  have hbpos : 0 < b.toNat := by
    apply Nat.pos_of_ne_zero
    intro hzero
    exact hb (UInt64.toNat_inj.mp hzero)
  obtain ⟨n, hn⟩ : ∃ n, min b.toNat (d.body.bytes.length - s.downloaded_bytes.toNat) = n :=
    ⟨_, rfl⟩
  have hpos : 0 < n := by omega
  -- each of the lengths is below 2^63, so the new one does not wrap around
  have hsum : s.file.length + n < UInt64.size := by
    have hsize : UInt64.size = 2 ^ 64 := rfl
    omega
  have hcut : (d.body.bytes.drop s.downloaded_bytes.toNat).take n =
      (d.body.bytes.drop s.downloaded_bytes.toNat).take b.toNat := by
    rw [List.take_eq_take_iff, List.length_drop]
    omega
  have hcount : (UInt64.ofNat (s.file.length + n)).toNat = s.file.length + n :=
    UInt64.toNat_ofNat_of_lt' hsum
  refine ⟨_, turn_of_piece (Nat.le_of_lt hlt) hn hpos hsum, ⟨hpaused, hcount.symm, ?_, ?_⟩, ?_, ?_⟩
  · dsimp only
    rw [hcount, List.length_append, List.length_take, List.length_drop]
    omega
  · dsimp only
    rw [hcount, hcompleted, Bool.false_or]
  · dsimp only
    rw [hcut]
  · dsimp only
    rw [hcount]
    omega

theorem Written.exists_turn (hs : Written d s) (hb : b ≠ 0) (htest : d.continues s = true) :
    ∃ t, turn d.body b s = some t ∧ Written d t ∧
      t.file = s.file ++ (d.body.bytes.drop s.file.length).take b.toNat ∧
      s.downloaded_bytes.toNat < t.downloaded_bytes.toNat ∧
      s.downloaded_bytes.toNat < d.body.bytes.length := by
  obtain ⟨-, hcompleted, hpaused⟩ := continues_iff.mp htest
  have hlt : s.downloaded_bytes.toNat < d.body.bytes.length := by
    have hdone := hs.completed
    rw [hcompleted, eq_comm, decide_eq_false_iff_not] at hdone
    omega
  have hfile : s.file.length < 2 ^ 63 := by
    rw [hs.length]
    exact Nat.lt_trans hlt d.body.length_lt
  obtain ⟨t, ht, hwritten, hpiece, hmore⟩ := exists_turn_of_lt hlt hb hfile hpaused hcompleted
  rw [← hs.length] at hpiece
  rw [hs.length] at hmore
  exact ⟨t, ht, hwritten, hpiece, hmore, hlt⟩

/-- What is left gets less with each piece. -/
theorem Written.exists_ends (hs : Written d s) (hb : b ≠ 0) :
    ∃ t, Ends d.continues (turn d.body b) s (some t) ∧ Written d t ∧ d.continues t = false := by
  refine exists_ends_of_variant (fun s => d.body.bytes.length - s.downloaded_bytes.toNat) ?_ hs
  intro s hs htest
  obtain ⟨t, ht, hwritten, -, hmore, hlt⟩ := hs.exists_turn hb htest
  exact ⟨t, ht, hwritten, by omega⟩

/-- A file that starts like the body is the body in the end. -/
theorem Written.file_of_prefix (hs : Written d s) (hb : b ≠ 0) (hbody : d.body.bytes ≠ [])
    (hfile : s.file <+: d.body.bytes) {o : Option DownloadState}
    (hends : Ends d.continues (turn d.body b) s o) :
    ∃ t, o = some t ∧ t.file = d.body.bytes := by
  have hstep : ∀ s, (Written d s ∧ s.file <+: d.body.bytes) → d.continues s = true →
      ∃ t, turn d.body b s = some t ∧ Written d t ∧ t.file <+: d.body.bytes := by
    rintro s ⟨hs, hfile⟩ htest
    obtain ⟨t, ht, hwritten, hpiece, -, -⟩ := hs.exists_turn hb htest
    refine ⟨t, ht, hwritten, ?_⟩
    obtain ⟨rest, hrest⟩ := hfile
    rw [hpiece, ← hrest, List.drop_left, List.prefix_append_right_inj]
    exact List.take_prefix _ _
  obtain ⟨t, rfl, ⟨hwritten, hstart⟩, hfalse⟩ :=
    hends.invariant (I := fun s => Written d s ∧ s.file <+: d.body.bytes) ⟨hs, hfile⟩ hstep
  refine ⟨t, rfl, hstart.eq_of_length_le ?_⟩
  have hdone := hwritten.completed
  rw [completed_of_not_continues hbody hwritten.paused hfalse, eq_comm, decide_eq_true_iff] at hdone
  rw [hwritten.length]
  exact hdone

/-- What is in the file stays there. -/
theorem Written.prefix_of_ends (hs : Written d s) (hb : b ≠ 0) {o : Option DownloadState}
    (hends : Ends d.continues (turn d.body b) s o) : ∃ t, o = some t ∧ s.file <+: t.file := by
  have hstep : ∀ u, (Written d u ∧ s.file <+: u.file) → d.continues u = true →
      ∃ t, turn d.body b u = some t ∧ Written d t ∧ s.file <+: t.file := by
    rintro u ⟨hu, hprefix⟩ htest
    obtain ⟨t, ht, hwritten, hpiece, -, -⟩ := hu.exists_turn hb htest
    refine ⟨t, ht, hwritten, ?_⟩
    rw [hpiece]
    exact hprefix.trans (List.prefix_append _ _)
  obtain ⟨t, ht, ⟨-, hprefix⟩, -⟩ := hends.invariant
    (I := fun u => Written d u ∧ s.file <+: u.file) ⟨hs, List.prefix_rfl⟩ hstep
  exact ⟨t, ht, hprefix⟩

/-! ### From the start -/

theorem continues_start (h : ¬ d.Idle) : d.continues d.start = true := by
  rw [Idle, not_or, not_or, Bool.not_eq_true, Bool.not_eq_true] at h
  exact continues_iff.mpr ⟨h.1, h.2.2, h.2.1⟩

theorem not_continues_start (h : d.Idle) : d.continues d.start = false := by
  apply Bool.not_eq_true _ |>.mp
  intro htest
  obtain ⟨hbody, hcompleted, hpaused⟩ := continues_iff.mp htest
  have hcompleted : d.completed = false := hcompleted
  have hpaused : d.paused = false := hpaused
  rcases h with hnil | htrue | htrue
  · exact hbody hnil
  · exact Bool.noConfusion (hpaused.symm.trans htrue)
  · exact Bool.noConfusion (hcompleted.symm.trans htrue)

/-- At the end of the body, or behind it with an empty buffer, the task is completed as it is. -/
theorem endsIn_of_end (htest : d.continues d.start = true)
    (hend : d.AtEnd scaled) (o : Option DownloadState) :
    d.EndsIn scaled o ↔ o = some { d.start with completed := true } := by
  have hempty : bytes_to_write d.body (d.buffer_size scaled) d.start = 0 := by
    rcases hend with heq | ⟨-, hzero⟩
    · have hle : d.start.downloaded_bytes.toNat ≤ d.body.bytes.length := Nat.le_of_eq heq
      apply UInt64.toNat_inj.mp
      rw [bytes_to_write_toNat hle]
      have hnone : d.body.bytes.length - d.start.downloaded_bytes.toNat = 0 :=
        Nat.sub_eq_zero_of_le (Nat.le_of_eq heq.symm)
      rw [hnone, Nat.min_zero]
      rfl
    · rw [hzero, bytes_to_write_of_zero]
  have hreached : d.body.bytes.length ≤ d.start.downloaded_bytes.toNat := by
    rcases hend with heq | ⟨hlt, -⟩
    · exact Nat.le_of_eq heq.symm
    · exact Nat.le_of_lt hlt
  have hturn : turn d.body (d.buffer_size scaled) d.start =
      some { d.start with completed := true } := by
    rw [turn_of_empty hempty rfl, decide_eq_true hreached, Bool.or_true]
  have hdone : d.continues { d.start with completed := true } = false := by
    simp only [continues, Bool.not_true, Bool.and_false, Bool.false_and]
  rw [EndsIn, ends_iff_of_some htest hturn, ends_iff_of_false hdone]

/-- Behind the end of the body with room in the buffer, the first read is one behind the body. -/
theorem endsIn_of_behind (htest : d.continues d.start = true)
    (hlt : d.body.bytes.length < d.downloaded_bytes.toNat) (hb : d.buffer_size scaled ≠ 0)
    (o : Option DownloadState) : d.EndsIn scaled o ↔ o = none :=
  ends_iff_of_none htest (turn_of_behind hlt hb)

/-- With an empty buffer and something left, nothing ever changes. -/
theorem not_endsIn_of_zero (htest : d.continues d.start = true)
    (hlt : d.downloaded_bytes.toNat < d.body.bytes.length) (hb : d.buffer_size scaled = 0)
    (o : Option DownloadState) : ¬ d.EndsIn scaled o := by
  apply not_ends_of_fixed htest
  have hempty : bytes_to_write d.body (d.buffer_size scaled) d.start = 0 := by
    rw [hb, bytes_to_write_of_zero]
  have hleft : ¬ d.body.bytes.length ≤ d.start.downloaded_bytes.toNat := Nat.not_le_of_lt hlt
  rw [turn_of_empty hempty rfl, decide_eq_false hleft, Bool.or_false]

/-- Otherwise the first piece goes to the end of the old file, and the loop goes on from there. -/
theorem exists_written (htest : d.continues d.start = true)
    (hlt : d.downloaded_bytes.toNat < d.body.bytes.length) (hb : d.buffer_size scaled ≠ 0) :
    ∃ t, Written d t ∧ (∀ o, d.EndsIn scaled o ↔
        Ends d.continues (turn d.body (d.buffer_size scaled)) t o) ∧
      t.file = d.old.bytes ++
        (d.body.bytes.drop d.downloaded_bytes.toNat).take (d.buffer_size scaled).toNat := by
  obtain ⟨-, hcompleted, hpaused⟩ := continues_iff.mp htest
  obtain ⟨t, ht, hwritten, hfile, -⟩ :=
    exists_turn_of_lt (s := d.start) hlt hb d.old.length_lt hpaused hcompleted
  exact ⟨t, hwritten, fun o => ends_iff_of_some htest ht, hfile⟩

/-- The four ways the loop goes when there is something to do. -/
theorem start_cases (scaled : UInt64 → ℕ → UInt64) (d : Download) :
    d.AtEnd scaled ∨
      (d.body.bytes.length < d.downloaded_bytes.toNat ∧ d.buffer_size scaled ≠ 0) ∨
      (d.downloaded_bytes.toNat < d.body.bytes.length ∧ d.buffer_size scaled = 0) ∨
      d.downloaded_bytes.toNat < d.body.bytes.length ∧ d.buffer_size scaled ≠ 0 := by
  rcases Nat.lt_trichotomy d.downloaded_bytes.toNat d.body.bytes.length with hlt | heq | hlt
  · by_cases hb : d.buffer_size scaled = 0
    · exact Or.inr (Or.inr (Or.inl ⟨hlt, hb⟩))
    · exact Or.inr (Or.inr (Or.inr ⟨hlt, hb⟩))
  · exact Or.inl (Or.inl heq)
  · by_cases hb : d.buffer_size scaled = 0
    · exact Or.inl (Or.inr ⟨hlt, hb⟩)
    · exact Or.inr (Or.inl ⟨hlt, hb⟩)

theorem not_atEnd_of_lt (hlt : d.downloaded_bytes.toNat < d.body.bytes.length) :
    ¬ d.AtEnd scaled := by
  rintro (heq | ⟨hgt, -⟩)
  · omega
  · omega

theorem not_atEnd_of_behind (hlt : d.body.bytes.length < d.downloaded_bytes.toNat)
    (hb : d.buffer_size scaled ≠ 0) : ¬ d.AtEnd scaled := by
  rintro (heq | ⟨-, hzero⟩)
  · omega
  · exact hb hzero

/-- The loop ends, with the task completed if it should be, exactly when there is nothing to do, the
end is reached without a piece, or something is left and the first piece is not empty. -/
theorem terminates_iff (scaled : UInt64 → ℕ → UInt64) (d : Download) :
    d.Terminates scaled ↔ d.Progresses scaled := by
  by_cases hidle : d.Idle
  · apply iff_of_true _ (Or.inl hidle)
    refine ⟨d.start, Ends.exit (not_continues_start hidle), fun hpaused hbody => ?_⟩
    exact completed_of_not_continues hbody hpaused (not_continues_start hidle)
  have htest := continues_start hidle
  rcases start_cases scaled d with hend | ⟨hlt, hb⟩ | ⟨hlt, hb⟩ | ⟨hlt, hb⟩
  · apply iff_of_true _ (Or.inr (Or.inl hend))
    exact ⟨_, (endsIn_of_end htest hend _).mpr rfl, fun _ _ => rfl⟩
  · -- the first read is one behind the body
    apply iff_of_false
    · rintro ⟨s, hs, -⟩
      cases (endsIn_of_behind htest hlt hb _).mp hs
    · rintro (h | h | ⟨h, -⟩)
      · exact hidle h
      · exact not_atEnd_of_behind hlt hb h
      · omega
  · -- an empty buffer gets nowhere
    apply iff_of_false
    · rintro ⟨s, hs, -⟩
      exact not_endsIn_of_zero htest hlt hb _ hs
    · rintro (h | h | ⟨-, h⟩)
      · exact hidle h
      · exact not_atEnd_of_lt hlt h
      · exact h hb
  · apply iff_of_true _ (Or.inr (Or.inr ⟨hlt, hb⟩))
    obtain ⟨t, hwritten, hends, -⟩ := exists_written htest hlt hb
    obtain ⟨s, hs, hswritten, hfalse⟩ := hwritten.exists_ends hb
    refine ⟨s, (hends _).mpr hs, fun _ hbody => ?_⟩
    exact completed_of_not_continues hbody hswritten.paused hfalse

/-- A body of one byte with a limit of one byte a second, asked for in the first millisecond. -/
def firstMillisecond : Download where
  body := ⟨[65], by decide⟩
  old := ⟨[], by decide⟩
  downloaded_bytes := 0
  completed := false
  paused := false
  download_speed := 1
  elapsed_ms := 0

/-- Nothing may be downloaded yet, so the loop goes round for ever. -/
theorem not_terminates_firstMillisecond :
    ¬ firstMillisecond.Terminates fun speed ms => UInt64.ofNat (speed.toNat * ms / 1000) := by
  rintro ⟨s, hs, -⟩
  exact not_ends_of_fixed (by decide) (by rfl) _ hs

/-- At the end of the body the file stays as it is. -/
theorem writesBody_of_end_iff (htest : d.continues d.start = true) (hend : d.AtEnd scaled) :
    d.WritesBody scaled ↔ d.old.bytes = d.body.bytes := by
  obtain ⟨-, hcompleted, -⟩ := continues_iff.mp htest
  have hends := endsIn_of_end htest hend
  constructor
  · rintro ⟨-, hright⟩
    exact hright _ ((hends _).mpr rfl) hcompleted rfl
  · intro hsame
    refine ⟨fun hnone => ?_, fun s hs _ _ => ?_⟩
    · cases (hends _).mp hnone
    · obtain rfl := Option.some.inj ((hends _).mp hs)
      exact hsame

/-- With something left and room in the buffer, it is the first piece that decides: what it leaves
in the file is still there in the end, and the other pieces go on from where it ends. -/
theorem writesBody_of_piece_iff (htest : d.continues d.start = true)
    (hlt : d.downloaded_bytes.toNat < d.body.bytes.length) (hb : d.buffer_size scaled ≠ 0) :
    d.WritesBody scaled ↔ d.old.bytes ++ (d.body.bytes.drop d.downloaded_bytes.toNat).take
      (d.buffer_size scaled).toNat <+: d.body.bytes := by
  obtain ⟨hbody, hcompleted, -⟩ := continues_iff.mp htest
  obtain ⟨t, hwritten, hends, hfile⟩ := exists_written htest hlt hb
  rw [← hfile]
  constructor
  · rintro ⟨-, hright⟩
    obtain ⟨s, hs, hswritten, hfalse⟩ := hwritten.exists_ends hb
    have hdone := completed_of_not_continues hbody hswritten.paused hfalse
    have hsame : s.file = d.body.bytes := hright s ((hends _).mpr hs) hcompleted hdone
    obtain ⟨s', hs', hkept⟩ := hwritten.prefix_of_ends hb hs
    obtain rfl := Option.some.inj hs'
    rw [hsame] at hkept
    exact hkept
  · intro hstart
    refine ⟨fun hnone => ?_, fun s hs _ _ => ?_⟩
    · obtain ⟨s, hs, -⟩ := hwritten.file_of_prefix hb hbody hstart ((hends _).mp hnone)
      cases hs
    · obtain ⟨s', hs', hsame⟩ := hwritten.file_of_prefix hb hbody hstart ((hends _).mp hs)
      obtain rfl := Option.some.inj hs'
      exact hsame

/-- Where the loop completes the task, the file is the body, exactly when the old file with the
first piece after it starts like the body, or nothing is to be added to an old file that is it. -/
theorem writesBody_iff (scaled : UInt64 → ℕ → UInt64) (d : Download) :
    d.WritesBody scaled ↔ d.Resumes scaled := by
  by_cases hidle : d.Idle
  · apply iff_of_true _ (Or.inl hidle)
    have hstart := not_continues_start hidle
    have hends : ∀ o, d.EndsIn scaled o ↔ o = some d.start := fun o => ends_iff_of_false hstart
    refine ⟨fun hnone => ?_, fun s hs hcompleted hdone => ?_⟩
    · cases (hends _).mp hnone
    · obtain rfl := Option.some.inj ((hends _).mp hs)
      exact Bool.noConfusion (hcompleted.symm.trans hdone)
  have htest := continues_start hidle
  rcases start_cases scaled d with hend | ⟨hlt, hb⟩ | ⟨hlt, hb⟩ | ⟨hlt, hb⟩
  · rw [writesBody_of_end_iff htest hend]
    constructor
    · intro hsame
      exact Or.inr (Or.inl ⟨hend, hsame⟩)
    · rintro (h | ⟨-, hsame⟩ | ⟨hlt, -⟩)
      · exact absurd h hidle
      · exact hsame
      · exact absurd hend (not_atEnd_of_lt hlt)
  · apply iff_of_false
    · rintro ⟨hnone, -⟩
      exact hnone ((endsIn_of_behind htest hlt hb _).mpr rfl)
    · rintro (h | ⟨h, -⟩ | ⟨h, -⟩)
      · exact hidle h
      · exact not_atEnd_of_behind hlt hb h
      · omega
  · -- what never ends completes nothing
    apply iff_of_true _ (Or.inr (Or.inr ⟨hlt, Or.inl hb⟩))
    refine ⟨not_endsIn_of_zero htest hlt hb _, fun s hs _ _ => ?_⟩
    exact absurd hs (not_endsIn_of_zero htest hlt hb _)
  · rw [writesBody_of_piece_iff htest hlt hb]
    constructor
    · intro hstart
      exact Or.inr (Or.inr ⟨hlt, Or.inr hstart⟩)
    · rintro (h | ⟨h, -⟩ | ⟨-, hzero | hstart⟩)
      · exact absurd h hidle
      · exact absurd h (not_atEnd_of_lt hlt)
      · exact absurd hzero hb
      · exact hstart

/-- A part of the body that was downloaded before is such a start. -/
theorem resumes_of_partial (hlt : d.downloaded_bytes.toNat < d.body.bytes.length)
    (hold : d.old.bytes = d.body.bytes.take d.downloaded_bytes.toNat) : d.Resumes scaled := by
  refine Or.inr (Or.inr ⟨hlt, Or.inr ?_⟩)
  rw [hold, ← List.take_add]
  exact List.take_prefix _ _

/-- A body of one byte for a file that has one already, and a task that knows nothing of it. -/
def oldByte : Download where
  body := ⟨[65], by decide⟩
  old := ⟨[66], by decide⟩
  downloaded_bytes := 0
  completed := false
  paused := false
  download_speed := 0
  elapsed_ms := 0

/-- The body comes after the old byte. -/
theorem not_writesBody_oldByte : ¬ oldByte.WritesBody fun _ _ => 0 := by
  rintro ⟨-, hright⟩
  have hends : oldByte.EndsIn (fun _ _ => 0) (some ⟨2, true, false, [66, 65], 2⟩) :=
    Ends.turn (by decide) (by rfl) (Ends.exit (by decide))
  have hfile := hright _ hends rfl rfl
  revert hfile
  decide

end Download

end OpenAPT
