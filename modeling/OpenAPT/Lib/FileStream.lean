import Mathlib.Data.Int.Basic
import Mathlib.Data.List.Basic
import Mathlib.Tactic.Common
import OpenAPT.Lib.Blocks

/-! A stream on a file: one position for reading and writing, and the state bits that decide whether
an operation does anything. Opening does not close the file that is open, and only a successful one
resets the bits. -/
namespace FileStream

structure OpenFile (α : Type*) where
  content : List α
  pos : ℕ
  deriving DecidableEq

structure Stream (α : Type*) where
  file : Option (OpenFile α)
  eofbit : Bool
  failbit : Bool
  deriving DecidableEq

namespace Stream

variable {α : Type*}

/-- A stream that has just opened a file. -/
def ofContent (content : List α) : Stream α := ⟨some ⟨content, 0⟩, false, false⟩

def isOpen (f : Stream α) : Bool := f.file.isSome

def good (f : Stream α) : Bool := !f.eofbit && !f.failbit

/-- `open`, where `content` is what is in the file if it can be opened. -/
def openFile (f : Stream α) (content : Option (List α)) : Stream α :=
  match f.file, content with
  | none, some content => ofContent content
  | none, none => { f with failbit := true }
  | some _, _ => { f with failbit := true }

/-- `read`: the elements that were read. A stream that is not good only fails, and one that reads
less than it should is at its end. -/
def read (size : ℕ) (f : Stream α) : List α × Stream α :=
  match f.good, f.file with
  | true, some o =>
    let data := (o.content.drop o.pos).take size
    let short := decide (data.length < size)
    (data, ⟨some { o with pos := o.pos + data.length }, short, short⟩)
  | _, _ => ([], { f with failbit := true })

/-- What is read through the buffer of the stream does not look at the bits, or set them. -/
def drain (f : Stream α) : List α × Stream α :=
  match f.file with
  | some o => (o.content.drop o.pos, { f with file := some { o with pos := o.content.length } })
  | none => ([], f)

/-- Formatted output of a text overwrites what is at the position. -/
def write (xs : List α) (f : Stream α) : Stream α :=
  match f.good, f.file with
  | true, some o =>
    let content := o.content.take o.pos ++ xs ++ o.content.drop (o.pos + xs.length)
    { f with file := some ⟨content, o.pos + xs.length⟩ }
  | _, _ => { f with failbit := true }

/-- `seekg` to a position that is found from the content. It resets the end of file first. -/
def seekg (target : List α → ℕ) (f : Stream α) : Stream α :=
  if f.failbit then { f with eofbit := false }
  else { f with eofbit := false, file := f.file.map fun o => { o with pos := target o.content } }

/-- `tellg`, with `-1` for a stream that is not good. -/
def tellg (f : Stream α) : ℤ × Stream α :=
  match f.good, f.file with
  | true, some o => (o.pos, f)
  | _, _ => (-1, { f with failbit := true })

theorem openFile_of_isOpen {f : Stream α} (h : f.isOpen = true) (content : Option (List α)) :
    f.openFile content = { f with failbit := true } := by
  obtain ⟨o, ho⟩ := Option.isSome_iff_exists.mp h
  unfold openFile
  rw [ho]

theorem openFile_none (f : Stream α) : f.openFile none = { f with failbit := true } := by
  unfold openFile
  cases f.file with
  | none => rfl
  | some o => rfl

theorem openFile_of_closed {f : Stream α} (h : f.isOpen = false) (content : List α) :
    f.openFile (some content) = ofContent content := by
  have hfile : f.file = none := Option.isNone_iff_eq_none.mp (by simpa [isOpen] using h)
  unfold openFile
  rw [hfile]

/-- Nothing that only reads or seeks changes the content. -/
theorem drain_content (f : Stream α) :
    f.drain.2.file.map OpenFile.content = f.file.map OpenFile.content := by
  unfold drain
  split
  next o hfile =>
    rw [hfile]
    rfl
  next => rfl

theorem drain_failbit (f : Stream α) : f.drain.2.failbit = f.failbit := by
  unfold drain
  split
  next => rfl
  next => rfl

theorem seekg_content (target : List α → ℕ) (f : Stream α) :
    (f.seekg target).file.map OpenFile.content = f.file.map OpenFile.content := by
  unfold seekg
  split_ifs
  · rfl
  · rw [Option.map_map]
    rfl

theorem seekg_failbit (target : List α → ℕ) (f : Stream α) :
    (f.seekg target).failbit = f.failbit := by
  unfold seekg
  split_ifs
  · rfl
  · rfl

theorem tellg_content (f : Stream α) :
    f.tellg.2.file.map OpenFile.content = f.file.map OpenFile.content := by
  unfold tellg
  split
  next => rfl
  next => rfl

theorem good_of_failbit {f : Stream α} (h : f.failbit = true) : f.good = false := by
  rw [good, h, Bool.not_true, Bool.and_false]

theorem tellg_failbit {f : Stream α} (h : f.failbit = true) : f.tellg.2.failbit = true := by
  unfold tellg
  rw [good_of_failbit h]

/-- What is left to read. -/
def left (f : Stream α) : List α :=
  match f.good, f.file with
  | true, some o => o.content.drop o.pos
  | _, _ => []

theorem read_fst (size : ℕ) (f : Stream α) : (f.read size).1 = f.left.take size := by
  unfold read left
  split
  · rfl
  · exact List.take_nil.symm

/-- A read fails exactly if there is less than asked for. -/
theorem read_failbit (size : ℕ) (hsize : 0 < size) (f : Stream α) :
    (f.read size).2.failbit = decide (f.left.length < size) := by
  unfold read left
  split
  · simp only [List.length_take]
    congr 1
    rw [eq_iff_iff]
    omega
  · exact (decide_eq_true hsize).symm

/-- Where something is left to read the stream is good and has a file. -/
theorem exists_file_of_left {f : Stream α} (h : f.left ≠ []) :
    f.good = true ∧ ∃ o, f.file = some o ∧ f.left = o.content.drop o.pos := by
  unfold left at *
  split at h
  next hgood hfile => exact ⟨hgood, _, hfile, rfl⟩
  next => exact absurd rfl h

theorem left_of_failbit {f : Stream α} (h : f.failbit = true) : f.left = [] := by
  unfold left
  rw [good_of_failbit h]

theorem left_of_good {f : Stream α} {o : OpenFile α} (h : f.good = true)
    (hfile : f.file = some o) : f.left = o.content.drop o.pos := by
  unfold left
  rw [h, hfile]

theorem read_of_good {f : Stream α} {o : OpenFile α} (h : f.good = true) (hfile : f.file = some o)
    (size : ℕ) : (f.read size).2 =
      ⟨some { o with pos := o.pos + ((o.content.drop o.pos).take size).length },
        decide (((o.content.drop o.pos).take size).length < size),
        decide (((o.content.drop o.pos).take size).length < size)⟩ := by
  unfold read
  rw [h, hfile]

/-- A read that does not fail leaves the rest. -/
theorem read_left {size : ℕ} (hsize : 0 < size) {f : Stream α}
    (h : (f.read size).2.failbit = false) : (f.read size).2.left = f.left.drop size := by
  have henough : size ≤ f.left.length := by
    rw [read_failbit size hsize, decide_eq_false_iff_not] at h
    omega
  have hsome : f.left ≠ [] := List.ne_nil_of_length_pos (by omega)
  obtain ⟨hgood, o, hfile, hleft⟩ := exists_file_of_left hsome
  have hlength : ((o.content.drop o.pos).take size).length = size := by
    rw [List.length_take, ← hleft]
    omega
  rw [read_of_good hgood hfile, hlength, hleft, List.drop_drop]
  unfold left good
  simp only [Nat.lt_irrefl, decide_false, Bool.not_false, Bool.and_self]

/-- One turn leaves less to read. -/
theorem left_lt_of_read {size : ℕ} (hsize : 0 < size) {f : Stream α}
    (h : ¬ (f.read size).2.failbit = true) : (f.read size).2.left.length < f.left.length := by
  have hleft := read_left hsize (Bool.eq_false_iff.mpr h)
  rw [read_failbit size hsize, decide_eq_true_eq] at h
  rw [hleft, List.length_drop]
  omega

/-- `while (file.read(buffer, size)) use(buffer)`: what was used, what the last read left in the
buffer, and the stream. -/
def readBlocks (size : ℕ) (hsize : 0 < size) (f : Stream α) : List α × List α × Stream α :=
  if _hread : (f.read size).2.failbit then ([], f.read size)
  else
    let rest := readBlocks size hsize (f.read size).2
    ((f.read size).1 ++ rest.1, rest.2)
termination_by f.left.length
decreasing_by
  exact left_lt_of_read hsize _hread

/-- One turn takes a block off what is left. -/
theorem left_eq_of_read {size : ℕ} (hsize : 0 < size) {f : Stream α}
    (h : ¬ (f.read size).2.failbit = true) : (f.read size).1.length = size ∧
      f.left = (f.read size).1 ++ (f.read size).2.left := by
  have hleft := read_left hsize (Bool.eq_false_iff.mpr h)
  rw [read_failbit size hsize, decide_eq_true_eq] at h
  rw [read_fst, hleft, List.length_take]
  exact ⟨by omega, (List.take_append_drop size f.left).symm⟩

variable {size : ℕ} (hsize : 0 < size) (f : Stream α)

/-- The loop uses the whole blocks of what is left. -/
theorem readBlocks_fst : (f.readBlocks size hsize).1 = Blocks.whole size f.left := by
  fun_induction readBlocks size hsize f with
  | case1 f h =>
    rw [read_failbit size hsize, decide_eq_true_eq] at h
    exact (Blocks.whole_of_lt h).symm
  | case2 f h rest ih =>
    obtain ⟨hlength, hleft⟩ := left_eq_of_read hsize h
    rw [hleft, Blocks.whole_block_append hsize hlength]
    exact congrArg ((f.read size).1 ++ ·) ih

/-- The last read gets the rest. -/
theorem readBlocks_last : (f.readBlocks size hsize).2.1 = Blocks.tail size f.left := by
  fun_induction readBlocks size hsize f with
  | case1 f h =>
    rw [read_failbit size hsize, decide_eq_true_eq] at h
    rw [Blocks.tail_of_lt h, read_fst, List.take_of_length_le (Nat.le_of_lt h)]
  | case2 f h rest ih =>
    obtain ⟨hlength, hleft⟩ := left_eq_of_read hsize h
    rw [hleft, Blocks.tail_block_append hsize hlength]
    exact ih

/-- After the loop the stream is failed. -/
theorem readBlocks_failbit : (f.readBlocks size hsize).2.2.failbit = true := by
  fun_induction readBlocks size hsize f with
  | case1 f h => exact h
  | case2 f h rest ih => exact ih

theorem read_content (size : ℕ) (f : Stream α) :
    (f.read size).2.file.map OpenFile.content = f.file.map OpenFile.content := by
  unfold read
  split
  next o hgood hfile =>
    rw [hfile]
    rfl
  next => rfl

/-- The content of the file is as it was. -/
theorem readBlocks_content : (f.readBlocks size hsize).2.2.file.map OpenFile.content =
    f.file.map OpenFile.content := by
  fun_induction readBlocks size hsize f with
  | case1 f h => exact read_content size f
  | case2 f h rest ih => exact ih.trans (read_content size f)

/-! ### Blocks that are used one by one -/

variable {σ : Type*} (use : σ → List α → σ)

/-- `while (file.read(buffer, size)) use(buffer)` with what the uses make of a state. -/
def foldBlocks (size : ℕ) (hsize : 0 < size) (s : σ) (f : Stream α) : σ × List α × Stream α :=
  if _hread : (f.read size).2.failbit then (s, f.read size)
  else foldBlocks size hsize (use s (f.read size).1) (f.read size).2
termination_by f.left.length
decreasing_by
  exact left_lt_of_read hsize _hread

/-- What is used are blocks that make up what `readBlocks` collects. -/
theorem exists_blocks_of_foldBlocks (s : σ) : ∃ blocks : List (List α),
    foldBlocks use size hsize s f = (blocks.foldl use s, (f.readBlocks size hsize).2) ∧
      blocks.flatten = (f.readBlocks size hsize).1 := by
  induction s, f using foldBlocks.induct use size hsize with
  | case1 s f hread =>
    refine ⟨[], ?_, ?_⟩
    · rw [foldBlocks, readBlocks, dif_pos hread, dif_pos hread, List.foldl_nil]
    · rw [readBlocks, dif_pos hread, List.flatten_nil]
  | case2 s f hread ih =>
    obtain ⟨blocks, hfold, hflatten⟩ := ih
    refine ⟨(f.read size).1 :: blocks, ?_, ?_⟩
    · rw [foldBlocks, readBlocks, dif_neg hread, dif_neg hread, hfold, List.foldl_cons]
    · rw [readBlocks, dif_neg hread, List.flatten_cons, hflatten]

end Stream

end FileStream
