import OpenAPT.Bytes
import OpenAPT.Lib.FileStream

/-! `FileManager`, a name and a stream. `openFile` keeps the name it is given whatever comes of it,
and opens the stream without closing it first. -/
namespace OpenAPT

open FileStream

structure FileManager where
  m_file : Stream UInt8
  m_filename : Bytes
  deriving DecidableEq

/-- What there is under a name: nothing, something that cannot be opened for reading and writing,
or a file with its content. -/
inductive FileEntry
  | missing
  | locked
  | content (data : Bytes)
  deriving DecidableEq

namespace FileEntry

def exists_ : FileEntry → Bool
  | missing => false
  | locked | content _ => true

def data? : FileEntry → Option Bytes
  | missing | locked => none
  | content data => some data

end FileEntry

namespace FileManager

def init : FileManager := ⟨⟨none, false, false⟩, []⟩

def openFile (s : FileManager) (filename : Bytes) (entry : FileEntry) : Bool × FileManager :=
  if !entry.exists_ then (false, s)
  else
    -- the name is assigned before the stream has opened anything
    let m_file := s.m_file.openFile entry.data?
    (!m_file.failbit, ⟨m_file, filename⟩)

/-- The contents, or `none` for `false`. -/
def readFile (s : FileManager) : Option Bytes × FileManager :=
  if !s.m_file.isOpen then (none, s)
  else
    let (contents, m_file) := s.m_file.drain
    (some contents, { s with m_file := m_file })

def writeFile (s : FileManager) (contents : Bytes) : Bool × FileManager :=
  if !s.m_file.isOpen then (false, s)
  else (true, { s with m_file := s.m_file.write contents })

def getFileSize (s : FileManager) : ℤ × FileManager :=
  if !s.m_file.isOpen then (-1, s)
  else
    let (fileSize, m_file) := (s.m_file.seekg List.length).tellg
    (fileSize, { s with m_file := m_file.seekg fun _ => 0 })

/-- What a caller can see of the stream: the file that is open, and whether it can be read. -/
def view (s : FileManager) : Option (OpenFile UInt8 × Bool × Bool) :=
  s.m_file.file.map fun o => (o, s.m_file.eofbit, s.m_file.failbit)

/-- Nothing that a caller can see is different. -/
def Same (s t : FileManager) : Prop := t.m_filename = s.m_filename ∧ t.view = s.view

instance (s t : FileManager) : Decidable (Same s t) := inferInstanceAs (Decidable (_ ∧ _))

inductive Call
  | readFile
  | writeFile (contents : Bytes)
  | getFileSize

inductive Response
  | contents (data : Option Bytes)
  | written (ok : Bool)
  | size (n : ℤ)
  deriving DecidableEq

def call (s : FileManager) : Call → Response × FileManager
  | .readFile => (.contents s.readFile.1, s.readFile.2)
  | .writeFile contents => (.written (s.writeFile contents).1, (s.writeFile contents).2)
  | .getFileSize => (.size s.getFileSize.1, s.getFileSize.2)

/-- What a sequence of calls returns. -/
def responses (s : FileManager) : List Call → List Response
  | [] => []
  | c :: calls => (s.call c).1 :: responses (s.call c).2 calls

/-- A call that returned `false` has not changed anything, and all later calls return what they
would have returned without it. -/
def FailsClean (s : FileManager) (filename : Bytes) (entry : FileEntry) : Prop :=
  let result := s.openFile filename entry
  result.1 = false → Same s result.2 ∧ ∀ calls, result.2.responses calls = s.responses calls

/-- There is nothing under the name, or the stream is closed and the file can be opened, or the name
is the one that is remembered and the stream cannot be read already if it is open. -/
def Harmless (s : FileManager) (filename : Bytes) (entry : FileEntry) : Prop :=
  entry = .missing ∨ (s.m_file.isOpen = false ∧ entry.data?.isSome) ∨
    (filename = s.m_filename ∧ (s.m_file.isOpen = true → s.m_file.failbit = true))

variable {s t : FileManager} {filename : Bytes} {entry : FileEntry}

/-! ### Calls after a call that failed -/

/-- Without a file all calls return that there is none. -/
theorem call_of_not_isOpen (h : s.m_file.isOpen = false) (t : FileManager)
    (ht : t.m_file.isOpen = false) (c : Call) :
    (s.call c).1 = (t.call c).1 ∧ (s.call c).2 = s := by
  cases c with
  | readFile | writeFile contents | getFileSize =>
    simp only [call, readFile, writeFile, getFileSize, h, ht, Bool.not_false, ↓reduceIte, and_self]

theorem responses_of_not_isOpen (hs : s.m_file.isOpen = false) (ht : t.m_file.isOpen = false)
    (calls : List Call) : t.responses calls = s.responses calls := by
  induction calls with
  | nil => rfl
  | cons c calls ih =>
    obtain ⟨hvalue, hs'⟩ := call_of_not_isOpen hs t ht c
    obtain ⟨-, ht'⟩ := call_of_not_isOpen ht s hs c
    rw [responses, responses, hs', ht', hvalue, ih]

/-- Managers that look the same are the same, or both are closed. -/
theorem Same.eq_or_closed (h : Same s t) :
    s = t ∨ s.m_file.isOpen = false ∧ t.m_file.isOpen = false := by
  obtain ⟨⟨file, eofbit, failbit⟩, m_filename⟩ := s
  obtain ⟨⟨file', eofbit', failbit'⟩, m_filename'⟩ := t
  obtain ⟨hname, hview⟩ := h
  cases file with
  | none =>
    cases file' with
    | none => exact Or.inr ⟨rfl, rfl⟩
    | some o' => cases hview
  | some o =>
    cases file' with
    | none => cases hview
    | some o' =>
      simp only [view, Option.map_some, Option.some.injEq, Prod.mk.injEq] at hname hview
      obtain ⟨rfl, rfl, rfl⟩ := hview
      exact Or.inl (by rw [hname])

theorem Same.responses_eq (h : Same s t) (calls : List Call) :
    t.responses calls = s.responses calls := by
  rcases h.eq_or_closed with rfl | ⟨hs, ht⟩
  · rfl
  · exact responses_of_not_isOpen hs ht calls

/-! ### `openFile` -/

theorem openFile_of_missing (s : FileManager) (filename : Bytes) :
    s.openFile filename .missing = (false, s) := rfl

/-- A stream that is open keeps its file and fails, and so does a closed one where the file cannot
be opened. -/
theorem openFile_of_fails (hentry : entry ≠ .missing)
    (hfails : s.m_file.isOpen = true ∨ entry.data? = none) :
    s.openFile filename entry = (false, ⟨{ s.m_file with failbit := true }, filename⟩) := by
  have hexists : entry.exists_ = true := by
    cases entry with
    | missing => exact absurd rfl hentry
    | locked | content data => rfl
  have hopen : s.m_file.openFile entry.data? = { s.m_file with failbit := true } := by
    rcases hfails with hopen | hlocked
    · exact Stream.openFile_of_isOpen hopen _
    · rw [hlocked, Stream.openFile_none]
  simp only [openFile, hexists, hopen, Bool.not_true, Bool.false_eq_true, ↓reduceIte]

theorem openFile_of_opens (hclosed : s.m_file.isOpen = false) (data : Bytes) :
    s.openFile filename (.content data) = (true, ⟨.ofContent data, filename⟩) := by
  have hopen : s.m_file.openFile (some data) = .ofContent data :=
    Stream.openFile_of_closed hclosed data
  simp only [openFile, FileEntry.exists_, FileEntry.data?, hopen, Bool.not_true, Bool.false_eq_true,
    ↓reduceIte]
  rfl

/-- The state of a stream that fails looks the same only if nothing is open, or if it had failed
before. -/
theorem same_failed_iff (s : FileManager) (filename : Bytes) :
    Same s ⟨{ s.m_file with failbit := true }, filename⟩ ↔
      filename = s.m_filename ∧ (s.m_file.isOpen = true → s.m_file.failbit = true) := by
  rw [Same, view, view, Stream.isOpen]
  apply and_congr_right
  intro hname
  cases s.m_file.file with
  | none => exact iff_of_true rfl (fun hopen => Bool.noConfusion hopen)
  | some o =>
    simp only [Option.map_some, Option.some.injEq, Prod.mk.injEq, true_and, Option.isSome_some,
      forall_const]
    exact eq_comm

/-- A failed call changes nothing exactly if it is harmless. -/
theorem failsClean_iff (s : FileManager) (filename : Bytes) (entry : FileEntry) :
    FailsClean s filename entry ↔ Harmless s filename entry := by
  -- with an equal state nothing is different later on
  have hsame : FailsClean s filename entry ↔
      ((s.openFile filename entry).1 = false → Same s (s.openFile filename entry).2) :=
    forall_congr' fun _ => and_iff_left_of_imp fun h => h.responses_eq
  rw [hsame, Harmless]
  by_cases hmissing : entry = .missing
  · rw [hmissing, openFile_of_missing]
    exact iff_of_true (fun _ => ⟨rfl, rfl⟩) (Or.inl rfl)
  · rw [or_iff_right hmissing]
    by_cases hfails : s.m_file.isOpen = true ∨ entry.data? = none
    · have hnot : ¬ (s.m_file.isOpen = false ∧ entry.data?.isSome) := by
        intro ⟨hclosed, hdata⟩
        rcases hfails with hopen | hlocked
        · exact Bool.noConfusion (hclosed.symm.trans hopen)
        · rw [hlocked] at hdata
          exact Bool.noConfusion hdata
      rw [openFile_of_fails hmissing hfails, or_iff_right hnot, ← same_failed_iff]
      exact forall_prop_of_true rfl
    · rw [not_or, Bool.not_eq_true] at hfails
      obtain ⟨hclosed, hdata⟩ := hfails
      have hsome : entry.data?.isSome := Option.isSome_iff_ne_none.mpr hdata
      apply iff_of_true _ (Or.inl ⟨hclosed, hsome⟩)
      cases entry with
      | missing | locked => exact absurd rfl hdata
      | content data =>
        rw [openFile_of_opens hclosed]
        exact fun hfalse => Bool.noConfusion hfalse

/-- With one file open, the name of another one is remembered and the first cannot be written
any more. -/
theorem openFile_second_breaks_first :
    let s : FileManager := ⟨.ofContent (bytes "one"), bytes "a.txt"⟩
    let t := (s.openFile (bytes "b.txt") (.content (bytes "two"))).2
    (s.openFile (bytes "b.txt") (.content (bytes "two"))).1 = false ∧
      t.m_filename = bytes "b.txt" ∧ s.responses [.getFileSize] = [.size 3] ∧
      t.responses [.getFileSize] = [.size (-1)] ∧
      ¬ FailsClean s (bytes "b.txt") (.content (bytes "two")) := by
  refine ⟨rfl, rfl, rfl, rfl, fun hclean => ?_⟩
  have hsize := (hclean rfl).2 [.getFileSize]
  exact absurd hsize (by decide)

end FileManager

end OpenAPT
