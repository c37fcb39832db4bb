import Mathlib.Data.List.Infix
import OpenAPT.Logger

/-! `LoggerManager` reads log files back by lines, and takes for errors the lines with the level
text in them. The lines of a logger are read back as its records exactly when no module name and no
message has a newline or passes for the level. -/
namespace OpenAPT

structure LogEntry where
  fileName : Bytes
  lineNumber : Nat
  message : Bytes
  deriving DecidableEq

structure LoggerManager where
  logEntries : List LogEntry

namespace LoggerManager

/-- The loop of `parseLog` over the lines that are left. -/
def pushLines (fileName : Bytes) : Nat → List Bytes → List LogEntry
  | _, [] => []
  | lineNumber, line :: lines =>
    ⟨fileName, lineNumber, line⟩ :: pushLines fileName (lineNumber + 1) lines

/-- `parseLog` on a file with the given content. -/
def parseLog (l : LoggerManager) (filePath content : Bytes) : LoggerManager :=
  ⟨l.logEntries ++ pushLines filePath 1 (Delimited.lines newline content)⟩

def errorText : Bytes := bytes "[ERROR]"

def extractErrorMessages (l : LoggerManager) : List Bytes :=
  (l.logEntries.filter fun e => errorText <:+: e.message).map LogEntry.message

/-- No log has been parsed. -/
def fresh : LoggerManager := ⟨[]⟩

theorem map_message_pushLines (fileName : Bytes) (n : Nat) (lines : List Bytes) :
    (pushLines fileName n lines).map LogEntry.message = lines := by
  induction lines generalizing n with
  | nil => rfl
  | cons line lines ih => rw [pushLines, List.map_cons, ih]

theorem extractErrorMessages_parseLog (filePath content : Bytes) :
    (fresh.parseLog filePath content).extractErrorMessages =
      (Delimited.lines newline content).filter fun line => errorText <:+: line := by
  rw [extractErrorMessages, parseLog, fresh, List.nil_append]
  conv_rhs => rw [← map_message_pushLines filePath 1 (Delimited.lines newline content)]
  rw [List.filter_map]
  rfl

theorem pushLines_eq_mapIdx (fileName : Bytes) (n : Nat) (lines : List Bytes) :
    pushLines fileName n lines = lines.mapIdx fun i line => ⟨fileName, n + i, line⟩ := by
  induction lines generalizing n with
  | nil => rfl
  | cons line lines ih =>
    rw [pushLines, List.mapIdx_cons, ih]
    simp only [Nat.add_zero, Nat.add_assoc, Nat.add_comm 1]

/-- One entry for each record, in order, and the error messages are those of the records at
`Error`. -/
def ReadsBack (filePath : Bytes) (records : List LogRecord) : Prop :=
  let l := fresh.parseLog filePath (logFile records)
  l.logEntries =
      (records.map LogRecord.line).mapIdx (fun i line => ⟨filePath, i + 1, line⟩) ∧
    l.extractErrorMessages = (records.filter fun r => r.level = .error).map LogRecord.line

/-- The text of the record is on one line. -/
def OneLine (r : LogRecord) : Prop := newline ∉ r.module ∧ newline ∉ r.message

theorem newline_not_mem_line_iff (r : LogRecord) : newline ∉ r.line ↔ OneLine r := by
  have htime : newline ∉ r.timestamp.text := fun h => absurd (r.timestamp.plain _ h) (by decide)
  have hlevel : newline ∉ levelToString r.level := by
    cases r.level <;> decide
  have hopen : newline ∉ bytes "[" := by decide
  have hclose : newline ∉ bytes "]" := by decide
  have hmid : newline ∉ bytes "][" := by decide
  have hspace : newline ∉ bytes "] " := by decide
  simp only [LogRecord.line, LogRecord.tail, List.mem_append, not_or, OneLine, htime, hlevel,
    hopen, hclose, hmid, hspace, not_false_eq_true, true_and, and_true]

/-- The level text of an error is in a line exactly if the record is one, or if its module and its
message spell it. -/
theorem errorText_infix_line_iff (r : LogRecord) :
    errorText <:+: r.line ↔ r.level = .error ∨ errorText <:+: r.tail := by
  have herr : errorText = 91 :: 69 :: bytes "RROR]" := by decide
  have hopen : bytes "[" = [91] := by decide
  have hmid : bytes "][" = [93, 91] := by decide
  have hclose : bytes "]" = [93] := by decide
  have hline : r.line = 91 :: (r.timestamp.text ++
      ([93] ++ 91 :: (levelToString r.level ++ ([93] ++ r.tail)))) := by
    simp only [LogRecord.line, hopen, hmid, hclose, List.append_assoc, List.cons_append,
      List.nil_append]
  have hplain : ∀ c ∈ r.timestamp.text ++ [93], c ≠ 91 ∧ c ≠ 69 := by
    intro c hc
    rcases List.mem_append.mp hc with hc | hc
    · have hdigits : ∀ b ∈ bytes "0123456789-: ", b ≠ 91 ∧ b ≠ 69 :=
        List.all_iff_forall_prop.mp (by decide)
      exact hdigits c (r.timestamp.plain c hc)
    · rw [List.mem_singleton.mp hc]
      decide
  -- no bracket of the time begins the text
  have htime : (91 :: 69 :: bytes "RROR]") <:+: r.line ↔
      (91 :: 69 :: bytes "RROR]") <:+: 91 :: (levelToString r.level ++ ([93] ++ r.tail)) := by
    have hbegin : ¬ (69 :: bytes "RROR]") <+: r.timestamp.text ++
        ([93] ++ 91 :: (levelToString r.level ++ ([93] ++ r.tail))) :=
      Delimited.not_cons_prefix_append fun x hx => (hplain x (List.mem_of_mem_head? hx)).2
    have hnot : 91 ∉ r.timestamp.text ++ [93] := fun h => (hplain 91 h).1 rfl
    rw [hline, Delimited.cons_infix_cons_iff hbegin, ← List.append_assoc,
      Delimited.cons_infix_append_iff hnot]
  rw [herr, htime]
  by_cases hlevel : r.level = .error
  · refine iff_of_true (List.IsPrefix.isInfix ?_) (Or.inl hlevel)
    rw [hlevel]
    exact ⟨r.tail, by rw [← List.append_assoc]; rfl⟩
  · have hbegin : ¬ (69 :: bytes "RROR]") <+: levelToString r.level ++ ([93] ++ r.tail) := by
      have hhead : (levelToString r.level ++ [93]).head? ≠ some 69 := by
        revert hlevel
        cases r.level <;> decide
      apply Delimited.not_cons_prefix_append
      rintro x hx rfl
      exact hhead hx
    have hnot : 91 ∉ levelToString r.level ++ [93] := by
      cases r.level <;> decide
    rw [Delimited.cons_infix_cons_iff hbegin, ← List.append_assoc,
      Delimited.cons_infix_append_iff hnot, or_iff_right hlevel]

theorem logEntries_parseLog (filePath content : Bytes) :
    (fresh.parseLog filePath content).logEntries =
      (Delimited.lines newline content).mapIdx fun i line => ⟨filePath, i + 1, line⟩ := by
  rw [parseLog, fresh, List.nil_append, pushLines_eq_mapIdx]
  simp only [Nat.add_comm 1]

theorem map_message_mapIdx (filePath : Bytes) (lines : List Bytes) :
    (lines.mapIdx fun i line => (⟨filePath, i + 1, line⟩ : LogEntry)).map LogEntry.message =
      lines := by
  have h := map_message_pushLines filePath 1 lines
  rw [pushLines_eq_mapIdx] at h
  simpa only [Nat.add_comm 1] using h

/-- The error lines are those of the error records exactly when no other line passes for one. -/
theorem filter_errorText_iff (records : List LogRecord) :
    ((records.map LogRecord.line).filter fun line => errorText <:+: line) =
        (records.filter fun r => r.level = .error).map LogRecord.line ↔
      ∀ r ∈ records, r.level ≠ .error → ¬ errorText <:+: r.tail := by
  rw [List.filter_map]
  constructor
  · intro h r hr hlevel htail
    have hsub : (records.filter fun r => r.level = .error).Sublist
        (records.filter ((fun line => decide (errorText <:+: line)) ∘ LogRecord.line)) := by
      apply List.monotone_filter_right
      intro q hq
      exact decide_eq_true ((errorText_infix_line_iff q).mpr (Or.inl (of_decide_eq_true hq)))
    have hlength := congrArg List.length h
    rw [List.length_map, List.length_map] at hlength
    have hmem : r ∈ records.filter ((fun line => decide (errorText <:+: line)) ∘ LogRecord.line) :=
      List.mem_filter.mpr
        ⟨hr, decide_eq_true ((errorText_infix_line_iff r).mpr (Or.inr htail))⟩
    rw [← hsub.eq_of_length hlength.symm] at hmem
    exact hlevel (of_decide_eq_true (List.mem_filter.mp hmem).2)
  · intro h
    congr 1
    apply List.filter_congr
    intro r hr
    apply decide_eq_decide.mpr
    rw [errorText_infix_line_iff]
    exact or_iff_left_of_imp fun htail => by_contra fun hlevel => h r hr hlevel htail

end LoggerManager

end OpenAPT
