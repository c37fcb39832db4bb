import Mathlib.Algebra.Ring.Nat
import OpenAPT.Lib.Tally
import OpenAPT.LoggerManager
import OpenAPT.MergePatch

/-! `LoggerManager::analyzeLogs`: it counts the error messages by a type, and finds the message that
is there most often. The type is cut out of a line by its first brackets. -/
namespace OpenAPT

open KeyedList (tally firstMax StrictTotal IsFirstMax)

namespace LoggerManager

/-- The text between the first brackets. -/
def getErrorType (errorMessage : Bytes) : Bytes :=
  match errorMessage.findIdx? (· = 91), errorMessage.findIdx? (· = 93) with
  | some startPos, some endPos =>
    if startPos < endPos then (errorMessage.drop (startPos + 1)).take (endPos - startPos - 1)
    else bytes "Unknown"
  | _, _ => bytes "Unknown"

/-- `count[key]++` for every key, with counters of type `int`. -/
def countEach (keys : List Bytes) : List (Bytes × Int32) := tally 0 (· + 1) keys

def getMostCommonErrorMessage (errorMessages : List Bytes) : Bytes :=
  (firstMax ([], 0) (countEach errorMessages)).1

/-- What `analyzeLogs` reports: the counters of the types and the most common message. -/
def analyzeLogs (l : LoggerManager) : Option (List (Bytes × Int32) × Bytes) :=
  let errorMessages := l.extractErrorMessages
  if errorMessages = [] then none
  else some (countEach (errorMessages.map getErrorType), getMostCommonErrorMessage errorMessages)

/-! ### Types -/

/-- The first byte of a kind, where the bytes before it are all of another kind. -/
theorem findIdx?_append_cons {p : UInt8 → Bool} {s : Bytes} (hs : ∀ c ∈ s, p c = false)
    {c : UInt8} (hc : p c = true) (rest : Bytes) :
    (s ++ c :: rest).findIdx? p = some s.length := by
  rw [List.findIdx?_append, List.findIdx?_eq_none_iff.mpr hs, List.findIdx?_cons, if_pos hc,
    Option.none_or, Option.map_some, Nat.zero_add]

/-- For the line of a record the type is its time. -/
theorem getErrorType_line (r : LogRecord) : getErrorType r.line = r.timestamp.text := by
  have hopen : bytes "[" = [91] := by decide
  have hmid : bytes "][" = [93, 91] := by decide
  obtain ⟨rest, hrest⟩ : ∃ rest, r.line = 91 :: (r.timestamp.text ++ 93 :: rest) := by
    refine ⟨91 :: (levelToString r.level ++ (bytes "]" ++ r.tail)), ?_⟩
    simp only [LogRecord.line, hopen, hmid, List.append_assoc, List.cons_append, List.nil_append]
  -- a time has no bracket in it
  have hplain : ∀ c ∈ 91 :: r.timestamp.text, decide (c = 93) = false := by
    intro c hc
    rcases List.mem_cons.mp hc with rfl | hc
    · decide
    · have hdigits : ∀ b ∈ bytes "0123456789-: ", decide (b = 93) = false :=
        List.all_iff_forall_prop.mp (by decide)
      exact hdigits c (r.timestamp.plain c hc)
  have hstart : r.line.findIdx? (· = 91) = some 0 := by
    rw [hrest]
    rfl
  have hend : r.line.findIdx? (· = 93) = some (r.timestamp.text.length + 1) := by
    rw [hrest]
    exact findIdx?_append_cons hplain rfl rest
  have hlength : r.timestamp.text.length + 1 - 0 - 1 = r.timestamp.text.length := by omega
  simp only [getErrorType, hstart, hend, Nat.zero_lt_succ, ↓reduceIte, hlength]
  rw [hrest, Nat.zero_add, List.drop_one, List.tail_cons, List.take_left]

/-- No name of a level can be read as a time. -/
theorem levelToString_eq_time_iff (level : LogLevel) (timestamp : Timestamp) :
    timestamp.text = levelToString level ↔ timestamp.text = [] ∧ level = .none := by
  constructor
  · intro heq
    have hplain := timestamp.plain
    rw [heq] at hplain
    cases level with
    | none => exact ⟨heq, rfl⟩
    | trace | debug | info | warning | error | critical =>
      exact absurd hplain (by decide)
  · rintro ⟨hempty, rfl⟩
    exact hempty

/-- The type of a line is the name of its level only without a time and without a level. -/
theorem getErrorType_line_eq_iff (r : LogRecord) :
    getErrorType r.line = levelToString r.level ↔ r.timestamp.text = [] ∧ r.level = .none := by
  rw [getErrorType_line]
  exact levelToString_eq_time_iff r.level r.timestamp

/-- So `analyzeLogs` counts the lines by their times. -/
theorem countEach_getErrorType (records : List LogRecord) :
    countEach ((records.map LogRecord.line).map getErrorType) =
      countEach (records.map fun r => r.timestamp.text) := by
  have htypes : getErrorType ∘ LogRecord.line = fun r => r.timestamp.text :=
    funext getErrorType_line
  rw [List.map_map, htypes]

def failed : LogRecord :=
  LogRecord.ofText .error (bytes "failed") .noon (bytes "Main")

theorem getErrorType_failed : getErrorType failed.line ≠ levelToString failed.level ∧
    (fresh.parseLog (bytes "a.log") (logFile [failed])).analyzeLogs =
      some ([(bytes "2023-06-30 12:00:00", 1)], failed.line) := by
  decide

/-! ### The most common message -/

/-- A message that is there most often, and of those the first in the order of strings. -/
structure MostCommon (errorMessages : List Bytes) (message : Bytes) : Prop where
  mem : message ∈ errorMessages
  count_le : ∀ other ∈ errorMessages, errorMessages.count other ≤ errorMessages.count message
  least : ∀ other ∈ errorMessages, errorMessages.count other = errorMessages.count message →
    other = message ∨ message < other

theorem iterate_count (n : ℕ) : (fun c : Int32 => c + 1)^[n] 0 = Int32.ofNat n := by
  induction n with
  | zero => rfl
  | succ n ih =>
    rw [Function.iterate_succ_apply', ih, Int32.ofNat_add]
    rfl

theorem toInt_ofNat_le_iff {a b : ℕ} (ha : a < 2 ^ 31) (hb : b < 2 ^ 31) :
    Int32.ofNat a ≤ Int32.ofNat b ↔ a ≤ b := by
  rw [Int32.le_iff_toInt_le, Int32.toInt_ofNat_of_lt ha, Int32.toInt_ofNat_of_lt hb]
  exact Int.ofNat_le

theorem mem_countEach_iff {errorMessages : List Bytes} {e : Bytes × Int32} :
    e ∈ countEach errorMessages ↔
      e.1 ∈ errorMessages ∧ e.2 = Int32.ofNat (errorMessages.count e.1) := by
  rw [← iterate_count]
  exact KeyedList.mem_tally_iff strictTotal_bytes

/-- Fewer than `2 ^ 31` messages do not overflow a counter. -/
theorem mostCommon_getMostCommonErrorMessage (errorMessages : List Bytes)
    (hne : errorMessages ≠ []) (hlength : errorMessages.length < 2 ^ 31) :
    MostCommon errorMessages (getMostCommonErrorMessage errorMessages) := by
  have hcount (message : Bytes) : errorMessages.count message < 2 ^ 31 :=
    Nat.lt_of_le_of_lt List.count_le_length hlength
  have hentry (message : Bytes) (hmem : message ∈ errorMessages) :
      (message, Int32.ofNat (errorMessages.count message)) ∈ countEach errorMessages :=
    mem_countEach_iff.mpr ⟨hmem, rfl⟩
  -- every counter in the map is larger than the one the loop starts from
  have hbest : ∃ e ∈ countEach errorMessages, (([], 0) : Bytes × Int32).2 < e.2 := by
    obtain ⟨message, hmem⟩ := List.exists_mem_of_ne_nil errorMessages hne
    refine ⟨_, hentry message hmem, ?_⟩
    have hpos : 0 < errorMessages.count message := List.count_pos_iff.mpr hmem
    rw [Int32.lt_iff_toInt_lt, Int32.toInt_ofNat_of_lt (hcount message)]
    exact Int.natCast_pos.mpr hpos
  have hfirst : IsFirstMax (countEach errorMessages) (firstMax ([], 0) (countEach errorMessages)) :=
    (KeyedList.sorted_tally strictTotal_bytes 0 (· + 1) errorMessages).isFirstMax_firstMax hbest
  rw [getMostCommonErrorMessage]
  generalize firstMax ([], 0) (countEach errorMessages) = r at hfirst ⊢
  obtain ⟨hmem, hvalue⟩ := mem_countEach_iff.mp hfirst.mem
  refine ⟨hmem, fun other hother => ?_, fun other hother heq => ?_⟩
  · have hle := hfirst.le _ (hentry other hother)
    rw [hvalue] at hle
    exact (toInt_ofNat_le_iff (hcount other) (hcount r.1)).mp hle
  · have hsame : Int32.ofNat (errorMessages.count other) = r.2 := by rw [hvalue, heq]
    rcases hfirst.first _ (hentry other hother) hsame with hr | hlt
    · exact Or.inl (congrArg Prod.fst hr)
    · exact Or.inr hlt

theorem mostCommon_three :
    MostCommon [bytes "b", bytes "a", bytes "b", bytes "c", bytes "a"]
      (getMostCommonErrorMessage [bytes "b", bytes "a", bytes "b", bytes "c", bytes "a"]) :=
  mostCommon_getMostCommonErrorMessage _ (List.cons_ne_nil _ _) (by decide)

end LoggerManager

end OpenAPT
