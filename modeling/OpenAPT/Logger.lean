import Mathlib.Data.Bool.AllAny
import Mathlib.Data.List.TakeWhile
import OpenAPT.Bytes
import OpenAPT.Lib.Delimited

/-! The records of `Logger` and the lines it writes for them. -/
namespace OpenAPT

/-- `LogLevel`, in its order. -/
inductive LogLevel
  | none
  | trace
  | debug
  | info
  | warning
  | error
  | critical
  deriving DecidableEq

/-- The value of the enumerator. -/
def LogLevel.toNat : LogLevel → Nat
  | none => 0
  | trace => 1
  | debug => 2
  | info => 3
  | warning => 4
  | error => 5
  | critical => 6

def levelToString : LogLevel → Bytes
  | .trace => bytes "TRACE"
  | .debug => bytes "DEBUG"
  | .info => bytes "INFO"
  | .warning => bytes "WARNING"
  | .error => bytes "ERROR"
  | .critical => bytes "Critical"
  | .none => []

/-- What `strftime` makes of `%Y-%m-%d %H:%M:%S`. -/
structure Timestamp where
  text : Bytes
  plain : ∀ c ∈ text, c ∈ bytes "0123456789-: "
  deriving DecidableEq

theorem plain_noon : ∀ c ∈ bytes "2023-06-30 12:00:00", c ∈ bytes "0123456789-: " :=
  List.all_iff_forall_prop.mp (by decide)

def Timestamp.noon : Timestamp := ⟨bytes "2023-06-30 12:00:00", plain_noon⟩

/-- An element of `logQueue`. Its message was read from a buffer of 512 bytes. -/
structure LogRecord where
  message : Bytes
  timestamp : Timestamp
  module : Bytes
  level : LogLevel
  length_le : message.length ≤ 511
  no_nul : 0 ∉ message
  deriving DecidableEq

/-- What `log` keeps of a formatted text: `snprintf` cuts it to the buffer, and the string is read
from there up to the first zero byte. -/
def keptMessage (text : Bytes) : Bytes := cStr (text.take 511)

theorem length_keptMessage_le (text : Bytes) : (keptMessage text).length ≤ 511 :=
  calc (keptMessage text).length
    _ ≤ (text.take 511).length := (List.takeWhile_sublist _).length_le
    _ ≤ 511 := List.length_take_le 511 text

theorem nul_not_mem_keptMessage (text : Bytes) : 0 ∉ keptMessage text := by
  intro h
  have hne := List.mem_takeWhile_imp h
  simp only [ne_eq, not_true_eq_false, decide_false, Bool.false_eq_true] at hne

/-- The record that `log` makes of a formatted text. -/
def LogRecord.ofText (level : LogLevel) (text : Bytes) (timestamp : Timestamp) (module : Bytes) :
    LogRecord where
  message := keptMessage text
  timestamp := timestamp
  module := module
  level := level
  length_le := length_keptMessage_le text
  no_nul := nul_not_mem_keptMessage text

def newline : UInt8 := 10

namespace LogRecord

/-- What follows the level in the line of a record. -/
def tail (r : LogRecord) : Bytes := bytes "[" ++ r.module ++ bytes "] " ++ r.message

/-- The line of a record, without the newline that ends it. -/
def line (r : LogRecord) : Bytes :=
  bytes "[" ++ r.timestamp.text ++ bytes "][" ++ levelToString r.level ++ bytes "]" ++ r.tail

def formattedMsg (r : LogRecord) : Bytes := r.line ++ [newline]

end LogRecord

/-- What `loggingFunction` leaves in a file for the records it takes, in order. -/
def logFile (records : List LogRecord) : Bytes := (records.map LogRecord.formattedMsg).flatten

theorem logFile_eq_frames (records : List LogRecord) :
    logFile records = Delimited.frames newline (records.map LogRecord.line) := by
  rw [logFile, Delimited.frames, List.map_map]
  rfl

end OpenAPT
