import OpenAPT.Lib.ErrorState
import OpenAPT.Lib.EventMachine
import OpenAPT.Logger
import OpenAPT.Mutex

/-! `Logger::setLogToFile`. It logs a failure while it holds the mutex that `log` locks, and it
opens the one stream of the logger again without closing it. -/
namespace OpenAPT

open ErrorState EventMachine

/-- A `std::ofstream`, with the name of the file it has open. -/
structure OutputFile where
  file : Option Bytes
  failbit : Bool

/-- `open`, where `opens` says whether the file can be opened. A stream that has a file open fails
and keeps it. -/
def OutputFile.open (f : OutputFile) (filename : Bytes) (opens : Bool) : OutputFile :=
  match f.file, opens with
  | none, true => ⟨some filename, false⟩
  | none, false => { f with failbit := true }
  | some _, _ => { f with failbit := true }

/-- Where a line goes. -/
inductive LogDestination
  | console
  | file (filename : Bytes)
  deriving DecidableEq

/-- The logger with the holder of `queueMutex` and the record the background thread has taken.
`toFile` tells where `outputStream` points. The lines written so far and the destination that the
last `setLogToFile` asked for are history variables. -/
structure FileLogger where
  queueMutex : Option ℕ
  logQueue : List LogRecord
  currentLogLevel : LogLevel
  filterLevel : LogLevel
  errorMessages : List Bytes
  currentModuleName : Bytes
  outputFileStream : OutputFile
  toFile : Bool
  taken : Option LogRecord
  written : List (LogDestination × Bytes)
  asked : LogDestination

namespace FileLogger

/-- A part of a call. Where it fails the thread waits for ever, and what it did stays. -/
abbrev LogM := EStateM LockFailure FileLogger

def init (currentModuleName : Bytes) : FileLogger where
  queueMutex := none
  logQueue := []
  currentLogLevel := .info
  filterLevel := .none
  errorMessages := []
  currentModuleName := currentModuleName
  outputFileStream := ⟨none, false⟩
  toFile := false
  taken := none
  written := []
  asked := .console

/-- `std::lock_guard<std::mutex> lock(queueMutex)`. -/
def lock (thread : ℕ) : LogM Unit := do
  let owner ← MonadExcept.ofExcept (acquire (← get).queueMutex thread)
  modify fun s => { s with queueMutex := owner }

/-- The end of the block of a `lock_guard`. -/
def unlock : LogM Unit := modify fun s => { s with queueMutex := none }

def shouldLog (s : FileLogger) (level : LogLevel) : Bool :=
  s.currentLogLevel.toNat ≤ level.toNat && s.filterLevel.toNat ≤ level.toNat

/-- What `log` does with the mutex held. -/
def push (s : FileLogger) (r : LogRecord) : FileLogger :=
  if s.shouldLog r.level then
    { s with
      logQueue := s.logQueue ++ [r]
      errorMessages :=
        if r.level = .error then s.errorMessages ++ [r.message] else s.errorMessages }
  else s

def log (thread : ℕ) (r : LogRecord) : LogM Unit := do
  lock thread
  modify fun s => s.push r
  unlock

/-- `logError("Failed to open log file: {}", filename)`: there is no conversion in the format. -/
def openFailure (now : Timestamp) (currentModuleName : Bytes) : LogRecord :=
  .ofText .error (bytes "Failed to open log file: \x7b\x7d") now currentModuleName

def setLogToFile (thread : ℕ) (filename : Bytes) (opens : Bool) (now : Timestamp) : LogM Unit := do
  lock thread
  modify fun s => { s with outputFileStream := s.outputFileStream.open filename opens }
  if (← get).outputFileStream.file.isSome then
    modify fun s => { s with toFile := true }
  else
    -- `log` locks the mutex that this call holds
    log thread (openFailure now (← get).currentModuleName)
    modify fun s => { s with toFile := false }
  unlock

def setLogLevel (thread : ℕ) (level : LogLevel) : LogM Unit := do
  lock thread
  modify fun s => { s with currentLogLevel := level }
  unlock

def setFilterLevel (thread : ℕ) (level : LogLevel) : LogM Unit := do
  lock thread
  modify fun s => { s with filterLevel := level }
  unlock

/-- The background thread pops a record. It waits for the mutex. -/
def take (s : FileLogger) : Option FileLogger :=
  match s.queueMutex, s.taken, s.logQueue with
  | none, none, r :: rest => some { s with logQueue := rest, taken := some r }
  | _, _, _ => none

/-- Where `*outputStream << formattedMsg` goes. A stream with its failbit set writes nothing. -/
def destination (s : FileLogger) : Option LogDestination :=
  if s.toFile then
    if s.outputFileStream.failbit then none else s.outputFileStream.file.map .file
  else some .console

/-- It writes the record it has taken, without the mutex. -/
def write (s : FileLogger) : Option FileLogger :=
  match s.taken with
  | some r => some { s with
      taken := none
      errorMessages :=
        if s.currentLogLevel = .error then s.errorMessages ++ [r.message] else s.errorMessages
      written := s.written ++ (s.destination.map fun d => (d, r.formattedMsg)).toList }
  | none => none

/-- The state a call leaves, whether it returns or not. -/
def after (call : LogM Unit) (s : FileLogger) : FileLogger :=
  match call s with
  | .ok _ t => t
  | .error _ t => t

inductive Event
  | setLogToFile (thread : ℕ) (filename : Bytes) (opens : Bool) (now : Timestamp)
  | log (thread : ℕ) (r : LogRecord)
  | setLogLevel (thread : ℕ) (level : LogLevel)
  | setFilterLevel (thread : ℕ) (level : LogLevel)
  | take
  | write

/-- A call of a thread; one that waits for ever makes no more calls. -/
def callStep (s : FileLogger) (thread : ℕ) (call : LogM Unit) : Option FileLogger :=
  if s.queueMutex = some thread then none else some (after call s)

def step (s : FileLogger) : Event → Option FileLogger
  | .setLogToFile thread filename opens now =>
    (s.callStep thread (setLogToFile thread filename opens now)).map fun t =>
      { t with asked := if opens then .file filename else .console }
  | .log thread r => s.callStep thread (log thread r)
  | .setLogLevel thread level => s.callStep thread (setLogLevel thread level)
  | .setFilterLevel thread level => s.callStep thread (setFilterLevel thread level)
  | .take => s.take
  | .write => s.write

/-- `setLogToFile` returns, and a record is written where the last call asked for. -/
def Switches (s : FileLogger) : Event → Prop
  | .setLogToFile thread filename opens now =>
    ∃ t, setLogToFile thread filename opens now s = .ok () t
  | .write => ∀ r t, s.taken = some r → s.write = some t →
    t.written = s.written ++ [(s.asked, r.formattedMsg)]
  | _ => True

/-- A file that is asked for can be opened or the stream is open already, and no record is written
once an open stream was asked to open a file. -/
def OpensOnce (s : FileLogger) : Event → Prop
  | .setLogToFile _ _ opens _ => opens = true ∨ s.outputFileStream.file.isSome
  | .write => s.taken ≠ none → s.outputFileStream.failbit = false
  | _ => True

variable {s t : FileLogger} {thread : ℕ}

/-! ### The parts of a call -/

theorem lock_of_free (hfree : s.queueMutex = none) (thread : ℕ) :
    lock thread s = .ok () { s with queueMutex := some thread } := by
  have hacquire : acquire s.queueMutex thread = .ok (some thread) := by
    rw [hfree]
    exact acquire_none thread
  rw [lock, get_bind, ofExcept_bind_of_ok hacquire]
  rfl

theorem lock_of_owner (howner : s.queueMutex = some thread) :
    lock thread s = .error .relocks s := by
  have hacquire : acquire s.queueMutex thread = .error .relocks := by
    rw [howner]
    exact acquire_self thread
  rw [lock, get_bind, ofExcept_bind_of_error hacquire]

theorem log_of_owner (howner : s.queueMutex = some thread) (r : LogRecord) :
    log thread r s = .error .relocks s := by
  rw [log, bind_of_error (lock_of_owner howner)]

/-- With the stream open afterwards `setLogToFile` returns. -/
theorem setLogToFile_of_isSome (hfree : s.queueMutex = none) {filename : Bytes} {opens : Bool}
    (now : Timestamp) (hopen : (s.outputFileStream.open filename opens).file.isSome) :
    setLogToFile thread filename opens now s = .ok ()
      { s with
        queueMutex := none
        outputFileStream := s.outputFileStream.open filename opens
        toFile := true } := by
  rw [setLogToFile, bind_of_ok (lock_of_free hfree thread), modify_bind, get_bind]
  simp only [hopen, ↓reduceIte]
  rfl

/-- Without it the thread gets to the lock of `log`. -/
theorem setLogToFile_of_not_isSome (hfree : s.queueMutex = none) {filename : Bytes} {opens : Bool}
    (now : Timestamp) (hopen : ¬ (s.outputFileStream.open filename opens).file.isSome) :
    setLogToFile thread filename opens now s = .error .relocks
      { s with
        queueMutex := some thread
        outputFileStream := s.outputFileStream.open filename opens } := by
  rw [setLogToFile, bind_of_ok (lock_of_free hfree thread), modify_bind, get_bind]
  simp only [hopen, Bool.false_eq_true, ↓reduceIte]
  rw [get_bind]
  exact bind_of_error (log_of_owner rfl _)

theorem open_of_isSome {f : OutputFile} (hfile : f.file.isSome) (filename : Bytes)
    (opens : Bool) : f.open filename opens = { f with failbit := true } := by
  obtain ⟨name, hname⟩ := Option.isSome_iff_exists.mp hfile
  unfold OutputFile.open
  rw [hname]

theorem open_of_opens {f : OutputFile} (hfile : f.file = none) (filename : Bytes) :
    f.open filename true = ⟨some filename, false⟩ := by
  unfold OutputFile.open
  rw [hfile]

theorem open_of_not_opens {f : OutputFile} (hfile : f.file = none) (filename : Bytes) :
    (f.open filename false).file = none := by
  unfold OutputFile.open
  rw [hfile]

theorem isSome_open_iff (f : OutputFile) (filename : Bytes) (opens : Bool) :
    (f.open filename opens).file.isSome ↔ opens = true ∨ f.file.isSome := by
  cases hfile : f.file with
  | some name =>
    have hsome : f.file.isSome := by rw [hfile, Option.isSome_some]
    rw [open_of_isSome hsome]
    exact iff_of_true hsome (Or.inr rfl)
  | none =>
    cases opens with
    | true =>
      rw [open_of_opens hfile]
      exact iff_of_true rfl (Or.inl rfl)
    | false =>
      rw [open_of_not_opens hfile, or_iff_right Bool.false_ne_true]

/-- `setLogToFile` returns exactly if the stream is open in the end. -/
theorem setLogToFile_returns_iff (hfree : s.queueMutex = none) (filename : Bytes) (opens : Bool)
    (now : Timestamp) : (∃ t, setLogToFile thread filename opens now s = .ok () t) ↔
      opens = true ∨ s.outputFileStream.file.isSome := by
  rw [← isSome_open_iff s.outputFileStream filename opens]
  by_cases hopen : (s.outputFileStream.open filename opens).file.isSome
  · exact iff_of_true ⟨_, setLogToFile_of_isSome hfree now hopen⟩ hopen
  · apply iff_of_false _ hopen
    intro ⟨t, ht⟩
    cases (setLogToFile_of_not_isSome hfree now hopen).symm.trans ht

/-! ### Runs -/

/-- The mutex is free. The stream that is in use has its failbit set, or it is what the last call
asked for. -/
structure Inv (s : FileLogger) : Prop where
  free : s.queueMutex = none
  failed : s.outputFileStream.failbit = true → s.toFile = true ∧ s.outputFileStream.file.isSome
  direct : s.outputFileStream.failbit = false → s.destination = some s.asked

/-- The calls that only lock the mutex leave the stream alone. -/
theorem Inv.of_eq (h : Inv s) (hfree : t.queueMutex = none)
    (hstream : t.outputFileStream = s.outputFileStream) (htoFile : t.toFile = s.toFile)
    (hasked : t.asked = s.asked) : Inv t where
  free := hfree
  failed hfail := by
    rw [hstream] at hfail ⊢
    rw [htoFile]
    exact h.failed hfail
  direct hgood := by
    rw [hstream] at hgood
    rw [destination, hstream, htoFile, hasked]
    exact h.direct hgood

theorem inv_setLogToFile {filename : Bytes} {opens : Bool}
    (hopens : opens = true ∨ s.outputFileStream.file.isSome) :
    Inv { s with
      queueMutex := none
      outputFileStream := s.outputFileStream.open filename opens
      toFile := true
      asked := if opens then .file filename else .console } where
  free := rfl
  failed _ := ⟨rfl, (isSome_open_iff _ filename opens).mpr hopens⟩
  direct hgood := by
    dsimp only at hgood
    by_cases hsome : s.outputFileStream.file.isSome
    · rw [open_of_isSome hsome] at hgood
      exact Bool.noConfusion hgood
    · have hnone := Option.not_isSome_iff_eq_none.mp hsome
      obtain rfl : opens = true := hopens.resolve_right hsome
      rw [destination]
      dsimp only
      rw [open_of_opens hnone]
      rfl

theorem callStep_of_free (hfree : s.queueMutex = none) {call : LogM Unit} {u : FileLogger}
    (hcall : call s = .ok () u) : s.callStep thread call = some u := by
  have hother : s.queueMutex ≠ some thread := by
    rw [hfree]
    exact (Option.some_ne_none thread).symm
  rw [callStep, if_neg hother, after, hcall]

/-- A call that has the mutex for one change that does not touch the stream. -/
theorem inv_callStep (h : Inv s) (change : FileLogger → FileLogger)
    (hstream : ∀ u, (change u).outputFileStream = u.outputFileStream)
    (htoFile : ∀ u, (change u).toFile = u.toFile) (hasked : ∀ u, (change u).asked = u.asked)
    (ht : s.callStep thread (do lock thread; modify change; unlock) = some t) : Inv t := by
  have hcall : (do lock thread; modify change; unlock : LogM Unit) s =
      .ok () { change { s with queueMutex := some thread } with queueMutex := none } := by
    rw [bind_of_ok (lock_of_free h.free thread)]
    rfl
  rw [callStep_of_free h.free hcall] at ht
  obtain rfl := Option.some.inj ht
  exact h.of_eq rfl (hstream _) (htoFile _) (hasked _)

theorem push_frame (s : FileLogger) (r : LogRecord) :
    (s.push r).outputFileStream = s.outputFileStream ∧ (s.push r).toFile = s.toFile ∧
      (s.push r).asked = s.asked := by
  unfold push
  split
  · exact ⟨rfl, rfl, rfl⟩
  · exact ⟨rfl, rfl, rfl⟩

theorem inv_step (h : Inv s) {e : Event} (hopens : OpensOnce s e) (ht : step s e = some t) :
    Inv t := by
  cases e with
  | setLogToFile thread filename opens now =>
    have hopen := (isSome_open_iff s.outputFileStream filename opens).mpr hopens
    rw [step, callStep_of_free h.free (setLogToFile_of_isSome h.free now hopen),
      Option.map_some] at ht
    obtain rfl := Option.some.inj ht
    exact inv_setLogToFile hopens
  | log thread r =>
    exact inv_callStep h (fun u => u.push r) (fun u => (push_frame u r).1)
      (fun u => (push_frame u r).2.1) (fun u => (push_frame u r).2.2) ht
  | setLogLevel thread level =>
    exact inv_callStep h (fun u => { u with currentLogLevel := level }) (fun _ => rfl)
      (fun _ => rfl) (fun _ => rfl) ht
  | setFilterLevel thread level =>
    exact inv_callStep h (fun u => { u with filterLevel := level }) (fun _ => rfl)
      (fun _ => rfl) (fun _ => rfl) ht
  | take =>
    simp only [step, take] at ht
    split at ht
    next hfree _ _ =>
      obtain rfl := Option.some.inj ht
      exact h.of_eq hfree rfl rfl rfl
    next => cases ht
  | write =>
    simp only [step, write] at ht
    split at ht
    next =>
      obtain rfl := Option.some.inj ht
      exact h.of_eq h.free rfl rfl rfl
    next => cases ht

/-- A stream with its failbit set loses the record. -/
theorem switches_write_iff (h : Inv s) : Switches s .write ↔ OpensOnce s .write := by
  rw [Switches, OpensOnce]
  cases htaken : s.taken with
  | none => exact iff_of_true (fun _ _ hnone => nomatch hnone) (fun hne => absurd rfl hne)
  | some r =>
    have hwrite : ∃ t, s.write = some t ∧ t.written =
        s.written ++ (s.destination.map fun d => (d, r.formattedMsg)).toList := by
      rw [write, htaken]
      exact ⟨_, rfl, rfl⟩
    obtain ⟨t, ht, hwritten⟩ := hwrite
    cases hfail : s.outputFileStream.failbit with
    | false =>
      apply iff_of_true _ (fun _ => rfl)
      intro r' t' hr' ht'
      obtain rfl := Option.some.inj hr'
      obtain rfl := Option.some.inj (ht.symm.trans ht')
      rw [hwritten, h.direct hfail]
      rfl
    | true =>
      have hnowhere : s.destination = none := by
        rw [destination, (h.failed hfail).1, if_pos rfl, hfail, if_pos rfl]
      apply iff_of_false
      · intro hswitches
        have hlength := congrArg List.length (hwritten.symm.trans (hswitches r t rfl ht))
        rw [hnowhere, Option.map_none, Option.toList_none, List.append_nil, List.length_append,
          List.length_singleton] at hlength
        omega
      · intro hopens
        exact Bool.noConfusion (hopens (Option.some_ne_none r))

theorem switches_iff (h : Inv s) (e : Event) : Switches s e ↔ OpensOnce s e := by
  cases e with
  | setLogToFile thread filename opens now =>
    exact setLogToFile_returns_iff h.free filename opens now
  | write => exact switches_write_iff h
  | log thread r | setLogLevel thread level | setFilterLevel thread level | take => exact Iff.rfl

/-- In a run from the constructor on, every `setLogToFile` returns and every record is written where
the last one asked for, exactly if no call names a file that cannot be opened while none is open,
and nothing is written after a second call. -/
theorem steps_switches_iff (currentModuleName : Bytes) (es : List Event) :
    Steps step Switches (init currentModuleName) es ↔
      Steps step OpensOnce (init currentModuleName) es := by
  apply steps_congr_of_steps (I := Inv)
  · exact fun s e t hs hopens ht => inv_step hs hopens ht
  · exact fun s e hs => switches_iff hs e
  · exact ⟨rfl, fun hfail => Bool.noConfusion hfail, fun _ => rfl⟩

/-- The name of a directory deadlocks the caller; the second of two files gets nothing, and neither
does the standard output. -/
theorem setLogToFile_relocks_and_loses :
    (∃ t, setLogToFile 1 (bytes "/tmp") false .noon (init (bytes "Main")) = .error .relocks t ∧
      t.queueMutex = some 1) ∧
    ¬ Steps step Switches (init (bytes "Main")) [.setLogToFile 1 (bytes "/tmp") false .noon] ∧
    ∃ s t : FileLogger, run step (init (bytes "Main"))
        [.setLogToFile 1 (bytes "a.log") true .noon, .setLogToFile 1 (bytes "b.log") true .noon,
          .log 1 (.ofText .info (bytes "hello") .noon (bytes "Main")), .take] = some s ∧
      s.write = some t ∧ t.taken = none ∧ t.written = [] ∧ ¬ Switches s .write := by
  refine ⟨⟨_, rfl, rfl⟩, ?_, _, _, rfl, rfl, rfl, rfl, ?_⟩
  · intro ⟨⟨t, ht⟩, _⟩
    cases ht
  · intro hswitches
    exact List.cons_ne_nil _ _ (hswitches _ _ rfl rfl).symm

end FileLogger

end OpenAPT
