import OpenAPT.LoggerAsync

/-! The error messages of a `Logger` over its whole life: the machine of the asynchronous logger
with the calls that set the levels, and with asynchronous logging enabled again after it was
disabled. -/
namespace OpenAPT

open EventMachine

namespace AsyncLogger

variable {n : ℕ}

/-- A logger as its constructor leaves it. There is no background thread yet. -/
def fresh (n : ℕ) : AsyncLogger n :=
  { init n [] .info .none [] with
    phase := fun
      | .producer _ => .outside ()
      | .background => .outside BackgroundAt.exited
    asyncLoggingEnabled := false
    disabler := .returned }

/-- `none` is a thread that is started in place of one that can still be joined. -/
def enableAsyncLogging (s : AsyncLogger n) : Option (AsyncLogger n) :=
  match s.disabler with
  | .returned => some { s with
      toMonitor := s.goto .background (.locking BackgroundSection.test)
      asyncLoggingEnabled := true
      disabler := .notCalled }
  | _ => none

/-- A call that has the mutex for one assignment. -/
def assign (s t : AsyncLogger n) : Option (AsyncLogger n) :=
  match s.owner with
  | none => some t
  | some _ => none

def setLogLevel (s : AsyncLogger n) (level : LogLevel) : Option (AsyncLogger n) :=
  s.assign { s with currentLogLevel := level }

def setFilterLevel (s : AsyncLogger n) (level : LogLevel) : Option (AsyncLogger n) :=
  s.assign { s with filterLevel := level }

/-- The steps of the threads, and the calls that are made at any time. -/
inductive LifeEvent (n : ℕ)
  | thread (e : Event n)
  | enableAsyncLogging
  | setLogLevel (level : LogLevel)
  | setFilterLevel (level : LogLevel)

def lifeStep (s : AsyncLogger n) : LifeEvent n → Option (AsyncLogger n)
  | .thread e => step s e
  | .enableAsyncLogging => s.enableAsyncLogging
  | .setLogLevel level => s.setLogLevel level
  | .setFilterLevel level => s.setFilterLevel level

/-- The messages of the records at the level of errors. -/
def errors (records : List LogRecord) : List Bytes :=
  (records.filter fun r => r.level = .error).map LogRecord.message

/-- `getErrorMessages` returns what it should. -/
def ReportsErrors (s : AsyncLogger n) : Prop := s.errorMessages = errors s.accepted

/-- The step does not write a record while errors are the configured level. -/
def WritesOtherLevel (s : AsyncLogger n) (e : LifeEvent n) : Prop :=
  e = .thread .write → s.currentLogLevel ≠ .error

/-- There are more error messages than there should be. -/
def Overfull (s : AsyncLogger n) : Prop := (errors s.accepted).length < s.errorMessages.length

variable {s t : AsyncLogger n}

theorem errors_append (records more : List LogRecord) :
    errors (records ++ more) = errors records ++ errors more := by
  rw [errors, List.filter_append, List.map_append]
  rfl

theorem errors_singleton (r : LogRecord) :
    errors [r] = if r.level = .error then [r.message] else [] := by
  rw [errors, List.filter_singleton]
  split_ifs with hlevel
  · rw [decide_eq_true hlevel]
    rfl
  · rw [decide_eq_false hlevel]
    rfl

theorem not_reportsErrors_of_overfull (h : Overfull s) : ¬ ReportsErrors s := by
  intro heq
  rw [Overfull, heq] at h
  exact Nat.lt_irrefl _ h

/-- The step adds the error messages of the records that it accepts. -/
def AddsErrors (s t : AsyncLogger n) : Prop :=
  ∃ records, t.accepted = s.accepted ++ records ∧
    t.errorMessages = s.errorMessages ++ errors records

theorem addsErrors_of_eq (haccepted : t.accepted = s.accepted)
    (herrors : t.errorMessages = s.errorMessages) : AddsErrors s t := by
  refine ⟨[], ?_, ?_⟩
  · rw [haccepted, List.append_nil]
  · rw [herrors]
    exact (List.append_nil _).symm

theorem addsErrors_of_accept {r : LogRecord} (haccepted : t.accepted = s.accepted ++ [r])
    (herrors : t.errorMessages =
      if r.level = .error then s.errorMessages ++ [r.message] else s.errorMessages) :
    AddsErrors s t := by
  refine ⟨[r], haccepted, ?_⟩
  rw [herrors, errors_singleton]
  split_ifs
  · rfl
  · exact (List.append_nil _).symm

/-- Writing a record adds its message if errors are the configured level. -/
theorem write_errorMessages (hs : step s .write = some t) : t.accepted = s.accepted ∧
    ((s.currentLogLevel ≠ .error ∧ t.errorMessages = s.errorMessages) ∨
      s.currentLogLevel = .error ∧ ∃ message, t.errorMessages = s.errorMessages ++ [message]) := by
  cases stepped_of_step hs with
  | @write r hphase =>
    refine ⟨rfl, ?_⟩
    by_cases hlevel : s.currentLogLevel = .error
    · exact Or.inr ⟨hlevel, r.message, if_pos hlevel⟩
    · exact Or.inl ⟨hlevel, if_neg hlevel⟩

/-- All other steps of the threads add nothing, except for the one that accepts a record. -/
theorem step_addsErrors {e : Event n} (hs : step s e = some t) (hwrite : e ≠ .write) :
    AddsErrors s t := by
  cases stepped_of_step hs with
  | write hphase => exact absurd rfl hwrite
  | accept hphase hlog hm => exact addsErrors_of_accept rfl rfl
  | _ => exact addsErrors_of_eq rfl rfl

theorem assign_eq_some {u : AsyncLogger n} (hs : s.assign u = some t) : u = t := by
  unfold assign at hs
  split at hs
  next => exact Option.some.inj hs
  next => cases hs

/-- A step adds the error messages of what it accepts, and one too many exactly if it writes a
record while errors are the configured level. -/
theorem lifeStep_cases {e : LifeEvent n} (hs : lifeStep s e = some t) :
    WritesOtherLevel s e ∧ AddsErrors s t ∨
      ¬ WritesOtherLevel s e ∧ t.accepted = s.accepted ∧
        ∃ message, t.errorMessages = s.errorMessages ++ [message] := by
  cases e with
  | thread e =>
    by_cases hwrite : e = .write
    · subst hwrite
      rcases write_errorMessages hs with ⟨haccepted, ⟨hlevel, herrors⟩ | ⟨hlevel, herrors⟩⟩
      · exact Or.inl ⟨fun _ => hlevel, addsErrors_of_eq haccepted herrors⟩
      · exact Or.inr ⟨fun h => h rfl hlevel, haccepted, herrors⟩
    · refine Or.inl ⟨?_, step_addsErrors hs hwrite⟩
      exact fun h => absurd (LifeEvent.thread.inj h) hwrite
  | enableAsyncLogging =>
    simp only [lifeStep, AsyncLogger.enableAsyncLogging] at hs
    split at hs
    next =>
      obtain rfl := Option.some.inj hs
      exact Or.inl ⟨nofun, addsErrors_of_eq rfl rfl⟩
    next => cases hs
  | setLogLevel level | setFilterLevel level =>
    obtain rfl := assign_eq_some hs
    exact Or.inl ⟨nofun, addsErrors_of_eq rfl rfl⟩

/-- In a run from the constructor on, `getErrorMessages` returns the messages accepted at the level
of errors, each once, exactly if no record was written while errors were the configured level. -/
theorem reportsErrors_iff {es : List (LifeEvent n)} (hrun : run lifeStep (fresh n) es = some s) :
    ReportsErrors s ↔ Steps lifeStep WritesOtherLevel (fresh n) es := by
  apply iff_steps_of_spoiled Overfull _ _ _ _ _ hrun
  · intro s e t hreports hother hs
    rcases lifeStep_cases hs with ⟨-, records, haccepted, herrors⟩ | ⟨hwrites, -⟩
    · rw [ReportsErrors, herrors, haccepted, errors_append, hreports]
    · exact absurd hother hwrites
  · intro s e t hreports hwrites hs
    rcases lifeStep_cases hs with ⟨hother, -⟩ | ⟨-, haccepted, message, herrors⟩
    · exact absurd hother hwrites
    · rw [Overfull, herrors, haccepted, hreports, List.length_append, List.length_singleton]
      omega
  · intro s e t hover hs
    rw [Overfull] at hover ⊢
    rcases lifeStep_cases hs with
      ⟨-, records, haccepted, herrors⟩ | ⟨-, haccepted, message, herrors⟩
    · rw [herrors, haccepted, errors_append, List.length_append, List.length_append]
      omega
    · rw [herrors, haccepted, List.length_append]
      omega
  · exact fun s hover => not_reportsErrors_of_overfull hover
  · rfl

/-- An error is logged and written with errors as the configured level. -/
def errorWritten (p : Fin n) (r : LogRecord) : List (LifeEvent n) :=
  [.setLogLevel .error, .thread (.log p r), .thread (.lock (.producer p)), .thread (.push p none),
    .enableAsyncLogging, .thread (.lock .background), .thread .test, .thread .check, .thread .take,
    .thread .write]

def failure : LogRecord :=
  LogRecord.ofText .error (bytes "failure") .noon (bytes "Main")

theorem reportsErrors_iff_errorWritten :
    ∃ s, run lifeStep (fresh 1) (errorWritten 0 failure) = some s ∧
      (ReportsErrors s ↔ Steps lifeStep WritesOtherLevel (fresh 1) (errorWritten 0 failure)) :=
  ⟨_, rfl, reportsErrors_iff rfl⟩

theorem errorWritten_reports_twice :
    ∃ s, run lifeStep (fresh 1) (errorWritten 0 failure) = some s ∧
      errors s.accepted = [bytes "failure"] ∧
      s.errorMessages = [bytes "failure", bytes "failure"] ∧ ¬ ReportsErrors s := by
  refine ⟨_, rfl, rfl, rfl, ?_⟩
  exact not_reportsErrors_of_overfull (Nat.lt_succ_self 1)

end AsyncLogger

end OpenAPT
