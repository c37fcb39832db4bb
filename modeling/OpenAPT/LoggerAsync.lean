import Mathlib.Data.Fintype.Sum
import Mathlib.Tactic.DeriveFintype
import OpenAPT.Lib.EventMachine
import OpenAPT.Lib.Monitor
import OpenAPT.Logger

/-! Asynchronous logging: `n` threads that call `log`, the background thread in `loggingFunction`
and a call of `disableAsyncLogging`, from the return of `enableAsyncLogging` on. What is queued
when the flag is cleared is never written. -/
namespace OpenAPT

open EventMachine

inductive LoggerThread (n : ℕ)
  | producer (p : Fin n)
  | background
  deriving DecidableEq, Fintype

/-- The background thread outside its critical section. -/
inductive BackgroundAt
  | writing (r : LogRecord)
  | exited
  deriving DecidableEq

/-- The parts of its critical section: the predicate of `wait`, the block that follows if it is
false, the exit test after it, and the reads of the front of the queue. -/
inductive BackgroundSection
  | test
  | block
  | check
  | take
  deriving DecidableEq

/-- Where the call of `disableAsyncLogging` is. -/
inductive DisableAt
  | notCalled
  | testing
  | storing
  | notifying
  | joining
  | returned
  deriving DecidableEq

theorem background_ne {n : ℕ} (p : Fin n) : LoggerThread.background ≠ .producer p := by
  intro h
  cases h

/-- Whether the call has not cleared the flag yet. -/
def DisableAt.enabled : DisableAt → Bool
  | notCalled | testing | storing => true
  | notifying | joining | returned => false

abbrev LoggerThread.At {n : ℕ} : LoggerThread n → Type
  | producer _ => Unit
  | background => BackgroundAt

/-- A producer is in `log` with the record it may push. -/
abbrev LoggerThread.Section {n : ℕ} : LoggerThread n → Type
  | producer _ => LogRecord
  | background => BackgroundSection

/-- The members of the logger, with the records that `log` accepted since `enableAsyncLogging` and
those of them that it had accepted when `disableAsyncLogging` was called. -/
structure AsyncLogger (n : ℕ) extends
    Monitor (LoggerThread n) LoggerThread.At LoggerThread.Section where
  logQueue : List LogRecord
  asyncLoggingEnabled : Bool
  currentLogLevel : LogLevel
  filterLevel : LogLevel
  errorMessages : List Bytes
  outputStream : List Bytes
  disabler : DisableAt
  accepted : List LogRecord
  acceptedBefore : List LogRecord

namespace AsyncLogger

variable {n : ℕ}

/-- `enableAsyncLogging` has returned; `earlier` was logged before. -/
def init (n : ℕ) (earlier : List LogRecord) (currentLogLevel filterLevel : LogLevel)
    (errorMessages : List Bytes) : AsyncLogger n where
  owner := none
  phase := fun
    | .producer _ => .outside ()
    | .background => .locking BackgroundSection.test
  logQueue := earlier
  asyncLoggingEnabled := true
  currentLogLevel := currentLogLevel
  filterLevel := filterLevel
  errorMessages := errorMessages
  outputStream := []
  disabler := .notCalled
  accepted := []
  acceptedBefore := []

def shouldLog (s : AsyncLogger n) (level : LogLevel) : Bool :=
  s.currentLogLevel.toNat ≤ level.toNat && s.filterLevel.toNat ≤ level.toNat

/-- A producer calls `log`. -/
def log (s : AsyncLogger n) (p : Fin n) (r : LogRecord) : Option (AsyncLogger n) :=
  match s.phase (.producer p) with
  | .outside () => some { s with toMonitor := s.goto (.producer p) (.locking r) }
  | _ => none

/-- The body of `log` with the mutex held; `target` is the thread that `notify_one` wakes. -/
def push (s : AsyncLogger n) (p : Fin n) (target : Option (LoggerThread n)) :
    Option (AsyncLogger n) :=
  match s.phase (.producer p) with
  | .inside r =>
    if s.shouldLog (LogRecord.level r) then
      (s.notifyOne? target).map fun mon =>
        { s with
          toMonitor := mon.release (.producer p) (.outside ())
          logQueue := s.logQueue ++ [r]
          errorMessages :=
            if LogRecord.level r = .error then s.errorMessages ++ [LogRecord.message r]
            else s.errorMessages
          accepted := s.accepted ++ [r] }
    else some { s with toMonitor := s.release (.producer p) (.outside ()) }
  | _ => none

/-- The predicate of `queueCondVar.wait`. -/
def test (s : AsyncLogger n) : Option (AsyncLogger n) :=
  match s.phase .background with
  | .inside BackgroundSection.test =>
    if !s.logQueue.isEmpty || !s.asyncLoggingEnabled then some { s with
      toMonitor := s.goto .background (.inside BackgroundSection.check) }
    else some { s with toMonitor := s.goto .background (.inside BackgroundSection.block) }
  | _ => none

def block (s : AsyncLogger n) : Option (AsyncLogger n) :=
  match s.phase .background with
  | .inside BackgroundSection.block => some { s with
      toMonitor := s.release .background (.parked BackgroundSection.test) }
  | _ => none

/-- `if (!asyncLoggingEnabled) return`. -/
def check (s : AsyncLogger n) : Option (AsyncLogger n) :=
  match s.phase .background with
  | .inside BackgroundSection.check =>
    if !s.asyncLoggingEnabled then some { s with
      toMonitor := s.release .background (.outside BackgroundAt.exited) }
    else some { s with toMonitor := s.goto .background (.inside BackgroundSection.take) }
  | _ => none

/-- The front of the queue is read and popped. -/
def take (s : AsyncLogger n) : Option (AsyncLogger n) :=
  match s.phase .background with
  | .inside BackgroundSection.take =>
    match s.logQueue with
    | r :: rest => some { s with
        toMonitor := s.release .background (.outside (BackgroundAt.writing r))
        logQueue := rest }
    | [] => none
  | _ => none

/-- The rest of the loop body, without the mutex. -/
def write (s : AsyncLogger n) : Option (AsyncLogger n) :=
  match s.phase .background with
  | .outside (BackgroundAt.writing r) => some { s with
      toMonitor := s.goto .background (.locking BackgroundSection.test)
      errorMessages :=
        if s.currentLogLevel = .error then s.errorMessages ++ [r.message] else s.errorMessages
      outputStream := s.outputStream ++ [r.formattedMsg] }
  | _ => none

/-- The steps of `disableAsyncLogging`; the thread was started, so it is joinable. -/
def disable (s : AsyncLogger n) (target : Option (LoggerThread n)) : Option (AsyncLogger n) :=
  match s.disabler with
  | .notCalled => some { s with disabler := .testing, acceptedBefore := s.accepted }
  | .testing =>
    if s.asyncLoggingEnabled then some { s with disabler := .storing }
    else some { s with disabler := .returned }
  | .storing => some { s with disabler := .notifying, asyncLoggingEnabled := false }
  | .notifying => (s.notifyOne? target).map fun mon =>
      { s with toMonitor := mon, disabler := .joining }
  | .joining =>
    match s.phase .background with
    | .outside BackgroundAt.exited => some { s with disabler := .returned }
    | _ => none
  | .returned => none

/-- `disable` carries the thread that its `notify_one` wakes; its other steps do not use it. -/
inductive Event (n : ℕ)
  | lock (t : LoggerThread n)
  | spurious (t : LoggerThread n)
  | log (p : Fin n) (r : LogRecord)
  | push (p : Fin n) (target : Option (LoggerThread n))
  | test
  | block
  | check
  | take
  | write
  | disable (target : Option (LoggerThread n))

def step (s : AsyncLogger n) : Event n → Option (AsyncLogger n)
  | .lock t => (s.lock? t).map fun mon => { s with toMonitor := mon }
  | .spurious t => (s.wake? t).map fun mon => { s with toMonitor := mon }
  | .log p r => s.log p r
  | .push p target => s.push p target
  | .test => s.test
  | .block => s.block
  | .check => s.check
  | .take => s.take
  | .write => s.write
  | .disable target => s.disable target

/-- What a step does, and under which condition. -/
inductive Stepped (s : AsyncLogger n) : Event n → AsyncLogger n → Prop
  | lock {u : LoggerThread n} {m : Monitor (LoggerThread n) LoggerThread.At LoggerThread.Section}
    (hm : s.lock? u = some m) : Stepped s (.lock u) { s with toMonitor := m }
  | spurious {u : LoggerThread n}
    {m : Monitor (LoggerThread n) LoggerThread.At LoggerThread.Section}
    (hm : s.wake? u = some m) : Stepped s (.spurious u) { s with toMonitor := m }
  | log {p : Fin n} (r : LogRecord) (hphase : s.phase (.producer p) = .outside ()) :
    Stepped s (.log p r) { s with toMonitor := s.goto (.producer p) (.locking r) }
  | accept {p : Fin n} {r : LogRecord} {target : Option (LoggerThread n)}
    {m : Monitor (LoggerThread n) LoggerThread.At LoggerThread.Section}
    (hphase : s.phase (.producer p) = .inside r) (hlog : s.shouldLog r.level = true)
    (hm : s.notifyOne? target = some m) : Stepped s (.push p target) { s with
      toMonitor := m.release (.producer p) (.outside ())
      logQueue := s.logQueue ++ [r]
      errorMessages := if r.level = .error then s.errorMessages ++ [r.message] else s.errorMessages
      accepted := s.accepted ++ [r] }
  | reject {p : Fin n} {r : LogRecord} {target : Option (LoggerThread n)}
    (hphase : s.phase (.producer p) = .inside r) (hlog : ¬ s.shouldLog r.level = true) :
    Stepped s (.push p target) { s with toMonitor := s.release (.producer p) (.outside ()) }
  | ready (hphase : s.phase .background = .inside BackgroundSection.test)
    (hready : (!s.logQueue.isEmpty || !s.asyncLoggingEnabled) = true) :
    Stepped s .test { s with toMonitor := s.goto .background (.inside BackgroundSection.check) }
  | idle (hphase : s.phase .background = .inside BackgroundSection.test)
    (hidle : ¬ (!s.logQueue.isEmpty || !s.asyncLoggingEnabled) = true) :
    Stepped s .test { s with toMonitor := s.goto .background (.inside BackgroundSection.block) }
  | block (hphase : s.phase .background = .inside BackgroundSection.block) :
    Stepped s .block { s with
      toMonitor := s.release .background (.parked BackgroundSection.test) }
  | exit (hphase : s.phase .background = .inside BackgroundSection.check)
    (hoff : s.asyncLoggingEnabled = false) :
    Stepped s .check { s with
      toMonitor := s.release .background (.outside BackgroundAt.exited) }
  | pass (hphase : s.phase .background = .inside BackgroundSection.check)
    (hon : s.asyncLoggingEnabled = true) :
    Stepped s .check { s with toMonitor := s.goto .background (.inside BackgroundSection.take) }
  | take {r : LogRecord} {rest : List LogRecord}
    (hphase : s.phase .background = .inside BackgroundSection.take)
    (hqueue : s.logQueue = r :: rest) : Stepped s .take { s with
      toMonitor := s.release .background (.outside (BackgroundAt.writing r))
      logQueue := rest }
  | write {r : LogRecord} (hphase : s.phase .background = .outside (BackgroundAt.writing r)) :
    Stepped s .write { s with
      toMonitor := s.goto .background (.locking BackgroundSection.test)
      errorMessages :=
        if s.currentLogLevel = .error then s.errorMessages ++ [r.message] else s.errorMessages
      outputStream := s.outputStream ++ [r.formattedMsg] }
  | call {target : Option (LoggerThread n)} (hd : s.disabler = .notCalled) :
    Stepped s (.disable target) { s with disabler := .testing, acceptedBefore := s.accepted }
  | enabled {target : Option (LoggerThread n)} (hd : s.disabler = .testing)
    (hon : s.asyncLoggingEnabled = true) :
    Stepped s (.disable target) { s with disabler := .storing }
  | disabled {target : Option (LoggerThread n)} (hd : s.disabler = .testing)
    (hoff : s.asyncLoggingEnabled = false) :
    Stepped s (.disable target) { s with disabler := .returned }
  | store {target : Option (LoggerThread n)} (hd : s.disabler = .storing) :
    Stepped s (.disable target) { s with disabler := .notifying, asyncLoggingEnabled := false }
  | notify {target : Option (LoggerThread n)}
    {m : Monitor (LoggerThread n) LoggerThread.At LoggerThread.Section}
    (hd : s.disabler = .notifying) (hm : s.notifyOne? target = some m) :
    Stepped s (.disable target) { s with toMonitor := m, disabler := .joining }
  | join {target : Option (LoggerThread n)} (hd : s.disabler = .joining)
    (hphase : s.phase .background = .outside BackgroundAt.exited) :
    Stepped s (.disable target) { s with disabler := .returned }

section

variable {s t : AsyncLogger n}

theorem stepped_of_push {p : Fin n} {target : Option (LoggerThread n)}
    (hs : s.push p target = some t) : Stepped s (.push p target) t := by
  unfold push at hs
  split at hs
  next r hphase =>
    split at hs
    next hlog =>
      obtain ⟨m, hm, rfl⟩ := Option.map_eq_some_iff.mp hs
      exact .accept hphase hlog hm
    next hlog =>
      obtain rfl := Option.some.inj hs
      exact .reject hphase hlog
  next => cases hs

theorem stepped_of_test (hs : s.test = some t) : Stepped s .test t := by
  unfold test at hs
  split at hs
  next hphase =>
    split_ifs at hs with hready
    · obtain rfl := Option.some.inj hs
      exact .ready hphase hready
    · obtain rfl := Option.some.inj hs
      exact .idle hphase hready
  next => cases hs

theorem stepped_of_check (hs : s.check = some t) : Stepped s .check t := by
  unfold check at hs
  split at hs
  next hphase =>
    split_ifs at hs with hflag
    · obtain rfl := Option.some.inj hs
      exact .exit hphase (by simpa only [Bool.not_eq_true'] using hflag)
    · obtain rfl := Option.some.inj hs
      exact .pass hphase (by simpa only [Bool.not_eq_true', Bool.not_eq_false] using hflag)
  next => cases hs

theorem stepped_of_take (hs : s.take = some t) : Stepped s .take t := by
  unfold take at hs
  split at hs
  next hphase =>
    split at hs
    next r rest hqueue =>
      obtain rfl := Option.some.inj hs
      exact .take hphase hqueue
    next => cases hs
  next => cases hs

theorem stepped_of_disable {target : Option (LoggerThread n)} (hs : s.disable target = some t) :
    Stepped s (.disable target) t := by
  unfold disable at hs
  split at hs
  next hd =>
    obtain rfl := Option.some.inj hs
    exact .call hd
  next hd =>
    split_ifs at hs with hflag
    · obtain rfl := Option.some.inj hs
      exact .enabled hd hflag
    · obtain rfl := Option.some.inj hs
      exact .disabled hd (Bool.eq_false_iff.mpr hflag)
  next hd =>
    obtain rfl := Option.some.inj hs
    exact .store hd
  next hd =>
    obtain ⟨m, hm, rfl⟩ := Option.map_eq_some_iff.mp hs
    exact .notify hd hm
  next hd =>
    split at hs
    next hphase =>
      obtain rfl := Option.some.inj hs
      exact .join hd hphase
    next => cases hs
  next => cases hs

theorem stepped_of_step {e : Event n} (hs : step s e = some t) : Stepped s e t := by
  cases e with
  | lock u =>
    obtain ⟨m, hm, rfl⟩ := Option.map_eq_some_iff.mp hs
    exact .lock hm
  | spurious u =>
    obtain ⟨m, hm, rfl⟩ := Option.map_eq_some_iff.mp hs
    exact .spurious hm
  | log p r =>
    simp only [step, log] at hs
    split at hs
    next hphase =>
      obtain rfl := Option.some.inj hs
      exact .log r hphase
    next => cases hs
  | push p target => exact stepped_of_push hs
  | test => exact stepped_of_test hs
  | block =>
    simp only [step, block] at hs
    split at hs
    next hphase =>
      obtain rfl := Option.some.inj hs
      exact .block hphase
    next => cases hs
  | check => exact stepped_of_check hs
  | take => exact stepped_of_take hs
  | write =>
    simp only [step, write] at hs
    split at hs
    next r hphase =>
      obtain rfl := Option.some.inj hs
      exact .write hphase
    next => cases hs
  | disable target => exact stepped_of_disable hs

end

/-! The queue is cut in two: what the background thread has taken or is about to pop, and what
waits behind it. -/

/-- The record that the background thread has in its hand, or passed its exit test for. -/
def holding (ph : Phase BackgroundAt BackgroundSection) (logQueue : List LogRecord) :
    List LogRecord :=
  match ph with
  | .outside (.writing r) => [r]
  | .inside .take => logQueue.head?.toList
  | _ => []

/-- The queued records that it has not got to. -/
def waiting (ph : Phase BackgroundAt BackgroundSection) (logQueue : List LogRecord) :
    List LogRecord :=
  match ph with
  | .inside .take => logQueue.tail
  | _ => logQueue

def backlog (s : AsyncLogger n) : List LogRecord := waiting (s.phase .background) s.logQueue

/-- What is written once the background thread has written what it holds. -/
def taken (s : AsyncLogger n) : List Bytes :=
  s.outputStream ++ (holding (s.phase .background) s.logQueue).map LogRecord.formattedMsg

/-- The background thread waits for the mutex, or is blocked, only for its predicate. -/
def Placed (ph : Phase BackgroundAt BackgroundSection) : Prop :=
  ∀ i, ph = .locking i ∨ ph = .parked i ∨ ph = .woken i → i = .test

@[simp] theorem holding_wake (ph : Phase BackgroundAt BackgroundSection) (q : List LogRecord) :
    holding ph.wake q = holding ph q := by
  cases ph <;> rfl

@[simp] theorem waiting_wake (ph : Phase BackgroundAt BackgroundSection) (q : List LogRecord) :
    waiting ph.wake q = waiting ph q := by
  cases ph <;> rfl

theorem Placed.wake {ph : Phase BackgroundAt BackgroundSection} (h : Placed ph) :
    Placed ph.wake := by
  cases ph with
  | parked i =>
    obtain rfl := h i (.inr (.inl rfl))
    rintro j (hj | hj | hj)
    · cases hj
    · cases hj
    · exact (Phase.woken.inj hj).symm
  | outside o => exact h
  | locking i => exact h
  | inside i => exact h
  | woken i => exact h

/-- The background thread locks the mutex to test the flag and the queue. -/
theorem Placed.section_of_lock {ph : Phase BackgroundAt BackgroundSection} (h : Placed ph)
    {i : BackgroundSection} (hphase : ph = .locking i ∨ ph = .woken i) : i = .test := by
  apply h i
  rcases hphase with hphase | hphase
  · exact .inl hphase
  · exact .inr (.inr hphase)

theorem placed_outside (o : BackgroundAt) : Placed (.outside o) := by
  rintro i (h | h | h) <;> cases h

theorem placed_inside (i : BackgroundSection) : Placed (.inside i) := by
  rintro j (h | h | h) <;> cases h

/-- Outside its critical section the background thread leaves the end of the queue alone. -/
theorem holding_concat {ph : Phase BackgroundAt BackgroundSection} (h : ¬ ph.Inside)
    (q : List LogRecord) (r : LogRecord) : holding ph (q ++ [r]) = holding ph q := by
  cases ph with
  | inside i => exact absurd ⟨i, rfl⟩ h
  | outside o => cases o <;> rfl
  | locking i | parked i | woken i => rfl

theorem waiting_concat {ph : Phase BackgroundAt BackgroundSection} (h : ¬ ph.Inside)
    (q : List LogRecord) (r : LogRecord) : waiting ph (q ++ [r]) = waiting ph q ++ [r] := by
  cases ph with
  | inside i => exact absurd ⟨i, rfl⟩ h
  | outside o | locking i | parked i | woken i => rfl

/-- The invariant of a run that begins with the records `earlier` in the queue. -/
structure Inv (earlier : List LogRecord) (s : AsyncLogger n) : Prop where
  exclusive : s.Exclusive
  placed : Placed (s.phase .background)
  conserved : s.taken ++ s.backlog.map LogRecord.formattedMsg =
    (earlier ++ s.accepted).map LogRecord.formattedMsg
  called : s.acceptedBefore <+: s.accepted
  flag : s.asyncLoggingEnabled = s.disabler.enabled
  exited : s.disabler = .returned → s.phase .background = .outside .exited

theorem inv_init (earlier : List LogRecord) (currentLogLevel filterLevel : LogLevel)
    (errorMessages : List Bytes) :
    Inv earlier (init n earlier currentLogLevel filterLevel errorMessages) where
  exclusive t := by
    cases t <;> exact iff_of_false nofun nofun
  placed i h := by
    rcases h with h | h | h
    · exact (Phase.locking.inj h).symm
    · cases h
    · cases h
  conserved := by
    simp only [taken, backlog, init, holding, waiting, List.map_nil, List.append_nil,
      List.nil_append]
  called := List.prefix_refl _
  flag := rfl
  exited := nofun

namespace Inv

variable {earlier : List LogRecord} {s t : AsyncLogger n}

/-- Steps that move threads only. -/
theorem of_monitor (h : Inv earlier s)
    {m : Monitor (LoggerThread n) LoggerThread.At LoggerThread.Section}
    (hex : m.Exclusive) (hplaced : Placed (m.phase .background))
    (hcut : holding (m.phase .background) s.logQueue ++ waiting (m.phase .background) s.logQueue =
      holding (s.phase .background) s.logQueue ++ waiting (s.phase .background) s.logQueue)
    (hexit : s.phase .background = .outside .exited → m.phase .background = .outside .exited) :
    Inv earlier { s with toMonitor := m } where
  exclusive := hex
  placed := hplaced
  conserved := by
    have hc := h.conserved
    simp only [taken, backlog, List.append_assoc, ← List.map_append] at hc ⊢
    rw [hcut, hc]
  called := h.called
  flag := h.flag
  exited hret := hexit (h.exited hret)

/-- Steps of other threads leave the background thread where it is, or wake it. -/
theorem of_wake (h : Inv earlier s)
    {m : Monitor (LoggerThread n) LoggerThread.At LoggerThread.Section} (hex : m.Exclusive)
    (hbg : m.phase .background = s.phase .background ∨
      m.phase .background = (s.phase .background).wake) :
    Inv earlier { s with toMonitor := m } := by
  apply h.of_monitor hex
  · rcases hbg with hbg | hbg <;> rw [hbg]
    · exact h.placed
    · exact h.placed.wake
  · rcases hbg with hbg | hbg <;> rw [hbg]
    rw [holding_wake, waiting_wake]
  · intro hout
    rcases hbg with hbg | hbg <;> rw [hbg, hout]
    rfl

theorem lock (h : Inv earlier s) {u : LoggerThread n}
    {m : Monitor (LoggerThread n) LoggerThread.At LoggerThread.Section}
    (hm : s.lock? u = some m) : Inv earlier { s with toMonitor := m } := by
  obtain ⟨i, hfree, hphase, rfl⟩ := Monitor.lock?_eq_some hm
  have hex := h.exclusive.lock hfree i
  cases u with
  | producer p => exact h.of_wake hex (.inl (Function.update_of_ne (background_ne p) (.inside i) _))
  | background =>
    obtain rfl := h.placed.section_of_lock hphase
    apply h.of_monitor hex
    · simp only [Function.update_self]
      exact placed_inside _
    · simp only [Function.update_self]
      rcases hphase with hphase | hphase <;> rw [hphase] <;> rfl
    · intro hout
      rcases hphase with hphase | hphase <;> rw [hphase] at hout <;> cases hout

theorem spurious (h : Inv earlier s) {u : LoggerThread n}
    {m : Monitor (LoggerThread n) LoggerThread.At LoggerThread.Section}
    (hm : s.wake? u = some m) : Inv earlier { s with toMonitor := m } := by
  obtain ⟨i, hphase, rfl⟩ := Monitor.wake?_eq_some hm
  apply h.of_wake (h.exclusive.wake hphase)
  cases u with
  | producer p => exact .inl (Monitor.goto_phase_of_ne _ (background_ne p) _)
  | background =>
    right
    simp only [Monitor.goto, Function.update_self, hphase, Phase.wake]

theorem log (h : Inv earlier s) {p : Fin n} (r : LogRecord)
    (hphase : s.phase (.producer p) = .outside ()) :
    Inv earlier { s with toMonitor := s.goto (.producer p) (.locking r) } := by
  apply h.of_wake
  · apply h.exclusive.goto
    · rw [hphase]
      exact Phase.not_inside_outside ()
    · exact Phase.not_inside_locking r
  · exact .inl (Monitor.goto_phase_of_ne _ (background_ne p) _)

/-- A producer that holds the mutex keeps the background thread out of the queue. -/
theorem not_inside_background (h : Inv earlier s) {p : Fin n}
    (hp : (s.phase (.producer p)).Inside) : ¬ (s.phase .background).Inside := by
  rw [h.exclusive .background, (h.exclusive (.producer p)).mp hp]
  nofun

theorem accept (h : Inv earlier s) {p : Fin n} {r : LogRecord} {target : Option (LoggerThread n)}
    {m : Monitor (LoggerThread n) LoggerThread.At LoggerThread.Section} (errorMessages : List Bytes)
    (hphase : s.phase (.producer p) = .inside r) (hm : s.notifyOne? target = some m) :
    Inv earlier { s with
      toMonitor := m.release (.producer p) (.outside ())
      logQueue := s.logQueue ++ [r]
      errorMessages := errorMessages
      accepted := s.accepted ++ [r] } := by
  have hwoken : (m.phase (.producer p)).Inside := by
    rcases Monitor.notifyOne?_phase hm (.producer p) with hq | hq <;> rw [hq, hphase]
    · exact Phase.inside_inside r
    · exact Phase.inside_inside r
  have hout := h.not_inside_background ⟨r, hphase⟩
  have hbg : (m.release (.producer p) (.outside ())).phase .background =
      m.phase .background := Monitor.release_phase_of_ne m (background_ne p) _
  have hcut : ∀ q, holding (m.phase .background) q = holding (s.phase .background) q ∧
      waiting (m.phase .background) q = waiting (s.phase .background) q := by
    intro q
    rcases Monitor.notifyOne?_phase hm .background with hq | hq <;> rw [hq]
    · exact ⟨rfl, rfl⟩
    · exact ⟨holding_wake _ q, waiting_wake _ q⟩
  constructor
  · exact (h.exclusive.notifyOne? hm).release hwoken (Phase.not_inside_outside ())
  · rw [hbg]
    rcases Monitor.notifyOne?_phase hm .background with hq | hq <;> rw [hq]
    · exact h.placed
    · exact h.placed.wake
  · have hc := h.conserved
    simp only [taken, backlog, hbg, (hcut _).1, (hcut _).2, holding_concat hout,
      waiting_concat hout, List.map_append, ← List.append_assoc] at hc ⊢
    rw [hc]
  · exact h.called.trans (List.prefix_append _ _)
  · exact h.flag
  · intro hret
    have hexited := h.exited hret
    rw [hbg]
    rcases Monitor.notifyOne?_phase hm .background with hq | hq <;> rw [hq, hexited]
    rfl

theorem reject (h : Inv earlier s) {p : Fin n} {r : LogRecord}
    (hphase : s.phase (.producer p) = .inside r) :
    Inv earlier { s with toMonitor := s.release (.producer p) (.outside ()) } := by
  apply h.of_wake
  · exact h.exclusive.release ⟨r, hphase⟩ (Phase.not_inside_outside ())
  · exact .inl (Monitor.release_phase_of_ne _ (background_ne p) _)

/-- Steps of the background thread inside its critical section, which keep the mutex. -/
theorem of_goto (h : Inv earlier s) {i j : BackgroundSection}
    (hphase : s.phase .background = .inside i)
    (hcut : holding (.inside j) s.logQueue ++ waiting (.inside j) s.logQueue =
      holding (.inside i) s.logQueue ++ waiting (.inside i) s.logQueue) :
    Inv earlier { s with toMonitor := s.goto .background (.inside j) } := by
  have hj : (s.goto .background (.inside j)).phase .background = .inside j :=
    Monitor.goto_phase_self ..
  apply h.of_monitor
  · -- the owner stays the background thread
    intro u
    by_cases hu : u = .background
    · subst hu
      rw [hj]
      exact iff_of_true ⟨j, rfl⟩ ((h.exclusive .background).mp ⟨i, hphase⟩)
    · simpa only [Monitor.goto, Function.update_of_ne hu] using h.exclusive u
  · rw [hj]
    exact placed_inside j
  · rw [hj, hphase]
    exact hcut
  · intro hout
    rw [hphase] at hout
    cases hout

/-- Steps with which it leaves the section, with nothing in its hand. -/
theorem of_release (h : Inv earlier s) {i : BackgroundSection} (hi : i ≠ .take)
    (hphase : s.phase .background = .inside i) {ph : Phase BackgroundAt BackgroundSection}
    (hplaced : Placed ph) (hout : ¬ ph.Inside) (hhold : ∀ q, holding ph q = []) :
    Inv earlier { s with toMonitor := s.release .background ph } := by
  have hbg : (s.release .background ph).phase .background = ph := Monitor.release_phase_self ..
  apply h.of_monitor
  · exact h.exclusive.release ⟨i, hphase⟩ hout
  · rw [hbg]
    exact hplaced
  · have hwait : waiting ph s.logQueue = s.logQueue := by
      cases ph with
      | inside j => exact absurd ⟨j, rfl⟩ hout
      | outside o | locking j | parked j | woken j => rfl
    rw [hbg, hphase, hhold, hwait]
    cases i with
    | take => exact absurd rfl hi
    | test | block | check => rfl
  · intro hexit
    rw [hphase] at hexit
    cases hexit

theorem block (h : Inv earlier s)
    (hphase : s.phase .background = .inside BackgroundSection.block) :
    Inv earlier { s with
      toMonitor := s.release .background (.parked BackgroundSection.test) } := by
  apply h.of_release (by decide) hphase
  · rintro i (hi | hi | hi)
    · cases hi
    · exact (Phase.parked.inj hi).symm
    · cases hi
  · exact Phase.not_inside_parked _
  · exact fun q => rfl

theorem take (h : Inv earlier s) {r : LogRecord} {rest : List LogRecord}
    (hphase : s.phase .background = .inside BackgroundSection.take)
    (hqueue : s.logQueue = r :: rest) :
    Inv earlier { s with
      toMonitor := s.release .background (.outside (BackgroundAt.writing r))
      logQueue := rest } := by
  have hbg : (s.release .background (.outside (.writing r))).phase .background =
      .outside (.writing r) := Monitor.release_phase_self ..
  constructor
  · exact h.exclusive.release ⟨_, hphase⟩ (Phase.not_inside_outside _)
  · rw [hbg]
    exact placed_outside _
  · have hc := h.conserved
    simp only [taken, backlog, hbg, hphase, hqueue] at hc ⊢
    exact hc
  · exact h.called
  · exact h.flag
  · intro hret
    have hexited := h.exited hret
    rw [hphase] at hexited
    cases hexited

theorem write (h : Inv earlier s) {r : LogRecord}
    (hphase : s.phase .background = .outside (BackgroundAt.writing r))
    (errorMessages : List Bytes) :
    Inv earlier { s with
      toMonitor := s.goto .background (.locking BackgroundSection.test)
      errorMessages := errorMessages
      outputStream := s.outputStream ++ [r.formattedMsg] } := by
  have hbg : (s.goto .background (.locking .test)).phase .background = .locking .test :=
    Monitor.goto_phase_self ..
  constructor
  · apply h.exclusive.goto
    · rw [hphase]
      exact Phase.not_inside_outside _
    · exact Phase.not_inside_locking _
  · rw [hbg]
    rintro i (hi | hi | hi)
    · exact (Phase.locking.inj hi).symm
    · cases hi
    · cases hi
  · have hc := h.conserved
    simp only [taken, backlog, hbg, hphase, holding, waiting, List.map_nil, List.append_nil,
      List.map_cons] at hc ⊢
    exact hc
  · exact h.called
  · exact h.flag
  · intro hret
    have hexited := h.exited hret
    rw [hphase] at hexited
    cases hexited

theorem flag_of (h : Inv earlier s) {d : DisableAt} (hd : s.disabler = d) :
    s.asyncLoggingEnabled = d.enabled := by
  rw [← hd]
  exact h.flag

theorem step (h : Inv earlier s) {e : Event n} (hs : AsyncLogger.step s e = some t) :
    Inv earlier t := by
  cases stepped_of_step hs with
  | lock hm => exact h.lock hm
  | spurious hm => exact h.spurious hm
  | log r hphase => exact h.log r hphase
  | accept hphase _ hm => exact h.accept _ hphase hm
  | reject hphase _ => exact h.reject hphase
  | ready hphase _ | idle hphase _ => exact h.of_goto hphase rfl
  | block hphase => exact h.block hphase
  | exit hphase _ =>
    exact h.of_release (by decide) hphase (placed_outside _) (Phase.not_inside_outside _)
      fun q => rfl
  | pass hphase _ =>
    apply h.of_goto hphase
    -- the front of the queue is as good as taken
    cases s.logQueue <;> rfl
  | take hphase hqueue => exact h.take hphase hqueue
  | write hphase => exact h.write hphase _
  | call hd =>
    exact ⟨h.exclusive, h.placed, h.conserved, List.prefix_refl _, (h.flag_of hd).trans rfl, nofun⟩
  | enabled hd hon => exact ⟨h.exclusive, h.placed, h.conserved, h.called, hon, nofun⟩
  | disabled hd hoff => cases hoff.symm.trans (h.flag_of hd)
  | store hd => exact ⟨h.exclusive, h.placed, h.conserved, h.called, rfl, nofun⟩
  | notify hd hm =>
    have hmon := h.of_wake (h.exclusive.notifyOne? hm) (Monitor.notifyOne?_phase hm .background)
    exact ⟨hmon.exclusive, hmon.placed, hmon.conserved, h.called, (h.flag_of hd).trans rfl, nofun⟩
  | join hd hphase =>
    exact ⟨h.exclusive, h.placed, h.conserved, h.called, (h.flag_of hd).trans rfl, fun _ => hphase⟩

end Inv

variable {earlier : List LogRecord} {s t : AsyncLogger n}

theorem taken_of_wake {m : Monitor (LoggerThread n) LoggerThread.At LoggerThread.Section}
    (hbg : m.phase .background = s.phase .background ∨
      m.phase .background = (s.phase .background).wake) :
    taken { s with toMonitor := m } = s.taken := by
  rcases hbg with hbg | hbg
  · simp only [taken, hbg]
  · simp only [taken, hbg, holding_wake]

theorem taken_goto {ph : Phase BackgroundAt BackgroundSection}
    (hhold : holding ph s.logQueue = holding (s.phase .background) s.logQueue) :
    taken { s with toMonitor := s.goto .background ph } = s.taken := by
  simp only [taken, Monitor.goto_phase_self, hhold]

theorem taken_release {ph : Phase BackgroundAt BackgroundSection}
    (hhold : holding ph s.logQueue = holding (s.phase .background) s.logQueue) :
    taken { s with toMonitor := s.release .background ph } = s.taken := by
  simp only [taken, Monitor.release_phase_self, hhold]

theorem taken_lock (h : Inv earlier s) {u : LoggerThread n}
    {m : Monitor (LoggerThread n) LoggerThread.At LoggerThread.Section}
    (hm : s.lock? u = some m) : taken { s with toMonitor := m } = s.taken := by
  obtain ⟨i, -, hphase, rfl⟩ := Monitor.lock?_eq_some hm
  cases u with
  | producer p => exact taken_of_wake (.inl (Function.update_of_ne (background_ne p) (.inside i) _))
  | background =>
    obtain rfl := h.placed.section_of_lock hphase
    simp only [taken, Function.update_self]
    rcases hphase with hphase | hphase <;> rw [hphase] <;> rfl

theorem taken_accept (h : Inv earlier s) {p : Fin n} {r : LogRecord}
    {target : Option (LoggerThread n)}
    {m : Monitor (LoggerThread n) LoggerThread.At LoggerThread.Section}
    (errorMessages : List Bytes) (hphase : s.phase (.producer p) = .inside r)
    (hm : s.notifyOne? target = some m) :
    taken { s with
      toMonitor := m.release (.producer p) (.outside ())
      logQueue := s.logQueue ++ [r]
      errorMessages := errorMessages
      accepted := s.accepted ++ [r] } = s.taken := by
  have hout := h.not_inside_background ⟨r, hphase⟩
  simp only [taken, Monitor.release_phase_of_ne m (background_ne p)]
  rcases Monitor.notifyOne?_phase hm .background with hq | hq <;> rw [hq]
  · rw [holding_concat hout]
  · rw [holding_wake, holding_concat hout]

/-- Only the call of `disableAsyncLogging` writes the flag, and what it saw accepted. -/
theorem step_frame {e : Event n} (hs : step s e = some t) :
    t.acceptedBefore = s.acceptedBefore ∧ t.asyncLoggingEnabled = s.asyncLoggingEnabled ∨
      ∃ target, e = .disable target := by
  cases stepped_of_step hs with
  | call | enabled | disabled | store | notify | join => exact .inr ⟨_, rfl⟩
  | _ => exact .inl ⟨rfl, rfl⟩

/-- The background thread takes a record from the queue only when it passes its exit test. -/
theorem taken_step (h : Inv earlier s) {e : Event n} (hs : step s e = some t)
    (hcheck : e = .check → s.asyncLoggingEnabled = false) : t.taken = s.taken := by
  cases stepped_of_step hs with
  | lock hm => exact taken_lock h hm
  | @spurious u m hm =>
    obtain ⟨i, hphase, rfl⟩ := Monitor.wake?_eq_some hm
    apply taken_of_wake
    cases u with
    | producer p => exact .inl (Monitor.goto_phase_of_ne _ (background_ne p) _)
    | background =>
      right
      rw [Monitor.goto_phase_self, hphase, Phase.wake]
  | @log p r hphase => exact taken_of_wake (.inl (Monitor.goto_phase_of_ne _ (background_ne p) _))
  | accept hphase _ hm => exact taken_accept h _ hphase hm
  | @reject p _ _ hphase _ =>
    exact taken_of_wake (.inl (Monitor.release_phase_of_ne _ (background_ne p) _))
  | ready hphase _ | idle hphase _ =>
    apply taken_goto
    rw [hphase]
    rfl
  | block hphase | exit hphase _ =>
    apply taken_release
    rw [hphase]
    rfl
  | pass hphase hon => cases hon.symm.trans (hcheck rfl)
  | take hphase hqueue =>
    simp only [taken, Monitor.release_phase_self, hphase, hqueue]
    rfl
  | write hphase =>
    simp only [taken, Monitor.goto_phase_self, hphase, holding, List.map_nil, List.map_cons,
      List.append_nil]
  | notify hd hm => exact taken_of_wake (Monitor.notifyOne?_phase hm .background)
  | call | enabled | disabled | store | join => rfl

/-- Of two ends of one list, the one is reached if the rest is short enough. -/
theorem prefix_drop_iff {α : Type} {earlier accepted before taken rest : List α}
    (hc : taken ++ rest = earlier ++ accepted) (hb : before <+: accepted) :
    before <+: taken.drop earlier.length ↔
      before = [] ∨ rest.length + before.length ≤ accepted.length := by
  have hlength : taken.length + rest.length = earlier.length + accepted.length := by
    rw [← List.length_append, hc, List.length_append]
  constructor
  · intro h
    have hle := h.length_le
    rw [List.length_drop] at hle
    by_cases hbefore : before = []
    · exact .inl hbefore
    · have hpos := List.length_pos_iff.mpr hbefore
      right
      omega
  · rintro (rfl | h)
    · exact List.nil_prefix
    · have hle : earlier.length ≤ taken.length := by omega
      -- both are beginnings of what was accepted
      have htaken : taken.drop earlier.length ++ rest = accepted := by
        have hdrop := congrArg (List.drop earlier.length) hc
        rwa [List.drop_append_of_le_length hle, List.drop_left] at hdrop
      have hbegin : taken.drop earlier.length <+: accepted := ⟨rest, htaken⟩
      apply List.prefix_of_prefix_length_le hb hbegin
      rw [List.length_drop]
      omega

/-- What was accepted before the call is among what is taken. -/
def Saved (earlier : List LogRecord) (s : AsyncLogger n) : Prop :=
  s.acceptedBefore.map LogRecord.formattedMsg <+: s.taken.drop earlier.length

/-- Nothing that was accepted before the call waits in the queue. -/
def Drained (s : AsyncLogger n) : Prop :=
  s.acceptedBefore = [] ∨ s.backlog.length + s.acceptedBefore.length ≤ s.accepted.length

theorem Inv.saved_iff_drained (h : Inv earlier s) : Saved earlier s ↔ Drained s := by
  have hc := h.conserved
  rw [List.map_append] at hc
  have hiff := prefix_drop_iff hc (h.called.map LogRecord.formattedMsg)
  simpa only [Saved, Drained, List.length_map, List.map_eq_nil_iff] using hiff

/-- The step that clears the flag is taken with nothing of that kind in the queue. -/
def ClearsDrained (s : AsyncLogger n) : Event n → Prop
  | .disable _ => s.disabler = .storing → Drained s
  | _ => True

/-- The flag is cleared by one step of the call, and stays cleared. -/
theorem flag_step (h : Inv earlier s) {e : Event n} (hs : step s e = some t) :
    (t.asyncLoggingEnabled = s.asyncLoggingEnabled ∧ ClearsDrained s e ∧
        (s.asyncLoggingEnabled = false → t.acceptedBefore = s.acceptedBefore)) ∨
      (s.asyncLoggingEnabled = true ∧ t.asyncLoggingEnabled = false ∧
        t.acceptedBefore = s.acceptedBefore ∧ (ClearsDrained s e ↔ Drained s)) := by
  have hother {target : Option (LoggerThread n)} {d : DisableAt} (hd : s.disabler = d)
      (hne : d ≠ .storing) : ClearsDrained s (.disable target) :=
    fun hst => absurd (hd.symm.trans hst) hne
  cases stepped_of_step hs with
  | store hd =>
    exact .inr ⟨h.flag_of hd, rfl, rfl, fun hclears => hclears hd, fun hdrained _ => hdrained⟩
  | call hd =>
    exact .inl ⟨rfl, hother hd (by decide), fun hoff => nomatch hoff.symm.trans (h.flag_of hd)⟩
  | enabled hd _ | disabled hd _ | notify hd _ | join hd _ =>
    exact .inl ⟨rfl, hother hd (by decide), fun _ => rfl⟩
  | _ => exact .inl ⟨rfl, trivial, fun _ => rfl⟩

/-- After that a run saves nothing more. -/
theorem saved_of_disabled (h : Inv earlier s) (hflag : s.asyncLoggingEnabled = false)
    {es : List (Event n)} (hrun : run step s es = some t) :
    (Saved earlier t ↔ Saved earlier s) ∧ Steps step ClearsDrained s es := by
  induction es generalizing s with
  | nil =>
    obtain rfl : s = t := by simpa using hrun
    exact ⟨Iff.rfl, trivial⟩
  | cons e es ih =>
    obtain ⟨u, hu, hrest⟩ := (run_cons_eq_some step).mp hrun
    rcases flag_step h hu with ⟨hsame, hclears, hbefore⟩ | ⟨hon, -⟩
    · obtain ⟨hsaved, hsteps⟩ := ih (h.step hu) (hsame.trans hflag) hrest
      have htaken := taken_step h hu fun _ => hflag
      refine ⟨hsaved.trans ?_, hclears, fun v hv => ?_⟩
      · rw [Saved, Saved, htaken, hbefore hflag]
      · obtain rfl : u = v := Option.some.inj (hu.symm.trans hv)
        exact hsteps
    · cases hon.symm.trans hflag

/-- A run that clears the flag saves what was accepted before the call exactly when nothing of it
was in the queue at that step. -/
theorem saved_iff_of_run (h : Inv earlier s) (hflag : s.asyncLoggingEnabled = true)
    {es : List (Event n)} (hrun : run step s es = some t) (ht : t.asyncLoggingEnabled = false) :
    Saved earlier t ↔ Steps step ClearsDrained s es := by
  induction es generalizing s with
  | nil =>
    obtain rfl : s = t := by simpa using hrun
    cases hflag.symm.trans ht
  | cons e es ih =>
    obtain ⟨u, hu, hrest⟩ := (run_cons_eq_some step).mp hrun
    have hnext : (∀ v, step s e = some v → Steps step ClearsDrained v es) ↔
        Steps step ClearsDrained u es := by
      refine ⟨fun hall => hall u hu, fun hall v hv => ?_⟩
      obtain rfl : u = v := Option.some.inj (hu.symm.trans hv)
      exact hall
    rw [Steps, hnext]
    rcases flag_step h hu with ⟨hsame, hclears, -⟩ | ⟨-, hoff, hbefore, hclears⟩
    · rw [ih (h.step hu) (hsame.trans hflag) hrest, and_iff_right hclears]
    · obtain ⟨hsaved, hsteps⟩ := saved_of_disabled (h.step hu) hoff hrest
      have htaken : u.taken = s.taken := by
        apply taken_step h hu
        rintro rfl
        -- the exit test does not write the flag
        rcases step_frame hu with ⟨-, hf⟩ | ⟨target, he⟩
        · cases hoff.symm.trans (hf.trans hflag)
        · cases he
      have hsame : Saved earlier u ↔ Saved earlier s := by
        rw [Saved, Saved, htaken, hbefore]
      rw [and_iff_left hsteps, hclears, ← h.saved_iff_drained, hsaved, hsame]

/-- When `disableAsyncLogging` has returned: the records that were accepted before the call have
been written in order, and nothing was written twice. -/
def Delivered (earlier : List LogRecord) (s : AsyncLogger n) : Prop :=
  s.acceptedBefore.map LogRecord.formattedMsg <+: s.outputStream.drop earlier.length ∧
    s.outputStream <+: (earlier ++ s.accepted).map LogRecord.formattedMsg

instance (earlier : List LogRecord) (s : AsyncLogger n) : Decidable (Delivered earlier s) :=
  inferInstanceAs (Decidable (_ ∧ _))

theorem Inv.delivered_iff_saved (h : Inv earlier s) (hret : s.disabler = .returned) :
    Delivered earlier s ↔ Saved earlier s := by
  have htaken : s.taken = s.outputStream := by
    have hnone : holding (.outside .exited) s.logQueue = [] := rfl
    rw [taken, h.exited hret, hnone, List.map_nil, List.append_nil]
  have hwritten : s.outputStream <+: (earlier ++ s.accepted).map LogRecord.formattedMsg := by
    rw [← h.conserved, htaken]
    exact List.prefix_append _ _
  rw [Delivered, Saved, htaken, and_iff_left hwritten]

theorem inv_of_run {es : List (Event n)} (h : Inv earlier s) (hrun : run step s es = some t) :
    Inv earlier t :=
  run_invariant_of_steps (G := fun _ _ => True) (fun _ _ _ hs _ => hs.step) h
    (steps_of_forall (fun _ _ => trivial) _ _) hrun

/-- In a run in which `disableAsyncLogging` returns, the messages accepted before its call have
been written exactly when none of them was in the queue as it cleared the flag. -/
theorem delivered_iff_cleared_drained {currentLogLevel filterLevel : LogLevel}
    {errorMessages : List Bytes} {es : List (Event n)}
    (hrun : run step (init n earlier currentLogLevel filterLevel errorMessages) es = some s)
    (hret : s.disabler = .returned) :
    Delivered earlier s ↔
      Steps step ClearsDrained (init n earlier currentLogLevel filterLevel errorMessages) es := by
  have hinit := inv_init (n := n) earlier currentLogLevel filterLevel errorMessages
  have hinv := inv_of_run hinit hrun
  have hoff : s.asyncLoggingEnabled = false := by
    rw [hinv.flag, hret]
    rfl
  rw [hinv.delivered_iff_saved hret]
  exact saved_iff_of_run hinit rfl hrun hoff

/-- A message is logged, and the flag is cleared before the background thread gets to it. -/
def disableEarly (r : LogRecord) : List (Event 1) :=
  [.log 0 r, .lock (.producer 0), .push 0 none, .disable none, .disable none, .disable none,
    .disable none, .lock .background, .test, .check, .disable none]

/-- The same with the message written first. -/
def disableLate (r : LogRecord) : List (Event 1) :=
  [.log 0 r, .lock (.producer 0), .push 0 none, .lock .background, .test, .check, .take, .write,
    .disable none, .disable none, .disable none, .disable none, .lock .background, .test, .check,
    .disable none]

def hello : LogRecord :=
  LogRecord.ofText .info (bytes "hello")
    ⟨bytes "2023-06-30 12:00:00", List.all_iff_forall_prop.mp (by decide)⟩ (bytes "Main")

theorem delivered_hello : ∃ s, run step (init 1 [] .info .none []) (disableLate hello) = some s ∧
    (Delivered [] s ↔ Steps step ClearsDrained (init 1 [] .info .none []) (disableLate hello)) := by
  have hrun : (run step (init 1 [] .info .none []) (disableLate hello)).map
      (fun s => decide (s.disabler = .returned)) = some true := by rfl
  obtain ⟨s, hs, hret⟩ := Option.map_eq_some_iff.mp hrun
  exact ⟨s, hs, delivered_iff_cleared_drained hs (of_decide_eq_true hret)⟩

/-- The message of the first run is lost. -/
theorem disableEarly_loses_message :
    ∃ s, run step (init 1 [] .info .none []) (disableEarly hello) = some s ∧
      s.disabler = .returned ∧ ¬ Delivered [] s := by
  have hrun : (run step (init 1 [] .info .none []) (disableEarly hello)).map
      (fun s => decide (s.disabler = .returned ∧ ¬ Delivered [] s)) = some true := by rfl
  obtain ⟨s, hs, hlost⟩ := Option.map_eq_some_iff.mp hrun
  exact ⟨s, hs, of_decide_eq_true hlost⟩

end AsyncLogger

end OpenAPT
