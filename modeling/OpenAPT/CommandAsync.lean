import OpenAPT.CommandManager
import OpenAPT.Lib.ErrorState
import OpenAPT.Lib.EventMachine
import OpenAPT.Mutex

/-! `CommandManager::runCommandAsync`. It keeps the mutex of the manager while it calls `addFuture`,
which locks the same mutex, and it returns the future it has given away. -/
namespace OpenAPT

open ErrorState EventMachine

/-- What a task that was started with `std::async` runs. -/
inductive AsyncTask (F : Type)
  | command (cmd : Bytes) (func : F) (arg : Bytes)
  | unknown

/-- The result the future of a task yields; `invoke` is what a function does on an argument. -/
def AsyncTask.result {F : Type} (invoke : F → Bytes → CommandOutcome) :
    AsyncTask F → CommandOutcome
  | command _ func arg => invoke func arg
  | unknown => .returned (bytes "\x1b[31mUnknown command\x1b[0m")

/-- The manager with the thread that holds its mutex, the tasks started so far and the futures it
keeps. A future is the number of its task. -/
structure AsyncManager (F : Type) extends CommandManager F where
  mutex_ : Option ℕ
  started : List (AsyncTask F)
  futures_ : List ℕ

/-- A call on a manager. A `runCommand` calls the function it finds while it has the mutex. The last
two do not lock it; the calls that only go back and forth in the history are left out. -/
inductive CommandCall (F : Type)
  | registerCommand (cmd : Bytes) (func : F)
  | runCommand (cmd arg : Bytes)
  | runCommandAsync (cmd arg : Bytes)
  | addFuture (future : ℕ)
  | join
  | addCommandHistory (cmd : Bytes)

namespace AsyncManager

variable {F : Type}

/-- A part of a call. Where it fails the call does not go on, and what it did stays. -/
abbrev CommandM (F : Type) := EStateM LockFailure (AsyncManager F)

def init : AsyncManager F := ⟨⟨[], [], 0⟩, none, [], []⟩

/-- `std::lock_guard<std::mutex> lock(mutex_)`. -/
def lock (thread : ℕ) : CommandM F Unit := do
  match (← get).mutex_ with
  | none => modify fun s => { s with mutex_ := some thread }
  | some owner => throw (if owner = thread then .relocks else .waits)

/-- The end of the block of a `lock_guard`. -/
def unlock : CommandM F Unit := modify fun s => { s with mutex_ := none }

/-- `std::async` with its future. -/
def async (task : AsyncTask F) : CommandM F ℕ := do
  let future := (← get).started.length
  modify fun s => { s with started := s.started ++ [task] }
  pure future

def addFuture (thread future : ℕ) : CommandM F Unit := do
  lock thread
  modify fun s => { s with futures_ := s.futures_ ++ [future] }
  unlock

/-- `none` is a future that was moved from. -/
def runCommandAsync (thread : ℕ) (cmd arg : Bytes) : CommandM F (Option ℕ) := do
  lock thread
  match KeyedList.find? cmd (← get).commands_ with
  | some func =>
    let future ← async (.command cmd func arg)
    addFuture thread future
    unlock
    pure none
  | none =>
    let future ← async .unknown
    unlock
    pure (some future)

def registerCommand (thread : ℕ) (cmd : Bytes) (func : F) : CommandM F Unit := do
  lock thread
  modify fun s => { s with
    toCommandManager := s.toCommandManager.registerCommand cmd func }
  unlock

/-- `runCommand` as far as it concerns the manager; the guard unlocks the mutex also if the function
throws. -/
def runCommand (thread : ℕ) (cmd arg : Bytes) : CommandM F Unit := do
  lock thread
  match KeyedList.find? cmd (← get).commands_ with
  | some _ => modify fun s => { s with
      toCommandManager := s.toCommandManager.remember cmd arg }
  | none => pure ()
  unlock

/-- `join`, once all tasks have ended: each future is erased, whether it was valid or not. -/
def join (s : AsyncManager F) : AsyncManager F := { s with futures_ := [] }

/-- The state a call leaves, whether it returns or not. -/
def after {α : Type} (call : CommandM F α) (s : AsyncManager F) : AsyncManager F :=
  match call s with
  | .ok _ s' => s'
  | .error _ s' => s'

/-- A call of a thread. One that tries to lock the mutex it holds makes no more calls. -/
def step (s : AsyncManager F) (e : ℕ × CommandCall F) : Option (AsyncManager F) :=
  if s.mutex_ = some e.1 then none
  else
    match e.2 with
    | .registerCommand cmd func => some (after (registerCommand e.1 cmd func) s)
    | .runCommand cmd arg => some (after (runCommand e.1 cmd arg) s)
    | .runCommandAsync cmd arg => some (after (runCommandAsync e.1 cmd arg) s)
    | .addFuture future => some (after (addFuture e.1 future) s)
    | .join => some s.join
    | .addCommandHistory cmd => some { s with
        toCommandManager := s.toCommandManager.addCommandHistory cmd }

/-- What the future of `runCommandAsync` should yield. -/
def expected (invoke : F → Bytes → CommandOutcome) (s : AsyncManager F) (cmd arg : Bytes) :
    CommandOutcome :=
  match KeyedList.find? cmd s.commands_ with
  | some func => invoke func arg
  | none => .returned (bytes "\x1b[31mUnknown command\x1b[0m")

/-- The call returns a valid future, and the future yields what it should. -/
def Usable (invoke : F → Bytes → CommandOutcome) (s : AsyncManager F) :
    ℕ × CommandCall F → Prop
  | (thread, .runCommandAsync cmd arg) => ∃ future task s',
      runCommandAsync thread cmd arg s = .ok (some future) s' ∧
        s'.started[future]? = some task ∧ task.result invoke = expected invoke s cmd arg
  | _ => True

/-- The call does not ask for a registered command. -/
def AsksUnknown (s : AsyncManager F) : ℕ × CommandCall F → Prop
  | (_, .runCommandAsync cmd _) => KeyedList.find? cmd s.commands_ = none
  | _ => True

variable {s t : AsyncManager F} {thread : ℕ} {cmd arg : Bytes}

/-! ### The parts of a call -/

theorem lock_of_free (hfree : s.mutex_ = none) (thread : ℕ) :
    lock thread s = .ok () { s with mutex_ := some thread } := by
  rw [lock, get_bind, hfree]
  rfl

theorem lock_of_owner (howner : s.mutex_ = some thread) :
    lock thread s = .error .relocks s := by
  rw [lock, get_bind, howner]
  simp only [↓reduceIte]
  rfl

/-- Without the command there is a task for the message, and the mutex is free again. -/
theorem runCommandAsync_of_find_none (hfree : s.mutex_ = none)
    (hfind : KeyedList.find? cmd s.commands_ = none) :
    runCommandAsync thread cmd arg s = .ok (some s.started.length)
      { s with mutex_ := none, started := s.started ++ [.unknown] } := by
  rw [runCommandAsync, bind_of_ok (lock_of_free hfree thread), get_bind, hfind]
  rfl

/-- With the command the thread gets to the second lock. -/
theorem runCommandAsync_of_find_some {func : F} (hfree : s.mutex_ = none)
    (hfind : KeyedList.find? cmd s.commands_ = some func) :
    runCommandAsync thread cmd arg s = .error .relocks
      { s with mutex_ := some thread, started := s.started ++ [.command cmd func arg] } := by
  have hasync : ∀ u : AsyncManager F, async (.command cmd func arg) u =
      .ok u.started.length { u with started := u.started ++ [.command cmd func arg] } := by
    intro u
    rfl
  -- the guard of the call is still there
  have hrelocks : ∀ future (u : AsyncManager F), u.mutex_ = some thread →
      addFuture thread future u = .error .relocks u := by
    intro future u howner
    rw [addFuture, bind_of_error (lock_of_owner howner)]
  rw [runCommandAsync, bind_of_ok (lock_of_free hfree thread), get_bind, hfind]
  exact (bind_of_ok (hasync _)).trans (bind_of_error (hrelocks _ _ rfl))

/-! ### Runs -/

/-- A call that asks for no registered command gives the mutex back. -/
theorem mutex_step (hfree : s.mutex_ = none) {e : ℕ × CommandCall F} (hasks : AsksUnknown s e)
    (h : step s e = some t) : t.mutex_ = none := by
  obtain ⟨thread, call⟩ := e
  have hother : s.mutex_ ≠ some thread := by
    rw [hfree]
    exact (Option.some_ne_none thread).symm
  rw [step, if_neg hother] at h
  cases call with
  | runCommandAsync cmd arg =>
    obtain rfl := Option.some.inj h
    have hfind : KeyedList.find? cmd s.commands_ = none := hasks
    rw [after, runCommandAsync_of_find_none hfree hfind]
  | registerCommand cmd func =>
    obtain rfl := Option.some.inj h
    rw [after, registerCommand, bind_of_ok (lock_of_free hfree thread)]
    rfl
  | runCommand cmd arg =>
    obtain rfl := Option.some.inj h
    rw [after, runCommand, bind_of_ok (lock_of_free hfree thread), get_bind]
    cases KeyedList.find? cmd s.commands_ with
    | none => rfl
    | some func => rfl
  | addFuture future =>
    obtain rfl := Option.some.inj h
    rw [after, addFuture, bind_of_ok (lock_of_free hfree thread)]
    rfl
  -- these leave the mutex alone
  | join | addCommandHistory cmd =>
    obtain rfl := Option.some.inj h
    exact hfree

/-- With the mutex free a call is usable exactly when it asks for no registered command. -/
theorem usable_iff (invoke : F → Bytes → CommandOutcome) (hfree : s.mutex_ = none)
    (e : ℕ × CommandCall F) : Usable invoke s e ↔ AsksUnknown s e := by
  obtain ⟨thread, call⟩ := e
  cases call with
  | runCommandAsync cmd arg =>
    cases hfind : KeyedList.find? cmd s.commands_ with
    | none =>
      refine iff_of_true ⟨_, .unknown, _, runCommandAsync_of_find_none hfree hfind, ?_, ?_⟩ hfind
      · rw [List.getElem?_append_right (Nat.le_refl _), Nat.sub_self]
        rfl
      · rw [expected, hfind]
        rfl
    | some func =>
      apply iff_of_false
      · rintro ⟨future, task, s', hok, -, -⟩
        rw [runCommandAsync_of_find_some hfree hfind] at hok
        cases hok
      · intro hnone
        exact Option.some_ne_none func (hfind.symm.trans hnone)
  | registerCommand cmd func => exact Iff.rfl
  | runCommand cmd arg => exact Iff.rfl
  | addFuture future => exact Iff.rfl
  | join => exact Iff.rfl
  | addCommandHistory cmd => exact Iff.rfl

/-- In a run of calls all of `runCommandAsync` are usable exactly when none of them asks for a
command that is registered. -/
theorem usable_iff_asksUnknown (invoke : F → Bytes → CommandOutcome)
    (events : List (ℕ × CommandCall F)) :
    Steps step (Usable invoke) init events ↔ Steps step AsksUnknown init events :=
  steps_congr_of_steps (I := fun s => s.mutex_ = none)
    (fun _ _ _ hfree hasks h => mutex_step hfree hasks h)
    (fun _ e hfree => usable_iff invoke hfree e) rfl events

/-- A registered command is asked for. -/
theorem runCommandAsync_relocks :
    ∃ s : AsyncManager Unit, run step init [(0, .registerCommand (bytes "echo") ())] = some s ∧
      (∃ s', runCommandAsync 1 (bytes "echo") (bytes "a") s = .error .relocks s') ∧
      ¬ Usable (fun _ arg => .returned arg) s (1, .runCommandAsync (bytes "echo") (bytes "a")) := by
  refine ⟨_, rfl, ⟨_, rfl⟩, ?_⟩
  rintro ⟨future, task, s', hok, -, -⟩
  cases hok

end AsyncManager

end OpenAPT
