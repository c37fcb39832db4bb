import OpenAPT.ServerLauncher

/-! The threads of the launcher: `main` with `ServerLauncher::run`, the thread that `start_server`
creates and waits for at the end, and the thread that reads the output of the server. -/
namespace OpenAPT

open EventMachine

/-- Where `main` is. `run` ends with `wait_for_server_to_exit`, which joins the server thread and
then clears `_server_running`. -/
inductive LauncherMain
  | gates
  | start_server
  | create_reader
  | set_server_running
  | stop_server
  | join
  | clear_server_running
  | is_running
  | set_stop_requested
  | notify
  | returned
  | threw
  | terminated
  deriving DecidableEq

/-- Where `_server_thread` is: at the test of its loop, at the predicate of `wait`, blocked there,
at the sending of the stop command, or back. -/
inductive ServerThread
  | none
  | loop
  | predicate
  | blocked
  | send
  | returned
  deriving DecidableEq

/-- Where `read_thread` is. -/
inductive ReadThread
  | none
  | fgets
  | clear_server_running
  | notify
  | returned
  deriving DecidableEq

/-- What `fgets` gives the reader: a line, a line with an error message, or nothing at the end of
the output. For a warning it sends an email, which throws if there is no connection. -/
inductive ServerOutput
  | line
  | error
  | warning (sent : Bool)
  | eof
  deriving DecidableEq

structure LauncherThreads where
  main : LauncherMain
  server_thread : ServerThread
  read_thread : ReadThread
  output_closed : Bool
  _stop_requested : Bool
  _server_running : Bool
  deriving DecidableEq

/-- A step of one of the threads; the server closes its output at some time. A blocked
`_server_thread` may also wake up without a notification. -/
inductive LauncherEvent
  | main
  | server_thread
  | read_thread (output : ServerOutput)
  | close_output
  deriving DecidableEq

namespace LauncherThreads

def init : LauncherThreads where
  main := .gates
  server_thread := .none
  read_thread := .none
  output_closed := false
  _stop_requested := false
  _server_running := false

/-- `_server_cv.notify_all()`. -/
def notify_all (s : LauncherThreads) : LauncherThreads :=
  { s with server_thread :=
      if s.server_thread = .blocked then .predicate else s.server_thread }

variable (env : LauncherEnvironment) (launcher : ServerLauncher) (disk : Bytes → FileState)
  (popen : Bytes → Bool)

/-- The server command is a string, and `_popen` returns a process for it. -/
def commandStarts : Bool :=
  match launcher._config.find? (bytes "server_command") with
  | some (.string cmd) => popen cmd
  | _ => false

def mainStep (s : LauncherThreads) : Option LauncherThreads :=
  match s.main with
  | .gates =>
    match ServerLauncher.run env launcher disk with
    | .throws _ => some { s with main := .threw }
    | .waits => none
    | .start_server _ _ _ => some { s with main := .start_server }
  | .start_server =>
    if commandStarts launcher popen then
      some { s with main := .create_reader, server_thread := .loop }
    else some { s with main := .threw }
  | .create_reader => some { s with main := .set_server_running, read_thread := .fgets }
  | .set_server_running => some { s with main := .stop_server, _server_running := true }
  | .stop_server => some { s with main := .join }
  | .join =>
    if s.server_thread = .returned then some { s with main := .clear_server_running } else none
  | .clear_server_running => some { s with main := .is_running, _server_running := false }
  | .is_running =>
    some { s with main := if s._server_running then .set_stop_requested else .returned }
  | .set_stop_requested => some { s with main := .notify, _stop_requested := true }
  | .notify => some { s.notify_all with main := .returned }
  | .returned => none
  | .threw => none
  | .terminated => none

def serverThreadStep (s : LauncherThreads) : Option LauncherThreads :=
  match s.server_thread with
  | .none => none
  | .loop => some { s with server_thread := if s._stop_requested then .send else .predicate }
  | .predicate =>
    some { s with server_thread :=
      if s._server_running || s._stop_requested then .loop else .blocked }
  | .blocked => some { s with server_thread := .predicate }
  | .send => some { s with server_thread := .returned }
  | .returned => none

def readThreadStep (s : LauncherThreads) (output : ServerOutput) : Option LauncherThreads :=
  match s.read_thread, output with
  | .fgets, .line => some s
  | .fgets, .error => some { s with read_thread := .clear_server_running }
  | .fgets, .warning true => some { s with read_thread := .clear_server_running }
  -- an exception that leaves the thread ends the program
  | .fgets, .warning false => some { s with main := .terminated }
  | .fgets, .eof =>
    if s.output_closed then some { s with read_thread := .clear_server_running } else none
  | .clear_server_running, _ => some { s with read_thread := .notify, _server_running := false }
  | .notify, _ => some { s.notify_all with read_thread := .returned }
  | _, _ => none

/-- The program has ended, and with it all threads. -/
def ended (s : LauncherThreads) : Bool :=
  s.main = .returned || s.main = .threw || s.main = .terminated

def step (s : LauncherThreads) (e : LauncherEvent) : Option LauncherThreads :=
  if s.ended then none
  else
    match e with
    | .main => mainStep env launcher disk popen s
    | .server_thread => serverThreadStep s
    | .read_thread output => readThreadStep s output
    | .close_output => some { s with output_closed := true }

/-- In the loop that only `_stop_requested` ends. -/
def InLoop (s : LauncherThreads) : Prop :=
  s.server_thread = .loop ∨ s.server_thread = .predicate ∨ s.server_thread = .blocked

/-- `run` is blocked in `wait_for_server_to_exit` on a thread that only `_stop_requested` can
release, and nobody has set it. -/
def Stuck (s : LauncherThreads) : Prop :=
  s.main = .join ∧ s.InLoop ∧ s._stop_requested = false

/-- The gates let `run` through, and there is a server process. -/
def ServerStarts : Prop :=
  (∃ disk' dependencies config_file,
    ServerLauncher.run env launcher disk = .start_server disk' dependencies config_file) ∧
  commandStarts launcher popen = true

/-- No server has been started, and there is no thread to wait for. -/
structure NotStarted (s : LauncherThreads) : Prop where
  main : s.main = .gates ∨
    (s.main = .start_server ∧ ∃ disk' dependencies config_file,
      ServerLauncher.run env launcher disk = .start_server disk' dependencies config_file) ∨
    s.main = .threw
  server_thread : s.server_thread = .none
  read_thread : s.read_thread = .none

variable {env launcher disk popen} {s t : LauncherThreads}

theorem InLoop.ne_none (h : s.InLoop) : s.server_thread ≠ .none := by
  rcases h with hs | hs | hs <;> rw [hs] <;> decide

theorem InLoop.ne_returned (h : s.InLoop) : s.server_thread ≠ .returned := by
  rcases h with hs | hs | hs <;> rw [hs] <;> decide

theorem InLoop.notify_all (h : s.InLoop) : s.notify_all.InLoop := by
  unfold LauncherThreads.notify_all InLoop
  dsimp only
  split_ifs with hblocked
  · exact Or.inr (Or.inl rfl)
  · exact h

/-- The server thread stays in its loop as long as no stop is requested. -/
theorem InLoop.serverThreadStep (h : s.InLoop) (hstop : s._stop_requested = false)
    (ht : serverThreadStep s = some t) : t.InLoop ∧ t.main = s.main ∧ t._stop_requested = false := by
  unfold LauncherThreads.serverThreadStep at ht
  rcases h with hs | hs | hs
  · rw [hs, hstop] at ht
    obtain rfl := Option.some.inj ht
    exact ⟨Or.inr (Or.inl rfl), rfl, rfl⟩
  · rw [hs] at ht
    obtain rfl := Option.some.inj ht
    refine ⟨?_, rfl, hstop⟩
    unfold InLoop
    dsimp only
    split_ifs
    · exact Or.inl rfl
    · exact Or.inr (Or.inr rfl)
  · rw [hs] at ht
    obtain rfl := Option.some.inj ht
    exact ⟨Or.inr (Or.inl rfl), rfl, hstop⟩

/-- The reader sets no stop flag, and wakes the server thread at most. -/
theorem InLoop.readThreadStep {output : ServerOutput} (h : s.InLoop)
    (ht : readThreadStep s output = some t) :
    t.InLoop ∧ (t.main = s.main ∨ t.main = .terminated) ∧
      t._stop_requested = s._stop_requested := by
  unfold LauncherThreads.readThreadStep at ht
  split at ht
  · obtain rfl := Option.some.inj ht
    exact ⟨h, Or.inl rfl, rfl⟩
  · obtain rfl := Option.some.inj ht
    exact ⟨h, Or.inl rfl, rfl⟩
  · obtain rfl := Option.some.inj ht
    exact ⟨h, Or.inl rfl, rfl⟩
  · obtain rfl := Option.some.inj ht
    exact ⟨h, Or.inr rfl, rfl⟩
  · split_ifs at ht
    obtain rfl := Option.some.inj ht
    exact ⟨h, Or.inl rfl, rfl⟩
  · obtain rfl := Option.some.inj ht
    exact ⟨h, Or.inl rfl, rfl⟩
  · obtain rfl := Option.some.inj ht
    exact ⟨h.notify_all, Or.inl rfl, rfl⟩
  · cases ht

/-- A stuck launcher stays stuck: no step of any thread gets `run` past the join. -/
theorem stuck_step {e : LauncherEvent} (h : s.Stuck) (ht : step env launcher disk popen s e = some t) :
    t.Stuck ∨ t.main = .terminated := by
  obtain ⟨hmain, hloop, hstop⟩ := h
  have hended : s.ended = false := by
    rw [ended, hmain]
    decide
  unfold step at ht
  rw [hended, if_neg Bool.false_ne_true] at ht
  cases e with
  | main =>
    -- the join waits for a thread that is in its loop
    dsimp only at ht
    rw [mainStep, hmain] at ht
    dsimp only at ht
    rw [if_neg hloop.ne_returned] at ht
    cases ht
  | server_thread =>
    obtain ⟨hloop', hmain', hstop'⟩ := hloop.serverThreadStep hstop ht
    exact Or.inl ⟨hmain'.trans hmain, hloop', hstop'⟩
  | read_thread output =>
    obtain ⟨hloop', hmain' | hend, hstop'⟩ := hloop.readThreadStep ht
    · exact Or.inl ⟨hmain'.trans hmain, hloop', hstop'.trans hstop⟩
    · exact Or.inr hend
  | close_output =>
    obtain rfl := Option.some.inj ht
    exact Or.inl ⟨hmain, hloop, hstop⟩

/-- Once `run` is stuck it never returns, whatever the threads and the server do. -/
theorem stuck_forever {events : List LauncherEvent} (h : s.Stuck)
    (hrun : EventMachine.run (step env launcher disk popen) s events = some t) :
    t.Stuck ∨ t.main = .terminated := by
  refine run_invariant_of_steps (I := fun s => s.Stuck ∨ s.main = .terminated)
    (G := fun _ _ => True) ?_ (Or.inl h) (steps_of_forall (fun _ _ => trivial) _ _) hrun
  intro u e v hu _ hv
  rcases hu with hstuck | hend
  · exact stuck_step hstuck hv
  · have hended : u.ended = true := by
      rw [ended, hend]
      decide
    unfold step at hv
    rw [hended, if_pos rfl] at hv
    cases hv

/-- A launcher that does not start a server gets no further than its start, and creates no
thread. -/
theorem notStarted_step (hstarts : ¬ ServerStarts env launcher disk popen) {e : LauncherEvent}
    (h : NotStarted env launcher disk s) (ht : step env launcher disk popen s e = some t) :
    NotStarted env launcher disk t := by
  obtain ⟨hmain, hserver, hread⟩ := h
  unfold step at ht
  split_ifs at ht with hended
  cases e with
  | main =>
    dsimp only at ht
    rcases hmain with hmain | ⟨hmain, hgates⟩ | hmain
    · rw [mainStep, hmain] at ht
      dsimp only at ht
      cases hrun : ServerLauncher.run env launcher disk with
      | throws e =>
        rw [hrun] at ht
        obtain rfl := Option.some.inj ht
        exact ⟨Or.inr (Or.inr rfl), hserver, hread⟩
      | waits =>
        rw [hrun] at ht
        cases ht
      | start_server disk' dependencies config_file =>
        rw [hrun] at ht
        obtain rfl := Option.some.inj ht
        exact ⟨Or.inr (Or.inl ⟨rfl, disk', dependencies, config_file, hrun⟩), hserver, hread⟩
    · have hno : ¬ commandStarts launcher popen = true := fun hcommand => hstarts ⟨hgates, hcommand⟩
      rw [mainStep, hmain] at ht
      dsimp only at ht
      rw [if_neg hno] at ht
      obtain rfl := Option.some.inj ht
      exact ⟨Or.inr (Or.inr rfl), hserver, hread⟩
    · rw [ended, hmain] at hended
      exact absurd rfl hended
  | server_thread =>
    dsimp only at ht
    rw [serverThreadStep, hserver] at ht
    cases ht
  | read_thread output =>
    dsimp only at ht
    rw [readThreadStep.eq_def, hread] at ht
    cases ht
  | close_output =>
    obtain rfl := Option.some.inj ht
    exact ⟨hmain, hserver, hread⟩

/-- Where a server starts, the launcher can get stuck: here the server has closed its output, the
reader has said so and is back, and the server thread has missed it or goes on waiting. -/
theorem exists_stuck (hstarts : ServerStarts env launcher disk popen) :
    ∃ s, Reachable (step env launcher disk popen) init s ∧ s.Stuck ∧
      s.output_closed = true ∧ s.read_thread = .returned ∧ s.server_thread = .blocked := by
  obtain ⟨⟨disk', dependencies, config_file, hrun⟩, hcommand⟩ := hstarts
  let started : LauncherThreads := { init with main := .start_server }
  let created : LauncherThreads := { init with main := .create_reader, server_thread := .loop }
  have hgates : step env launcher disk popen init .main = some started := by
    change mainStep env launcher disk popen init = some started
    rw [mainStep]
    dsimp only [init]
    rw [hrun]
    rfl
  have hstart : step env launcher disk popen started .main = some created := by
    change mainStep env launcher disk popen started = some created
    rw [mainStep]
    dsimp only [started]
    rw [hcommand, if_pos rfl]
  -- the reader and the join of `run`, then the server thread up to its wait
  let events : List LauncherEvent := [.main, .main, .close_output, .read_thread .eof,
    .read_thread .eof, .read_thread .eof, .main, .server_thread, .server_thread]
  let stuck : LauncherThreads :=
    { main := .join
      server_thread := .blocked
      read_thread := .returned
      output_closed := true
      _stop_requested := false
      _server_running := false }
  have hrest : EventMachine.run (step env launcher disk popen) created events = some stuck := rfl
  refine ⟨stuck, ⟨.main :: .main :: events, ?_⟩, ⟨rfl, Or.inr (Or.inr rfl), rfl⟩, rfl, rfl, rfl⟩
  exact (run_cons_eq_some _).mpr ⟨started, hgates, (run_cons_eq_some _).mpr ⟨created, hstart, hrest⟩⟩

/-- The launcher cannot get stuck at shutdown exactly if it does not start a server. -/
theorem never_stuck_iff (env : LauncherEnvironment) (launcher : ServerLauncher)
    (disk : Bytes → FileState) (popen : Bytes → Bool) :
    (∀ s, Reachable (step env launcher disk popen) init s → ¬ s.Stuck) ↔
      ¬ ServerStarts env launcher disk popen := by
  constructor
  · intro hnever hstarts
    obtain ⟨s, hreach, hstuck, -⟩ := exists_stuck hstarts
    exact hnever s hreach hstuck
  · intro hstarts s hreach hstuck
    have hinit : NotStarted env launcher disk init := ⟨Or.inl rfl, rfl, rfl⟩
    have hnot : NotStarted env launcher disk s :=
      reachable_invariant hinit (fun _ _ _ hs ht => notStarted_step hstarts hs ht) hreach
    exact hstuck.2.1.ne_none hnot.server_thread

/-- A configuration without resources whose server command is "server". -/
def serverConfig : Json :=
  .object [(bytes "resources", .array []), (bytes "server_command", .string (bytes "server"))]

/-- Its launcher is stuck when the server has ended. -/
theorem stuck_serverConfig :
    ¬ ∀ s, Reachable (step ServerLauncher.bareEnvironment ⟨bytes "config.json", serverConfig⟩
      (fun _ => .missing) fun _ => true) init s → ¬ s.Stuck := by
  intro hnever
  have hstarts : ServerStarts ServerLauncher.bareEnvironment ⟨bytes "config.json", serverConfig⟩
      (fun _ => .missing) fun _ => true := ⟨⟨_, _, _, rfl⟩, rfl⟩
  obtain ⟨s, hreach, hstuck, -⟩ := exists_stuck hstarts
  exact hnever s hreach hstuck

end LauncherThreads

end OpenAPT
