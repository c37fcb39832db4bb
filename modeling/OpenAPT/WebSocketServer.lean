import OpenAPT.Lib.EventMachine
import OpenAPT.ProcessMessage

/-! `WebSocketServer` over whole runs: connections open and close, messages arrive on them, and each
message is processed on a detached thread that may run at any later moment. -/
namespace OpenAPT

/-- The remote endpoint of a connection. -/
structure Endpoint where
  ip : Bytes
  port : UInt16
  deriving DecidableEq

/-- A received message: whether its opcode is `text`, and its payload. -/
structure WsMessage where
  isText : Bool
  payload : Bytes

/-- What `onOpen` did with a connection: counted it, refused it at the limit, or left by an
exception of the endpoint lookup. The connection is open in all three cases. -/
inductive Admission
  | admitted
  | refused
  | failed
  deriving DecidableEq

/-- A detached thread that has not run yet: `processMessage` on a message of a connection. -/
structure Job (C : Type*) where
  hdl : C
  admission : Admission
  payload : Bytes
  data : Json

/-- A handler call, with the connection whose message caused it. -/
structure Invocation (C H : Type*) where
  hdl : C
  admission : Admission
  handler : H
  argument : Json

/-- The state of the server with what it has done so far. `connections` are the open ones, `clients`
the calls of `saveClientInfo`, `replies` those of `sendMessage`. -/
structure WebSocketServer (C H : Type*) where
  max_connections_ : ℤ
  active_connections_ : ℤ
  m_CommandDispatcher : CommandDispatcher H
  connections : List (C × Admission)
  clients : List Endpoint
  jobs : List (Job C)
  ran : List (Invocation C H)
  replies : List (C × Json)
  terminated : Bool

/-- What happens to a server. `peer` is the endpoint the lookup gives, `none` where it throws. -/
inductive WsEvent (C : Type*)
  | opened (hdl : C) (peer : Option Endpoint)
  | closed (hdl : C) (peer : Option Endpoint)
  | received (hdl : C) (peer : Option Endpoint) (msg : Option WsMessage)
  | scheduled (i : ℕ)

namespace WebSocketServer
open CommandDispatcher EventMachine

variable {C H : Type*}

/-- A server after its constructor, for any sequence of registrations in it. -/
def start (max_connections : ℤ) (regs : List (Bytes × H)) : WebSocketServer C H where
  max_connections_ := max_connections
  active_connections_ := 0
  m_CommandDispatcher := registered regs
  connections := []
  clients := []
  jobs := []
  ran := []
  replies := []
  terminated := false

/-- The member functions the constructor registers. -/
inductive Command
  | runDeviceTask
  | getDeviceInfo
  deriving DecidableEq

/-- The registrations of the constructor. -/
def commands : List (Bytes × Command) :=
  [(bytes "RunDeviceTask", .runDeviceTask), (bytes "GetDeviceInfo", .getDeviceInfo)]

def connect (s : WebSocketServer C H) (hdl : C) (admission : Admission) : WebSocketServer C H :=
  { s with connections := (hdl, admission) :: s.connections }

def onOpen (s : WebSocketServer C H) (hdl : C) (peer : Option Endpoint) : WebSocketServer C H :=
  if s.max_connections_ > 0 ∧ s.active_connections_ ≥ s.max_connections_ then
    -- the source only returns here, so the connection stays open
    s.connect hdl .refused
  else
    match peer with
    | none => s.connect hdl .failed
    | some endpoint =>
      { s.connect hdl .admitted with
        clients := s.clients ++ [endpoint]
        active_connections_ := s.active_connections_ + 1 }

/-- `onClose`, which looks at the endpoint but not at what `onOpen` did. -/
def onClose (s : WebSocketServer C H) (peer : Option Endpoint) : WebSocketServer C H :=
  match peer with
  | none => s
  | some _ => { s with active_connections_ := s.active_connections_ - 1 }

/-- `onMessage`; `parse` is `json::parse`, `none` where `json::accept` is false. -/
def onMessage (parse : Bytes → Option Json) (s : WebSocketServer C H) (hdl : C)
    (admission : Admission) (peer : Option Endpoint) (msg : Option WsMessage) :
    WebSocketServer C H :=
  match msg, peer with
  | some m, some _ =>
    if m.isText then
      match parse m.payload with
      | some data => { s with jobs := s.jobs ++ [⟨hdl, admission, m.payload, data⟩] }
      | none => s
    else s
  | _, _ => s

/-- The detached thread of a job runs. -/
def runJob (call : H → Json → Outcome) (s : WebSocketServer C H) (i : ℕ) (job : Job C) :
    WebSocketServer C H :=
  let r := processMessage call s.m_CommandDispatcher job.payload job.data
  { s with
    jobs := s.jobs.eraseIdx i
    ran := s.ran ++ r.ran.map fun c => ⟨job.hdl, job.admission, c.1, c.2⟩
    replies := s.replies ++ r.replies.map fun reply => (job.hdl, reply)
    terminated := r.terminated }

/-- One event. Only a connection that is not open can open, and only an open one can close or
receive; nothing happens after the process has terminated. -/
def step [DecidableEq C] (parse : Bytes → Option Json) (call : H → Json → Outcome)
    (s : WebSocketServer C H) (e : WsEvent C) : Option (WebSocketServer C H) :=
  if s.terminated then none
  else
    match e with
    | .opened hdl peer =>
      if (KeyedList.find? hdl s.connections).isSome then none else some (s.onOpen hdl peer)
    | .closed hdl peer =>
      if (KeyedList.find? hdl s.connections).isSome then
        some { s.onClose peer with connections := KeyedList.erase hdl s.connections }
      else none
    | .received hdl peer msg =>
      (KeyedList.find? hdl s.connections).map fun admission =>
        s.onMessage parse hdl admission peer msg
    | .scheduled i => s.jobs[i]?.map fun job => s.runJob call i job

/-- How many of the open connections `onOpen` admitted. -/
def admittedCount (s : WebSocketServer C H) : ℕ :=
  s.connections.countP fun c => c.2 = .admitted

/-- What the counter is for. -/
structure Counted (s : WebSocketServer C H) : Prop where
  count : s.active_connections_ = s.admittedCount
  limit : 0 < s.max_connections_ →
    0 ≤ s.active_connections_ ∧ s.active_connections_ ≤ s.max_connections_

/-- A connection that closes reaches the decrement exactly if it was admitted. -/
def ReleasesAdmitted [DecidableEq C] (s : WebSocketServer C H) (e : WsEvent C) : Prop :=
  ∀ hdl peer, e = .closed hdl peer →
    (peer.isSome ↔ KeyedList.find? hdl s.connections = some .admitted)

section Steps

variable [DecidableEq C] {parse : Bytes → Option Json} {call : H → Json → Outcome}
  {s t : WebSocketServer C H}

theorem step_opened {hdl : C} {peer : Option Endpoint}
    (h : step parse call s (.opened hdl peer) = some t) : t = s.onOpen hdl peer := by
  simp only [step] at h
  split_ifs at h
  exact (Option.some.inj h).symm

theorem step_closed {hdl : C} {peer : Option Endpoint}
    (h : step parse call s (.closed hdl peer) = some t) :
    ∃ admission, KeyedList.find? hdl s.connections = some admission ∧
      t = { s.onClose peer with connections := KeyedList.erase hdl s.connections } := by
  simp only [step] at h
  split_ifs at h with _ hopen
  obtain ⟨admission, ha⟩ := Option.isSome_iff_exists.mp hopen
  exact ⟨admission, ha, (Option.some.inj h).symm⟩

theorem step_received {hdl : C} {peer : Option Endpoint} {msg : Option WsMessage}
    (h : step parse call s (.received hdl peer msg) = some t) :
    ∃ admission, KeyedList.find? hdl s.connections = some admission ∧
      t = s.onMessage parse hdl admission peer msg := by
  simp only [step] at h
  split_ifs at h
  obtain ⟨admission, ha, rfl⟩ := Option.map_eq_some_iff.mp h
  exact ⟨admission, ha, rfl⟩

theorem step_scheduled {i : ℕ} (h : step parse call s (.scheduled i) = some t) :
    ∃ job, s.jobs[i]? = some job ∧ t = s.runJob call i job := by
  simp only [step] at h
  split_ifs at h
  obtain ⟨job, hj, rfl⟩ := Option.map_eq_some_iff.mp h
  exact ⟨job, hj, rfl⟩

end Steps

/-! ### The connection counter -/

theorem onOpen_counted {s : WebSocketServer C H} (hs : s.Counted) (hdl : C)
    (peer : Option Endpoint) : (s.onOpen hdl peer).Counted := by
  have hcount := hs.count
  have hlimit := hs.limit
  unfold onOpen
  split_ifs with hfull
  -- refused: one more connection that does not count
  · refine ⟨?_, hlimit⟩
    simpa only [connect, admittedCount, List.countP_cons, reduceCtorEq, decide_false,
      Bool.false_eq_true, ↓reduceIte, Nat.add_zero] using hcount
  · cases peer with
    | none =>
      refine ⟨?_, hlimit⟩
      simpa only [connect, admittedCount, List.countP_cons, reduceCtorEq, decide_false,
        Bool.false_eq_true, ↓reduceIte, Nat.add_zero] using hcount
    -- admitted: the connection and the counter go up together, and there was room
    | some endpoint =>
      constructor
      · simp only [connect, admittedCount, List.countP_cons, decide_true, ↓reduceIte] at hcount ⊢
        push_cast
        omega
      · intro hmax
        have hroom : s.active_connections_ < s.max_connections_ := by
          by_contra hge
          exact hfull ⟨hmax, by omega⟩
        have h := hlimit hmax
        change 0 ≤ s.active_connections_ + 1 ∧ s.active_connections_ + 1 ≤ s.max_connections_
        omega

/-- Messages and their threads do not touch what `Counted` speaks of. -/
theorem counted_congr {s t : WebSocketServer C H} (hconn : t.connections = s.connections)
    (hactive : t.active_connections_ = s.active_connections_)
    (hmax : t.max_connections_ = s.max_connections_) (hs : s.Counted) : t.Counted := by
  constructor
  · rw [hactive, hs.count, admittedCount, admittedCount, hconn]
  · rw [hactive, hmax]
    exact hs.limit

theorem onMessage_frame (parse : Bytes → Option Json) (s : WebSocketServer C H) (hdl : C)
    (admission : Admission) (peer : Option Endpoint) (msg : Option WsMessage) :
    ∃ jobs, s.onMessage parse hdl admission peer msg = { s with jobs := jobs } := by
  unfold onMessage
  split
  · split_ifs
    · split
      · exact ⟨_, rfl⟩
      · exact ⟨s.jobs, rfl⟩
    · exact ⟨s.jobs, rfl⟩
  · exact ⟨s.jobs, rfl⟩

theorem start_counted (max_connections : ℤ) (regs : List (Bytes × H)) :
    (start max_connections regs : WebSocketServer C H).Counted :=
  ⟨rfl, fun hmax => ⟨le_rfl, hmax.le⟩⟩

variable [DecidableEq C]

/-- A close keeps the counter right exactly when it decrements for an admitted connection. -/
theorem closed_counted_iff {s : WebSocketServer C H} (hs : s.Counted) {hdl : C}
    {admission : Admission} (peer : Option Endpoint)
    (hopen : KeyedList.find? hdl s.connections = some admission) :
    ({ s.onClose peer with connections := KeyedList.erase hdl s.connections } :
      WebSocketServer C H).Counted ↔ (peer.isSome ↔ admission = .admitted) := by
  have hcount := hs.count
  have hlimit := hs.limit
  have herase := KeyedList.countP_erase (fun c : C × Admission => decide (c.2 = .admitted)) hopen
  rw [admittedCount] at hcount
  cases peer with
  | none =>
    simp only [onClose, Option.isSome_none, Bool.false_eq_true, false_iff]
    by_cases ha : admission = .admitted
    · simp only [ha, decide_true, ↓reduceIte] at herase
      refine iff_of_false (fun h => ?_) (fun h => h ha)
      have h := h.count
      simp only [admittedCount] at h
      omega
    · simp only [ha, decide_false, Bool.false_eq_true, ↓reduceIte, Nat.add_zero] at herase
      refine iff_of_true ⟨?_, hlimit⟩ ha
      simp only [admittedCount]
      omega
  | some endpoint =>
    simp only [onClose, Option.isSome_some, true_iff]
    by_cases ha : admission = .admitted
    · simp only [ha, decide_true, ↓reduceIte] at herase
      refine iff_of_true ⟨?_, fun hmax => ?_⟩ ha
      · simp only [admittedCount]
        omega
      · have h := hlimit hmax
        change 0 ≤ s.active_connections_ - 1 ∧ s.active_connections_ - 1 ≤ s.max_connections_
        omega
    -- a refused connection closes: the counter goes down and no admitted one has left
    · simp only [ha, decide_false, Bool.false_eq_true, ↓reduceIte, Nat.add_zero] at herase
      refine iff_of_false (fun h => ?_) ha
      have h := h.count
      simp only [admittedCount] at h
      omega

/-- One event out of a state with a right counter leads to another exactly when it meets
`ReleasesAdmitted`. -/
theorem step_counted_iff (parse : Bytes → Option Json) (call : H → Json → Outcome)
    {s t : WebSocketServer C H} {e : WsEvent C} (hs : s.Counted)
    (h : step parse call s e = some t) : t.Counted ↔ s.ReleasesAdmitted e := by
  cases e with
  | opened hdl peer =>
    obtain rfl := step_opened h
    exact iff_of_true (onOpen_counted hs hdl peer) nofun
  | closed hdl peer =>
    obtain ⟨admission, hopen, rfl⟩ := step_closed h
    rw [closed_counted_iff hs peer hopen]
    constructor
    · rintro hiff hdl' peer' he
      obtain ⟨rfl, rfl⟩ := WsEvent.closed.inj he
      rw [hopen, Option.some.injEq]
      exact hiff
    · intro hrel
      have hiff := hrel hdl peer rfl
      rwa [hopen, Option.some.injEq] at hiff
  | received hdl peer msg =>
    obtain ⟨admission, -, rfl⟩ := step_received h
    obtain ⟨jobs, hjobs⟩ := onMessage_frame parse s hdl admission peer msg
    rw [hjobs]
    exact iff_of_true (counted_congr (s := s) rfl rfl rfl hs) nofun
  | scheduled i =>
    obtain ⟨job, -, rfl⟩ := step_scheduled h
    exact iff_of_true (counted_congr (s := s) rfl rfl rfl hs) nofun

/-- Over any run, the counter is right after every event exactly when every close is the release of
an admitted connection. -/
theorem active_connections_counts_iff (parse : Bytes → Option Json) (call : H → Json → Outcome)
    (max_connections : ℤ) (regs : List (Bytes × H)) (es : List (WsEvent C))
    (s : WebSocketServer C H) (h : run (step parse call) (start max_connections regs) es = some s) :
    States (step parse call) Counted (start max_connections regs) es ↔
      Steps (step parse call) ReleasesAdmitted (start max_connections regs) es :=
  states_iff_steps (I := fun _ => True) (fun _ _ _ _ _ => trivial)
    (fun _ _ _ _ hs hstep => step_counted_iff parse call hs hstep) trivial
    (start_counted max_connections regs) h

/-- The endpoint of the fixed runs below. -/
def localhost : Endpoint := ⟨bytes "127.0.0.1", 40000⟩

/-- One connection at a limit of one, opened and closed. -/
theorem active_connections_counts_admitted :
    States (step (fun _ => none) fun _ _ => .returned) Counted
      (start 1 commands : WebSocketServer ℕ Command)
      [.opened 0 localhost, .closed 0 localhost] := by
  refine (active_connections_counts_iff (fun _ => none) (fun _ _ => .returned) 1 commands
    [.opened 0 localhost, .closed 0 localhost] _ rfl).mpr ⟨nofun, ?_⟩
  intro s hs
  obtain rfl := Option.some.inj hs
  refine ⟨?_, fun _ _ => trivial⟩
  intro hdl peer he
  obtain ⟨rfl, rfl⟩ := WsEvent.closed.inj he
  exact iff_of_true rfl rfl

/-- At a limit of one a second connection is refused; when it closes, the counter is 0 while the
admitted connection is still open. -/
theorem refused_close_undercounts :
    ∃ s : WebSocketServer ℕ Command,
      run (step (fun _ => none) fun _ _ => .returned) (start 1 commands)
        [.opened 0 localhost, .opened 1 localhost, .closed 1 localhost] = some s ∧
      ¬ s.Counted := by
  refine ⟨_, rfl, fun h => ?_⟩
  have hcount := h.count
  revert hcount
  decide

/-! ### Messages on refused connections -/

/-- The message makes `processMessage` run a handler: it is a request whose hash has one. -/
def RunsHandler (d : CommandDispatcher H) (payload : Bytes) (data : Json) : Prop :=
  payload.isEmpty = false ∧
    ∃ name params, request? data = some (name, params) ∧ d.hasHandler name = true

/-- No handler has been run for a message of a connection refused at the limit. -/
def NoRefusedRun (s : WebSocketServer C H) : Prop :=
  ∀ c ∈ s.ran, c.admission ≠ .refused

/-- A thread that runs, if it was started for a refused connection, has no request for a registered
command. -/
def RefusedAreQuiet (s : WebSocketServer C H) (e : WsEvent C) : Prop :=
  ∀ i job, e = .scheduled i → s.jobs[i]? = some job → job.admission = .refused →
    ¬ RunsHandler s.m_CommandDispatcher job.payload job.data

/-- Handlers are run for exactly these messages. -/
theorem processMessage_ran_ne_nil_iff (call : H → Json → Outcome) (d : CommandDispatcher H)
    (payload : Bytes) (data : Json) :
    (processMessage call d payload data).ran ≠ [] ↔ RunsHandler d payload data := by
  by_cases hp : payload.isEmpty = true
  · refine iff_of_false (fun h => h ?_) fun h => ?_
    · simp only [processMessage, hp, ↓reduceIte]
    · exact absurd h.1 (by simp only [hp, Bool.true_eq_false, not_false_eq_true])
  have hp : payload.isEmpty = false := Bool.eq_false_iff.mpr hp
  cases hreq : request? data with
  | none =>
    refine iff_of_false (fun h => h ?_) fun h => ?_
    · by_cases hd : data.empty = true
      · simp only [processMessage, hp, hd, Bool.false_eq_true, ↓reduceIte]
      · obtain ⟨what, hrun⟩ :=
          processMessage_of_request?_none call d hp (Bool.eq_false_iff.mpr hd) hreq
        rw [hrun]
    · obtain ⟨-, name, params, hsome, -⟩ := h
      rw [hreq] at hsome
      cases hsome
  | some r =>
    obtain ⟨name, params⟩ := r
    cases hfind : KeyedList.find? (djb2Hash name) d.handlers_ with
    | none =>
      refine iff_of_false (fun h => h ?_) fun h => ?_
      · rw [processMessage_of_unknown call d hp hreq hfind]
      · obtain ⟨-, name', params', hsome, hhas⟩ := h
        rw [hreq] at hsome
        obtain ⟨rfl, rfl⟩ := Prod.mk.inj (Option.some.inj hsome)
        simp only [hasHandler, hfind, Option.isSome_none, Bool.false_eq_true] at hhas
    | some f =>
      have hran := processMessage_ran_of_found call d hp hreq hfind
      refine iff_of_true (by rw [hran]; exact List.cons_ne_nil _ _) ⟨hp, name, params, hreq, ?_⟩
      rw [hasHandler, hfind, Option.isSome_some]

omit [DecidableEq C] in
/-- The run of one thread keeps refused connections from handlers exactly if it is quiet. -/
theorem runJob_noRefusedRun_iff (call : H → Json → Outcome) {s : WebSocketServer C H}
    (hs : s.NoRefusedRun) (i : ℕ) (job : Job C) :
    (s.runJob call i job).NoRefusedRun ↔
      (job.admission = .refused → ¬ RunsHandler s.m_CommandDispatcher job.payload job.data) := by
  rw [← processMessage_ran_ne_nil_iff call, not_not]
  simp only [NoRefusedRun, runJob, List.mem_append, List.mem_map]
  constructor
  · intro h hrefused
    apply List.eq_nil_iff_forall_not_mem.mpr
    intro c hc
    exact h _ (Or.inr ⟨c, hc, rfl⟩) hrefused
  · rintro hquiet c (hc | ⟨d, hd, rfl⟩)
    · exact hs c hc
    · intro hrefused
      rw [hquiet hrefused] at hd
      cases hd

theorem step_noRefusedRun_iff (parse : Bytes → Option Json) (call : H → Json → Outcome)
    {s t : WebSocketServer C H} {e : WsEvent C} (hs : s.NoRefusedRun)
    (h : step parse call s e = some t) : t.NoRefusedRun ↔ s.RefusedAreQuiet e := by
  cases e with
  | opened hdl peer =>
    obtain rfl := step_opened h
    have hran : (s.onOpen hdl peer).ran = s.ran := by
      unfold onOpen
      split_ifs
      · rfl
      · cases peer <;> rfl
    exact iff_of_true (fun c hc => hs c (hran ▸ hc)) nofun
  | closed hdl peer =>
    obtain ⟨admission, -, rfl⟩ := step_closed h
    refine iff_of_true ?_ nofun
    cases peer <;> exact hs
  | received hdl peer msg =>
    obtain ⟨admission, -, rfl⟩ := step_received h
    obtain ⟨jobs, hjobs⟩ := onMessage_frame parse s hdl admission peer msg
    rw [hjobs]
    exact iff_of_true hs nofun
  | scheduled i =>
    obtain ⟨job, hjob, rfl⟩ := step_scheduled h
    rw [runJob_noRefusedRun_iff call hs]
    constructor
    · intro hq i' job' he hjob'
      obtain rfl := WsEvent.scheduled.inj he
      obtain rfl := Option.some.inj (hjob.symm.trans hjob')
      exact hq
    · intro hq
      exact hq i job rfl hjob

/-- Over any run, no handler is ever run for a refused connection exactly when every thread started
for one is quiet. -/
theorem refused_runs_nothing_iff (parse : Bytes → Option Json) (call : H → Json → Outcome)
    (max_connections : ℤ) (regs : List (Bytes × H)) (es : List (WsEvent C))
    (s : WebSocketServer C H) (h : run (step parse call) (start max_connections regs) es = some s) :
    States (step parse call) NoRefusedRun (start max_connections regs) es ↔
      Steps (step parse call) RefusedAreQuiet (start max_connections regs) es :=
  states_iff_steps (I := fun _ => True) (fun _ _ _ _ _ => trivial)
    (fun _ _ _ _ hs hstep => step_noRefusedRun_iff parse call hs hstep) trivial
    (fun _ hc => absurd hc List.not_mem_nil) h

/-- A refused connection may send what is no request. -/
theorem refused_runs_nothing_number :
    States (step (fun b => if b = bytes "5" then some (.numberUnsigned 5) else none)
      fun _ _ => .returned) NoRefusedRun (start 1 commands : WebSocketServer ℕ Command)
      [.opened 0 localhost, .opened 1 localhost, .received 1 localhost (some ⟨true, bytes "5"⟩),
        .scheduled 0] := by
  refine (refused_runs_nothing_iff
    (fun b => if b = bytes "5" then some (.numberUnsigned 5) else none)
    (fun _ _ => .returned) 1 commands _ _ rfl).mpr ⟨nofun, ?_⟩
  intro s hs
  obtain rfl := Option.some.inj hs
  refine ⟨nofun, fun s hs => ?_⟩
  obtain rfl := Option.some.inj hs
  refine ⟨nofun, fun s hs => ?_⟩
  obtain rfl := Option.some.inj hs
  refine ⟨?_, fun _ _ => trivial⟩
  intro i job he hjob _ hruns
  obtain rfl := WsEvent.scheduled.inj he
  obtain rfl := Option.some.inj hjob
  obtain ⟨-, name, params, hreq, -⟩ := hruns
  cases hreq

/-- The text of a request for a command of the server. -/
def runDeviceTaskText : Bytes := bytes "\x7b\"name\":\"RunDeviceTask\",\"params\":null\x7d"

/-- At a limit of one, a request on the refused second connection runs its handler. -/
theorem refused_request_runs_handler :
    ∃ s : WebSocketServer ℕ Command,
      run (step (fun b => if b = runDeviceTaskText then
          some (requestJson (bytes "RunDeviceTask") .null) else none) fun _ _ => .returned)
        (start 1 commands)
        [.opened 0 localhost, .opened 1 localhost,
          .received 1 localhost (some ⟨true, runDeviceTaskText⟩), .scheduled 0] = some s ∧
      ¬ s.NoRefusedRun := by
  refine ⟨_, rfl, fun h => ?_⟩
  exact h ⟨1, .refused, .runDeviceTask, .null⟩ List.mem_cons_self rfl

end WebSocketServer

end OpenAPT
