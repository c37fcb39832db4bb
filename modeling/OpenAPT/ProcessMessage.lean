import OpenAPT.CommandDispatcher

/-! `WebSocketServer::processMessage`, from the JSON of a message to the handler calls and replies
it makes, and `APTRunFunc`, the local way to the same handlers. -/
namespace OpenAPT.WebSocketServer
open CommandDispatcher

variable {H : Type*}

/-- What one run of `processMessage` does. `terminated` says that an exception left the function;
it runs on a detached thread, so that ends the process. -/
structure Processed (H : Type*) where
  ran : List (H × Json)
  replies : List Json
  terminated : Bool

def replyOk : Json := .object [(bytes "reply", .string (bytes "OK"))]

def replyError (what : Bytes) : Json := .object [(bytes "error", .string what)]

def missingParameter : Json := replyError (bytes "Missing parameter: name or params")

/-- The fixed replies are ASCII, so their `dump()` returns and sends them. -/
theorem fixed_replies_dumpable : replyOk.dumpable ∧ missingParameter.dumpable := by decide

/-- The `catch` block after the handler calls `ran`. `what()` is read as a C string, and `dump()`
throws out of the block if its text is not UTF-8. -/
def catchBlock (ran : List (H × Json)) (what : Bytes) : Processed H :=
  let reply := replyError (cStr what)
  if reply.dumpable then ⟨ran, [reply], false⟩ else ⟨ran, [], true⟩

def processMessage (call : H → Json → Outcome) (d : CommandDispatcher H) (payload : Bytes)
    (data : Json) : Processed H :=
  if payload.isEmpty then ⟨[], [], false⟩
  else if data.empty then ⟨[], [], false⟩
  else
    match data.find? (bytes "name"), data.find? (bytes "params") with
    | some nameField, some _params =>
      match nameField.getString with
      | .error e => catchBlock [] e.what
      | .ok name =>
        if d.hasHandler name then
          -- `Dispatch(name, {})`: the argument is a null made from the braces, not `params`
          let r := dispatch call d name .null
          match r.outcome with
          | .returned => ⟨r.ran, [replyOk], false⟩
          | .threw what => catchBlock r.ran what
          | .threwOther => ⟨r.ran, [], true⟩
        else ⟨[], [replyOk], false⟩
    | _, _ => ⟨[], [missingParameter], false⟩

/-- `APTRunFunc`. The Boolean is the return value where the handler returns. -/
def aptRunFunc (call : H → Json → Outcome) (d : CommandDispatcher H) (name : Bytes)
    (params : Json) : Bool × Dispatched H :=
  if d.hasHandler name then (true, dispatch call d name params) else (false, ⟨[], .returned⟩)

/-- The name and the params of a message that has both and whose name is a string. -/
def request? (data : Json) : Option (Bytes × Json) :=
  match data.find? (bytes "name"), data.find? (bytes "params") with
  | some (.string name), some params => some (name, params)
  | _, _ => none

/-- A message with these two fields and no others. -/
def requestJson (name : Bytes) (params : Json) : Json :=
  .object [(bytes "name", .string name), (bytes "params", params)]

theorem request?_eq_some {data : Json} {name : Bytes} {params : Json} :
    request? data = some (name, params) ↔
      data.find? (bytes "name") = some (.string name) ∧
        data.find? (bytes "params") = some params := by
  unfold request?
  constructor
  · intro h
    split at h
    · rename_i n p hn hp
      obtain ⟨rfl, rfl⟩ := Prod.mk.inj (Option.some.inj h)
      exact ⟨hn, hp⟩
    · cases h
  · rintro ⟨hn, hp⟩
    simp only [hn, hp]

theorem not_empty_of_find? {data field : Json} {key : Bytes} (h : data.find? key = some field) :
    data.empty = false := by
  cases data with
  | object o =>
    cases o with
    | nil => cases h
    | cons m o => rfl
  | _ => cases h

theorem replyError_dumpable {what : Bytes} : (replyError what).dumpable = validUtf8 what := by
  have hkey : validUtf8 (bytes "error") = true := by decide
  simp only [replyError, Json.dumpable, Json.dumpableMembers, Json.dumpableMember, hkey,
    Bool.true_and, Bool.and_true]

/-- The text of the type error of `get<std::string>()` is ASCII. -/
theorem getString_error {j : Json} {e : StdException} (h : j.getString = .error e) :
    validUtf8 (cStr e.what) = true := by
  cases j with
  | string s => cases h
  | _ =>
    obtain rfl := Except.error.inj h
    simp only [Json.typeName]
    decide

/-- A message that is no request gets one error reply and runs nothing. -/
theorem processMessage_of_request?_none (call : H → Json → Outcome) (d : CommandDispatcher H)
    {payload : Bytes} {data : Json} (hp : payload.isEmpty = false) (hd : data.empty = false)
    (h : request? data = none) :
    ∃ what, processMessage call d payload data = ⟨[], [replyError what], false⟩ := by
  unfold processMessage
  rw [hp, hd]
  simp only [Bool.false_eq_true, ↓reduceIte]
  split
  · rename_i nameField params hname hparams
    cases hs : nameField.getString with
    | error e =>
      refine ⟨cStr e.what, ?_⟩
      simp only [catchBlock, replyError_dumpable, getString_error hs, ↓reduceIte]
    | ok name =>
      cases nameField with
      | string s => simp only [request?, hname, hparams, reduceCtorEq] at h
      | _ => cases hs
  · exact ⟨_, rfl⟩

/-- A request whose hash has no handler is answered as if it had been carried out. -/
theorem processMessage_of_unknown (call : H → Json → Outcome) (d : CommandDispatcher H)
    {payload : Bytes} {data : Json} {name : Bytes} {params : Json} (hp : payload.isEmpty = false)
    (h : request? data = some (name, params))
    (hfind : KeyedList.find? (djb2Hash name) d.handlers_ = none) :
    processMessage call d payload data = ⟨[], [replyOk], false⟩ := by
  obtain ⟨hname, hparams⟩ := request?_eq_some.mp h
  simp only [processMessage, hp, not_empty_of_find? hname, hname, hparams, Json.getString,
    hasHandler, hfind, Option.isSome_none, Bool.false_eq_true, ↓reduceIte]

/-- A request whose hash has a handler runs that handler on a null. -/
theorem processMessage_of_found (call : H → Json → Outcome) (d : CommandDispatcher H)
    {payload : Bytes} {data : Json} {name : Bytes} {params : Json} {h : H}
    (hp : payload.isEmpty = false) (hreq : request? data = some (name, params))
    (hfind : KeyedList.find? (djb2Hash name) d.handlers_ = some h) :
    processMessage call d payload data =
      match call h .null with
      | .returned => ⟨[(h, .null)], [replyOk], false⟩
      | .threw what => catchBlock [(h, .null)] what
      | .threwOther => ⟨[(h, .null)], [], true⟩ := by
  obtain ⟨hname, hparams⟩ := request?_eq_some.mp hreq
  simp only [processMessage, hp, not_empty_of_find? hname, hname, hparams, Json.getString,
    hasHandler, dispatch, hfind, Option.isSome_some, Bool.false_eq_true, ↓reduceIte]

theorem catchBlock_ran (ran : List (H × Json)) (what : Bytes) :
    (catchBlock ran what).ran = ran := by
  unfold catchBlock
  dsimp only
  split <;> rfl

theorem processMessage_ran_of_found (call : H → Json → Outcome) (d : CommandDispatcher H)
    {payload : Bytes} {data : Json} {name : Bytes} {params : Json} {h : H}
    (hp : payload.isEmpty = false) (hreq : request? data = some (name, params))
    (hfind : KeyedList.find? (djb2Hash name) d.handlers_ = some h) :
    (processMessage call d payload data).ran = [(h, .null)] := by
  rw [processMessage_of_found call d hp hreq hfind]
  cases call h .null with
  | returned => rfl
  | threw what => exact catchBlock_ran _ what
  | threwOther => rfl

theorem replyOk_ne_replyError (what : Bytes) : replyOk ≠ replyError what := by
  intro h
  have hkey := congrArg (fun j : Json => j.contains (bytes "reply")) h
  cases hkey

/-- A handler was registered under the name of the message, and its run returned normally. -/
def Succeeded (call : H → Json → Outcome) (regs : List (Bytes × H)) (data : Json)
    (out : Processed H) : Prop :=
  ∃ name h arg, data.find? (bytes "name") = some (.string name) ∧
    lastRegistered (· = name) regs = some h ∧ (h, arg) ∈ out.ran ∧ call h arg = .returned

/-- The specification of the replies: one, a success reply exactly after a success. -/
def AnsweredOnce (call : H → Json → Outcome) (regs : List (Bytes × H)) (data : Json)
    (out : Processed H) : Prop :=
  ∃ reply, out.replies = [reply] ∧ (Succeeded call regs data out → reply = replyOk) ∧
    (¬ Succeeded call regs data out → ∃ what, reply = replyError what)

/-- If the message is a request, then the hash of its name has a handler, and on a null that handler
returns and is the one of the name itself, or throws an exception whose text can be dumped. -/
def Answerable (call : H → Json → Outcome) (regs : List (Bytes × H)) (data : Json) : Prop :=
  ∀ name params, request? data = some (name, params) →
    ∃ h, lastRegistered (fun n => djb2Hash n = djb2Hash name) regs = some h ∧
      match call h .null with
      | .returned => lastRegistered (· = name) regs = some h
      | .threw what => validUtf8 (cStr what) = true
      | .threwOther => False

theorem not_succeeded_of_ran_nil {call : H → Json → Outcome} {regs : List (Bytes × H)}
    {data : Json} {out : Processed H} (h : out.ran = []) : ¬ Succeeded call regs data out := by
  rintro ⟨name, f, arg, -, -, hran, -⟩
  rw [h] at hran
  cases hran

/-- After the run of one handler on a null, success means that the name has this handler and that
it returned. -/
theorem succeeded_iff_of_ran {call : H → Json → Outcome} {regs : List (Bytes × H)} {data : Json}
    {out : Processed H} {name params} {h : H} (hreq : request? data = some (name, params))
    (hran : out.ran = [(h, .null)]) :
    Succeeded call regs data out ↔
      lastRegistered (· = name) regs = some h ∧ call h .null = .returned := by
  have hname := (request?_eq_some.mp hreq).1
  constructor
  · rintro ⟨name', f, arg, hn, hf, hmem, hcall⟩
    rw [hname] at hn
    obtain rfl := Json.string.inj (Option.some.inj hn)
    rw [hran] at hmem
    obtain ⟨rfl, rfl⟩ := Prod.mk.inj (List.mem_singleton.mp hmem)
    exact ⟨hf, hcall⟩
  · rintro ⟨hf, hcall⟩
    exact ⟨name, h, .null, hname, hf, by rw [hran]; exact List.mem_singleton_self _, hcall⟩

/-- The reply to a request that found a handler. -/
theorem answeredOnce_of_found (call : H → Json → Outcome) (regs : List (Bytes × H))
    {payload : Bytes} {data : Json} {name : Bytes} {params : Json} {h : H}
    (hp : payload.isEmpty = false) (hreq : request? data = some (name, params))
    (hfind : KeyedList.find? (djb2Hash name) (registered regs).handlers_ = some h) :
    AnsweredOnce call regs data (processMessage call (registered regs) payload data) ↔
      match call h .null with
      | .returned => lastRegistered (· = name) regs = some h
      | .threw what => validUtf8 (cStr what) = true
      | .threwOther => False := by
  have hran := processMessage_ran_of_found call (registered regs) hp hreq hfind
  have hrun := processMessage_of_found call (registered regs) hp hreq hfind
  unfold AnsweredOnce
  rw [succeeded_iff_of_ran hreq hran, hrun]
  cases hcall : call h .null with
  | returned =>
    simp only [and_true]
    constructor
    · rintro ⟨reply, hreply, -, herr⟩
      obtain rfl : replyOk = reply := List.singleton_inj.mp hreply
      by_contra hne
      obtain ⟨what, hwhat⟩ := herr hne
      exact replyOk_ne_replyError what hwhat
    · intro hf
      exact ⟨replyOk, rfl, fun _ => rfl, fun hne => absurd hf hne⟩
  | threw what =>
    simp only [reduceCtorEq, and_false, false_imp_iff, not_false_eq_true, true_imp_iff, true_and,
      catchBlock, replyError_dumpable]
    by_cases hv : validUtf8 (cStr what) = true
    · simp only [hv, ↓reduceIte, iff_true]
      exact ⟨_, rfl, _, rfl⟩
    · simp only [hv, Bool.false_eq_true, ↓reduceIte, iff_false]
      rintro ⟨reply, hreply, -⟩
      cases hreply
  | threwOther =>
    simp only [iff_false]
    rintro ⟨reply, hreply, -⟩
    cases hreply

/-- A request for an unknown command is told that it succeeded. -/
theorem not_answeredOnce_of_unknown (call : H → Json → Outcome) (regs : List (Bytes × H))
    {payload : Bytes} {data : Json} {name : Bytes} {params : Json} (hp : payload.isEmpty = false)
    (hreq : request? data = some (name, params))
    (hfind : KeyedList.find? (djb2Hash name) (registered regs).handlers_ = none) :
    ¬ AnsweredOnce call regs data (processMessage call (registered regs) payload data) := by
  have hrun := processMessage_of_unknown call (registered regs) hp hreq hfind
  rintro ⟨reply, hreply, -, herr⟩
  rw [hrun] at hreply
  obtain rfl : replyOk = reply := List.singleton_inj.mp hreply
  obtain ⟨what, hwhat⟩ := herr (not_succeeded_of_ran_nil (by rw [hrun]))
  exact replyOk_ne_replyError what hwhat

/-- A non-empty message is answered once and truthfully exactly when it is no request or its request
is `Answerable`. -/
theorem processMessage_answers_iff (call : H → Json → Outcome) (regs : List (Bytes × H))
    (payload : Bytes) (data : Json) (hp : payload.isEmpty = false) (hd : data.empty = false) :
    AnsweredOnce call regs data (processMessage call (registered regs) payload data) ↔
      Answerable call regs data := by
  cases hreq : request? data with
  | none =>
    obtain ⟨what, hrun⟩ := processMessage_of_request?_none call (registered regs) hp hd hreq
    have hno : ¬ Succeeded call regs data (processMessage call (registered regs) payload data) :=
      not_succeeded_of_ran_nil (by rw [hrun])
    refine iff_of_true ?_ ?_
    · exact ⟨replyError what, by rw [hrun], fun hs => absurd hs hno, fun _ => ⟨what, rfl⟩⟩
    · intro name params h
      rw [hreq] at h
      cases h
  | some r =>
    obtain ⟨name, params⟩ := r
    have hslot := find?_registered (djb2Hash name) regs
    cases hfind : KeyedList.find? (djb2Hash name) (registered regs).handlers_ with
    | none =>
      refine iff_of_false (not_answeredOnce_of_unknown call regs hp hreq hfind) ?_
      intro h
      obtain ⟨f, hf, -⟩ := h name params hreq
      rw [← hslot, hfind] at hf
      cases hf
    | some f =>
      rw [answeredOnce_of_found call regs hp hreq hfind]
      rw [hfind] at hslot
      constructor
      · intro h name' params' hreq'
        rw [hreq] at hreq'
        obtain ⟨rfl, rfl⟩ := Prod.mk.inj (Option.some.inj hreq')
        exact ⟨f, hslot.symm, h⟩
      · intro h
        obtain ⟨g, hg, hout⟩ := h name params hreq
        rw [← hslot] at hg
        obtain rfl := Option.some.inj hg
        exact hout

/-- A command that is registered, whose handler returns, is answered once with a success reply. -/
theorem processMessage_answers_known :
    AnsweredOnce (fun _ _ => .returned) [(bytes "RunDeviceTask", ())]
      (requestJson (bytes "RunDeviceTask") .null)
      (processMessage (fun _ _ => .returned) (registered [(bytes "RunDeviceTask", ())])
        (bytes "\x7b\"name\":\"RunDeviceTask\",\"params\":null\x7d")
        (requestJson (bytes "RunDeviceTask") .null)) := by
  refine (processMessage_answers_iff _ _ _ _ rfl rfl).mpr ?_
  intro name params h
  obtain ⟨rfl, rfl⟩ := Prod.mk.inj (Option.some.inj h)
  exact ⟨(), by decide, by decide⟩

/-- A name nobody registered gets the success reply. -/
theorem processMessage_answers_unknown_ok :
    ¬ AnsweredOnce (fun _ _ => .returned) [(bytes "RunDeviceTask", ())]
      (requestJson (bytes "Foo") .null)
      (processMessage (fun _ _ => .returned) (registered [(bytes "RunDeviceTask", ())])
        (bytes "\x7b\"name\":\"Foo\",\"params\":null\x7d") (requestJson (bytes "Foo") .null)) :=
  not_answeredOnce_of_unknown _ _ rfl rfl (by decide)

theorem aptRunFunc_ran_of_found (call : H → Json → Outcome) (d : CommandDispatcher H)
    {name : Bytes} {h : H} (params : Json)
    (hfind : KeyedList.find? (djb2Hash name) d.handlers_ = some h) :
    (aptRunFunc call d name params).2.ran = [(h, params)] := by
  simp only [aptRunFunc, hasHandler, dispatch, hfind, Option.isSome_some, ↓reduceIte]

/-- A registered name always finds a handler, its own or one that hides it. -/
theorem find?_of_lastRegistered {regs : List (Bytes × H)} {name : Bytes} {h : H}
    (hlast : lastRegistered (· = name) regs = some h) :
    ∃ g, KeyedList.find? (djb2Hash name) (registered regs).handlers_ = some g := by
  have hreg : (lastRegistered (· = name) regs).isSome := by rw [hlast, Option.isSome_some]
  obtain ⟨r, hr, hname⟩ := (lastRegistered_isSome _ _).mp hreg
  apply Option.isSome_iff_exists.mp
  rw [find?_registered, lastRegistered_isSome]
  exact ⟨r, hr, by rw [hname]⟩

/-- The remote way: the handler of the name is run once, on `params`, as the local way does. -/
def PassesParams (call : H → Json → Outcome) (regs : List (Bytes × H)) (payload : Bytes)
    (data : Json) (name : Bytes) (params : Json) (h : H) : Prop :=
  (processMessage call (registered regs) payload data).ran = [(h, params)] ∧
    (processMessage call (registered regs) payload data).ran =
      (aptRunFunc call (registered regs) name params).2.ran

/-- A request for a registered command passes its params on exactly when they are null, and reaches
the handler of its name exactly when no later registration hides it. -/
theorem processMessage_passes_params_iff (call : H → Json → Outcome) (regs : List (Bytes × H))
    (payload : Bytes) (data : Json) (name : Bytes) (params : Json) (h : H)
    (hp : payload.isEmpty = false) (hname : data.find? (bytes "name") = some (.string name))
    (hparams : data.find? (bytes "params") = some params)
    (hlast : lastRegistered (· = name) regs = some h) :
    PassesParams call regs payload data name params h ↔
      params = .null ∧ lastRegistered (fun n => djb2Hash n = djb2Hash name) regs = some h := by
  have hreq : request? data = some (name, params) := request?_eq_some.mpr ⟨hname, hparams⟩
  obtain ⟨g, hfind⟩ := find?_of_lastRegistered hlast
  have hran := processMessage_ran_of_found call (registered regs) hp hreq hfind
  have hlocal := aptRunFunc_ran_of_found call (registered regs) params hfind
  rw [find?_registered] at hfind
  rw [PassesParams, hran, hlocal, hfind]
  simp only [List.cons.injEq, Prod.mk.injEq, and_true, true_and, Option.some.injEq]
  constructor
  · rintro ⟨⟨hg, hnull⟩, -⟩
    exact ⟨hnull.symm, hg⟩
  · rintro ⟨hnull, hg⟩
    exact ⟨⟨hg, hnull.symm⟩, hnull.symm⟩

/-- A null is passed on. -/
theorem processMessage_passes_null :
    PassesParams (fun _ _ => .returned) [(bytes "RunDeviceTask", ())]
      (bytes "\x7b\"name\":\"RunDeviceTask\",\"params\":null\x7d")
      (requestJson (bytes "RunDeviceTask") .null) (bytes "RunDeviceTask") .null () :=
  (processMessage_passes_params_iff _ _ _ _ _ _ _ rfl rfl rfl (by decide)).mpr
    ⟨rfl, by decide⟩

/-- Any other value is lost: the handler is run on a null. -/
theorem processMessage_drops_params :
    ¬ PassesParams (fun _ _ => .returned) [(bytes "RunDeviceTask", ())]
      (bytes "\x7b\"name\":\"RunDeviceTask\",\"params\":\"expose\"\x7d")
      (requestJson (bytes "RunDeviceTask") (.string (bytes "expose")))
      (bytes "RunDeviceTask") (.string (bytes "expose")) () := by
  rintro ⟨hran, -⟩
  rw [processMessage_ran_of_found _ _ rfl rfl (by rfl)] at hran
  cases hran

end OpenAPT.WebSocketServer
