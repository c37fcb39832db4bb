import Mathlib.Data.Int.Notation
import OpenAPT.IMessage
import OpenAPT.Lib.FirstMatch

/-! The message store of `Device` and the notifications of its observers. -/
namespace OpenAPT
open FirstMatch

/-- `Task` stands for the pointers to simple tasks. -/
structure MessageInfo (Task : Type*) where
  message : IMessage
  task : Task
  deriving DecidableEq

/-- `Observer` stands for the functions in `observers`. -/
structure Device (Task Observer : Type*) where
  _name : Bytes
  _uuid : Bytes
  device_messages : List (MessageInfo Task)
  observers : List Observer

/-- The calls of one `IANotifyObservers`: who is called, with the new and the old message. -/
abbrev Calls (Observer : Type*) := List (Observer × IMessage × IMessage)

inductive DeviceOp (Task : Type*)
  | IAInsertMessage (message : IMessage) (task : Task)
  | IAUpdateMessage (identifier : Bytes) (newMessage : IMessage)
  | IARemoveMessage (identifier : Bytes)

/-- What an identifier is compared with: the UUID or the name. -/
def IMessage.matches (identifier : Bytes) (message : IMessage) : Bool :=
  message.message_uuid = identifier ∨ message.name = identifier

namespace Device

variable {Task Observer : Type*}

/-- `generated` is what the constructor of the message draws for its UUID. -/
def IACreateMessage (d : Device Task Observer) (generated message_name : Bytes)
    (message_value : StdAny) : IMessage :=
  ⟨d._name, d._uuid, generated, message_name, message_value⟩

/-- The iterator, as the messages before it, the one it points at and those after it. -/
def IAFindMessage (d : Device Task Observer) (identifier : Bytes) :
    Option (List (MessageInfo Task) × MessageInfo Task × List (MessageInfo Task)) :=
  split? (fun info => info.message.matches identifier) d.device_messages

def IANotifyObservers (d : Device Task Observer) (newMessage oldMessage : IMessage) :
    Calls Observer :=
  d.observers.map fun observer => (observer, newMessage, oldMessage)

/-- The overload with one argument. -/
def IANotifyObservers_removed (d : Device Task Observer) (removedMessage : IMessage) :
    Calls Observer :=
  d.observers.map fun observer => (observer, removedMessage, removedMessage)

def IAInsertMessage (d : Device Task Observer) (message : IMessage) (task : Task) :
    Device Task Observer × Calls Observer :=
  ({ d with device_messages := d.device_messages ++ [⟨message, task⟩] },
    d.IANotifyObservers_removed message)

def IAUpdateMessage (d : Device Task Observer) (identifier : Bytes) (newMessage : IMessage) :
    Device Task Observer × Calls Observer :=
  match d.IAFindMessage identifier with
  | some (before, it, after) =>
    ({ d with device_messages := before ++ { it with message := newMessage } :: after },
      d.IANotifyObservers newMessage it.message)
  | none => (d, [])

def IARemoveMessage (d : Device Task Observer) (identifier : Bytes) :
    Device Task Observer × Calls Observer :=
  match d.IAFindMessage identifier with
  | some (before, it, after) =>
    ({ d with device_messages := before ++ after }, d.IANotifyObservers_removed it.message)
  | none => (d, [])

/-- The message behind the pointer; `none` is the null pointer. -/
def IAGetMessage (d : Device Task Observer) (identifier : Bytes) : Option IMessage :=
  (d.IAFindMessage identifier).map fun s => s.2.1.message

def step (d : Device Task Observer) : DeviceOp Task → Device Task Observer × Calls Observer
  | .IAInsertMessage message task => d.IAInsertMessage message task
  | .IAUpdateMessage identifier newMessage => d.IAUpdateMessage identifier newMessage
  | .IARemoveMessage identifier => d.IARemoveMessage identifier

/-- The device after a run, and all the calls of observers in it. -/
def run (d : Device Task Observer) : List (DeviceOp Task) → Device Task Observer × Calls Observer
  | [] => (d, [])
  | op :: ops => (((d.step op).1.run ops).1, (d.step op).2 ++ ((d.step op).1.run ops).2)

/-- The messages of the store, without their tasks. -/
def messages (d : Device Task Observer) : List IMessage := d.device_messages.map (·.message)

variable {d : Device Task Observer} {identifier : Bytes}

/-- Where an identifier is found, the operations act on its first match. -/
theorem find_cases {old : IMessage} (h : d.IAGetMessage identifier = some old) :
    ∃ before it after, d.IAFindMessage identifier = some (before, it, after) ∧
      d.device_messages = before ++ it :: after ∧ it.message = old ∧
      ∀ info ∈ before, info.message.matches identifier = false := by
  obtain ⟨⟨before, it, after⟩, hfind, rfl⟩ := Option.map_eq_some_iff.mp h
  obtain ⟨hsplit, -, hbefore⟩ := split?_eq_some_iff.mp hfind
  exact ⟨before, it, after, hfind, hsplit, rfl, hbefore⟩

theorem matches_of_IAGetMessage {m : IMessage} (h : d.IAGetMessage identifier = some m) :
    m.matches identifier = true := by
  obtain ⟨⟨before, it, after⟩, hfind, rfl⟩ := Option.map_eq_some_iff.mp h
  exact (split?_eq_some_iff.mp hfind).2.1

theorem IAGetMessage_IAUpdateMessage_iff {old : IMessage}
    (h : d.IAGetMessage identifier = some old) (m : IMessage) :
    (d.IAUpdateMessage identifier m).1.IAGetMessage identifier = some m ↔
      m.matches identifier = true := by
  constructor
  · exact matches_of_IAGetMessage
  · intro hm
    obtain ⟨before, it, after, hfind, -, -, hbefore⟩ := find_cases h
    simp only [IAUpdateMessage, hfind]
    rw [IAGetMessage, IAFindMessage, split?_append_cons hbefore hm, Option.map_some]

theorem IAGetMessage_IARemoveMessage_iff {old : IMessage}
    (h : d.IAGetMessage identifier = some old) :
    (d.IARemoveMessage identifier).1.IAGetMessage identifier = none ↔
      d.messages.countP (·.matches identifier) = 1 := by
  obtain ⟨before, it, after, hfind, -⟩ := find_cases h
  have hcount := split?_remove_eq_none_iff hfind
  simp only [IARemoveMessage, hfind]
  rw [IAGetMessage, Option.map_eq_none_iff, IAFindMessage, hcount, messages, List.countP_map]
  rfl

/-- The laws of the store as a collection keyed by UUID or name. Names may repeat and an update
may change both, so the first match is what is updated, and what is removed; every other entry
stays, in its place. -/
theorem IAGetMessage_laws {old : IMessage} (h : d.IAGetMessage identifier = some old)
    (m : IMessage) :
    ((d.IAUpdateMessage identifier m).1.IAGetMessage identifier = some m ↔
      m.matches identifier = true) ∧
    ((d.IARemoveMessage identifier).1.IAGetMessage identifier = none ↔
      d.messages.countP (·.matches identifier) = 1) ∧
    ∃ before it after, d.device_messages = before ++ it :: after ∧ it.message = old ∧
      (d.IAUpdateMessage identifier m).1.device_messages =
        before ++ { it with message := m } :: after ∧
      (d.IARemoveMessage identifier).1.device_messages = before ++ after := by
  refine ⟨IAGetMessage_IAUpdateMessage_iff h m, IAGetMessage_IARemoveMessage_iff h, ?_⟩
  obtain ⟨before, it, after, hfind, hsplit, hold, -⟩ := find_cases h
  exact ⟨before, it, after, hsplit, hold, by simp only [IAUpdateMessage, hfind],
    by simp only [IARemoveMessage, hfind]⟩

end Device

def exposure (uuid : Bytes) : IMessage := ⟨[], [], uuid, bytes "exposure", .int 1⟩

def exposureStore : Device Unit Unit :=
  ((⟨[], [], [], []⟩ : Device Unit Unit).run
    [.IAInsertMessage (exposure (bytes "1a")) (), .IAInsertMessage (exposure (bytes "2b")) ()]).1

theorem exposureStore_laws :
    (exposureStore.IAUpdateMessage (bytes "1a") (exposure (bytes "3c"))).1.IAGetMessage
        (bytes "1a") = some (exposure (bytes "3c")) ↔
      (exposure (bytes "3c")).matches (bytes "1a") = true :=
  (Device.IAGetMessage_laws (show exposureStore.IAGetMessage (bytes "1a") =
    some (exposure (bytes "1a")) by decide) (exposure (bytes "3c"))).1

/-- Two messages have the name, and the new message does not. -/
theorem exposureStore_not_keyed :
    ∃ (ops : List (DeviceOp Unit)) (identifier : Bytes) (m old : IMessage),
      let d := ((⟨[], [], [], []⟩ : Device Unit Unit).run ops).1
      d.IAGetMessage identifier = some old ∧
        (d.IAUpdateMessage identifier m).1.IAGetMessage identifier ≠ some m ∧
        (d.IARemoveMessage identifier).1.IAGetMessage identifier ≠ none := by
  refine ⟨[.IAInsertMessage (exposure (bytes "1a")) (),
    .IAInsertMessage (exposure (bytes "2b")) ()], bytes "exposure",
    ⟨[], [], bytes "3c", bytes "gain", .int 2⟩, exposure (bytes "1a"), ?_⟩
  decide

/-- The kind of an operation that takes effect, with the task of an insertion. -/
inductive Change (Task : Type*)
  | inserted (task : Task)
  | updated
  | removed
  deriving DecidableEq

/-- A change with what the observers are told of it: the new and the old message. -/
abbrev Notice (Task : Type*) := Change Task × IMessage × IMessage

def Change.map {Task Task' : Type*} (g : Task → Task') : Change Task → Change Task'
  | .inserted task => .inserted (g task)
  | .updated => .updated
  | .removed => .removed

def MessageInfo.map {Task Task' : Type*} (g : Task → Task') (info : MessageInfo Task) :
    MessageInfo Task' :=
  ⟨info.message, g info.task⟩

def MessageInfo.holds {Task : Type*} (old : IMessage) (info : MessageInfo Task) : Bool :=
  info.message = old

def Notice.map {Task Task' : Type*} (g : Task → Task') (n : Notice Task) : Notice Task' :=
  (n.1.map g, n.2)

/-- An observer that knows the kind of every change can follow the store: what is updated or
removed is the first entry with the old message. -/
def follow {Task : Type*} (store : List (MessageInfo Task)) (n : Notice Task) :
    List (MessageInfo Task) :=
  match n.1, split? (MessageInfo.holds n.2.2) store with
  | .inserted task, _ => store ++ [⟨n.2.1, task⟩]
  | .updated, some (before, it, after) => before ++ { it with message := n.2.1 } :: after
  | .removed, some (before, _, after) => before ++ after
  | .updated, none | .removed, none => store

namespace Device

variable {Task Observer : Type*}

/-- The change made by an operation, if it takes effect. -/
def notice (d : Device Task Observer) : DeviceOp Task → Option (Notice Task)
  | .IAInsertMessage message task => some (.inserted task, message, message)
  | .IAUpdateMessage identifier newMessage =>
    (d.IAGetMessage identifier).map fun old => (.updated, newMessage, old)
  | .IARemoveMessage identifier =>
    (d.IAGetMessage identifier).map fun old => (.removed, old, old)

/-- The changes of a run, in order. -/
def notices (d : Device Task Observer) : List (DeviceOp Task) → List (Notice Task)
  | [] => []
  | op :: ops => (d.notice op).toList ++ (d.step op).1.notices ops

/-- The kinds of the changes of a run. -/
def changes (d : Device Task Observer) (ops : List (DeviceOp Task)) : List (Change Task) :=
  (d.notices ops).map Prod.fst

/-- What one observer is told in a run. -/
def received [DecidableEq Observer] (o : Observer) (calls : Calls Observer) :
    List (IMessage × IMessage) :=
  (calls.filter fun call => decide (call.1 = o)).map Prod.snd

variable {d : Device Task Observer} {identifier : Bytes}

theorem observers_step (op : DeviceOp Task) : (d.step op).1.observers = d.observers := by
  cases op with
  | IAInsertMessage message task => rfl
  | IAUpdateMessage identifier newMessage =>
    simp only [step, IAUpdateMessage]
    split <;> rfl
  | IARemoveMessage identifier =>
    simp only [step, IARemoveMessage]
    split <;> rfl

/-- The first entry with the message that is found is the entry that is found. -/
theorem split_message {s : List (MessageInfo Task) × MessageInfo Task × List (MessageInfo Task)}
    (h : d.IAFindMessage identifier = some s) :
    split? (MessageInfo.holds s.2.1.message) d.device_messages = some s := by
  obtain ⟨before, it, after⟩ := s
  obtain ⟨hsplit, hit, hbefore⟩ := split?_eq_some_iff.mp h
  refine split?_eq_some_iff.mpr ⟨hsplit, decide_eq_true rfl, fun info hinfo => ?_⟩
  have hno := hbefore info hinfo
  refine decide_eq_false fun heq => ?_
  rw [heq, hit] at hno
  cases hno

theorem step_eq (op : DeviceOp Task) :
    (d.step op).1.device_messages = (d.notice op).toList.foldl follow d.device_messages ∧
      (d.step op).2 =
        (d.notice op).toList.flatMap fun n => d.observers.map fun o => (o, n.2) := by
  cases op with
  | IAInsertMessage message task =>
    refine ⟨?_, ?_⟩
    · simp only [step, IAInsertMessage, notice, Option.toList_some, List.foldl_cons,
        List.foldl_nil, follow]
    · simp only [step, IAInsertMessage, notice, Option.toList_some, List.flatMap_cons,
        List.flatMap_nil, List.append_nil, IANotifyObservers_removed]
  | IAUpdateMessage identifier newMessage =>
    simp only [step, IAUpdateMessage, notice, IAGetMessage]
    cases h : d.IAFindMessage identifier with
    | none => exact ⟨rfl, rfl⟩
    | some s =>
      refine ⟨?_, ?_⟩
      · simp only [Option.map_some, Option.toList_some, List.foldl_cons, List.foldl_nil, follow,
          split_message h]
      · simp only [Option.map_some, Option.toList_some, List.flatMap_cons, List.flatMap_nil,
          List.append_nil, IANotifyObservers]
  | IARemoveMessage identifier =>
    simp only [step, IARemoveMessage, notice, IAGetMessage]
    cases h : d.IAFindMessage identifier with
    | none => exact ⟨rfl, rfl⟩
    | some s =>
      refine ⟨?_, ?_⟩
      · simp only [Option.map_some, Option.toList_some, List.foldl_cons, List.foldl_nil, follow,
          split_message h]
      · simp only [Option.map_some, Option.toList_some, List.flatMap_cons, List.flatMap_nil,
          List.append_nil, IANotifyObservers_removed]

theorem run_eq (ops : List (DeviceOp Task)) :
    (d.run ops).1.device_messages = (d.notices ops).foldl follow d.device_messages ∧
      (d.run ops).2 = (d.notices ops).flatMap fun n => d.observers.map fun o => (o, n.2) := by
  induction ops generalizing d with
  | nil => exact ⟨rfl, rfl⟩
  | cons op ops ih =>
    obtain ⟨hstore, hcalls⟩ := step_eq (d := d) op
    obtain ⟨ihstore, ihcalls⟩ := ih (d := (d.step op).1)
    simp only [run, notices, List.foldl_append, List.flatMap_append]
    rw [ihstore, ihcalls, hstore, hcalls, observers_step]
    exact ⟨rfl, rfl⟩

theorem received_map [DecidableEq Observer] (o : Observer) (observers : List Observer)
    (n : IMessage × IMessage) :
    received o (observers.map fun o' => (o', n)) = List.replicate (observers.count o) n := by
  induction observers with
  | nil => rfl
  | cons o' observers ih =>
    by_cases h : o' = o
    · subst h
      rw [List.count_cons_self, List.replicate_succ, ← ih]
      simp only [received, List.map_cons, decide_true, List.filter_cons_of_pos]
    · rw [List.count_cons_of_ne h, ← ih]
      simp only [received, List.map_cons, h, decide_false, Bool.false_eq_true, not_false_eq_true,
        List.filter_cons_of_neg]

/-- An observer is told each change once for each of its places in `observers`. -/
theorem received_run [DecidableEq Observer] (o : Observer) (ops : List (DeviceOp Task)) :
    received o (d.run ops).2 =
      ((d.notices ops).map Prod.snd).flatMap (List.replicate (d.observers.count o)) := by
  rw [(run_eq ops).2]
  induction d.notices ops with
  | nil => rfl
  | cons n ns ih =>
    have happend (calls calls' : Calls Observer) :
        received o (calls ++ calls') = received o calls ++ received o calls' := by
      simp only [received, List.filter_append, List.map_append]
    rw [List.flatMap_cons, happend, received_map, ih, List.map_cons, List.flatMap_cons]

theorem messages_eq (d : Device Task Observer) :
    d.messages = (d.device_messages.map (MessageInfo.map fun _ => ())).map (·.message) := by
  rw [List.map_map]
  rfl

theorem notices_eq_zip (ops : List (DeviceOp Task)) :
    d.notices ops = (d.changes ops).zip ((d.notices ops).map Prod.snd) := by
  rw [changes, List.zip_map', List.map_id'']
  exact fun n => rfl

end Device

/-- The tasks have no part in which entry is changed. -/
theorem follow_map {Task Task' : Type*} (g : Task → Task') (store : List (MessageInfo Task))
    (n : Notice Task) :
    (follow store n).map (MessageInfo.map g) =
      follow (store.map (MessageInfo.map g)) (n.map g) := by
  obtain ⟨change, new, old⟩ := n
  have hsplit := split?_map (p := MessageInfo.holds old) (MessageInfo.map g) store
  have hcomp : MessageInfo.holds old ∘ MessageInfo.map g = MessageInfo.holds old := rfl
  rw [hcomp] at hsplit
  cases change with
  | inserted task =>
    simp only [follow, Notice.map, Change.map, List.map_append, List.map_cons, List.map_nil,
      MessageInfo.map]
  | updated =>
    simp only [follow, Notice.map, Change.map, hsplit]
    cases split? (MessageInfo.holds old) store with
    | none => rfl
    | some s => simp only [Option.map_some, List.map_append, List.map_cons, MessageInfo.map]
  | removed =>
    simp only [follow, Notice.map, Change.map, hsplit]
    cases split? (MessageInfo.holds old) store with
    | none => rfl
    | some s => simp only [Option.map_some, List.map_append]

theorem foldl_follow_map {Task Task' : Type*} (g : Task → Task') (ns : List (Notice Task))
    (store : List (MessageInfo Task)) :
    (ns.foldl follow store).map (MessageInfo.map g) =
      (ns.map (Notice.map g)).foldl follow (store.map (MessageInfo.map g)) := by
  induction ns generalizing store with
  | nil => rfl
  | cons n ns ih => rw [List.foldl_cons, ih, follow_map, List.map_cons, List.foldl_cons]

theorem flatMap_replicate_inj {α : Type*} {k : ℕ} (hk : 0 < k) {l l' : List α}
    (h : l.flatMap (List.replicate k) = l'.flatMap (List.replicate k)) : l = l' := by
  obtain ⟨j, rfl⟩ : ∃ j, k = j + 1 := ⟨k - 1, by omega⟩
  induction l generalizing l' with
  | nil =>
    cases l' with
    | nil => rfl
    | cons a l' => cases h
  | cons a l ih =>
    cases l' with
    | nil => cases h
    | cons b l' =>
      rw [List.flatMap_cons, List.flatMap_cons] at h
      have hlength : (List.replicate (j + 1) a).length = (List.replicate (j + 1) b).length := by
        rw [List.length_replicate, List.length_replicate]
      obtain ⟨hhead, htail⟩ := List.append_inj h hlength
      rw [List.replicate_succ, List.replicate_succ] at hhead
      rw [(List.cons.inj hhead).1, ih htail]

namespace Device

variable {Task Observer : Type*} [DecidableEq Observer] {d : Device Task Observer}

theorem notices_eq_of_received {o : Observer} (ho : o ∈ d.observers)
    {ops ops' : List (DeviceOp Task)}
    (h : received o (d.run ops).2 = received o (d.run ops').2) :
    (d.notices ops).map Prod.snd = (d.notices ops').map Prod.snd := by
  rw [received_run, received_run] at h
  exact flatMap_replicate_inj (List.count_pos_iff.mpr ho) h

/-- Two runs with the same notifications end with the same messages when the notified changes are
of the same kinds, and with the same entries when the inserted tasks are the same as well. -/
theorem store_determined {o : Observer} (ho : o ∈ d.observers) {ops ops' : List (DeviceOp Task)}
    (h : received o (d.run ops).2 = received o (d.run ops').2) :
    ((d.changes ops).map (Change.map fun _ => ()) = (d.changes ops').map (Change.map fun _ => ()) →
      (d.run ops).1.messages = (d.run ops').1.messages) ∧
    (d.changes ops = d.changes ops' →
      (d.run ops).1.device_messages = (d.run ops').1.device_messages) := by
  have hnotices := notices_eq_of_received ho h
  constructor
  · intro hkinds
    have hzip : ∀ l : List (DeviceOp Task), (d.notices l).map (Notice.map fun _ => ()) =
        ((d.changes l).map (Change.map fun _ => ())).zip ((d.notices l).map Prod.snd) := by
      intro l
      rw [changes, List.map_map, List.zip_map']
      rfl
    rw [messages_eq, messages_eq, (run_eq ops).1, (run_eq ops').1, foldl_follow_map,
      foldl_follow_map, hzip, hzip, hkinds, hnotices]
  · intro hchanges
    rw [(run_eq ops).1, (run_eq ops').1, notices_eq_zip ops, notices_eq_zip ops', hchanges, hnotices]

end Device

/-- How a change of each kind alters the number of entries. -/
def Change.entries {Task : Type*} : Change Task → ℤ
  | .inserted _ => 1
  | .updated => 0
  | .removed => -1

theorem Change.entries_inj {Task Task' : Type*} {c : Change Task} {c' : Change Task'}
    (h : c.entries = c'.entries) : (c.map fun _ => ()) = c'.map fun _ => () := by
  cases c <;> cases c' <;> first | rfl | (simp only [Change.entries] at h; omega)

namespace Device

variable {Task Observer : Type*} {d : Device Task Observer}

theorem length_step {op : DeviceOp Task} {n : Notice Task} (h : d.notice op = some n) :
    ((d.step op).1.device_messages.length : ℤ) = d.device_messages.length + n.1.entries := by
  cases op with
  | IAInsertMessage message task =>
    obtain rfl := Option.some.inj h
    simp only [step, IAInsertMessage, List.length_append, List.length_singleton, Change.entries]
    omega
  | IAUpdateMessage identifier newMessage =>
    obtain ⟨old, hold, rfl⟩ := Option.map_eq_some_iff.mp h
    obtain ⟨before, it, after, hfind, hsplit, -⟩ := find_cases hold
    simp only [step, IAUpdateMessage, hfind, hsplit, List.length_append, List.length_cons,
      Change.entries]
    omega
  | IARemoveMessage identifier =>
    obtain ⟨old, hold, rfl⟩ := Option.map_eq_some_iff.mp h
    obtain ⟨before, it, after, hfind, hsplit, -⟩ := find_cases hold
    simp only [step, IARemoveMessage, hfind, hsplit, List.length_append, List.length_cons,
      Change.entries]
    omega

/-- Of two operations with the same notification, only those of one kind do the same. -/
theorem step_messages_eq_iff {op op' : DeviceOp Task} {n n' : Notice Task}
    (h : d.notice op = some n) (h' : d.notice op' = some n') (hsame : n.2 = n'.2) :
    (d.step op).1.messages = (d.step op').1.messages ↔
      (n.1.map fun _ => ()) = n'.1.map fun _ => () := by
  constructor
  · intro heq
    have hlen := congrArg List.length heq
    rw [messages, messages, List.length_map, List.length_map] at hlen
    have hn := length_step h
    have hn' := length_step h'
    exact Change.entries_inj (by omega)
  · intro hkind
    have hnotice : n.map (fun _ => ()) = n'.map fun _ => () := by
      rw [Notice.map, Notice.map, hkind, hsame]
    rw [messages_eq, messages_eq, (step_eq op).1, (step_eq op').1, h, h', Option.toList_some,
      Option.toList_some, foldl_follow_map, foldl_follow_map, List.map_singleton,
      List.map_singleton, hnotice]

end Device

theorem exposureStore_determined :
    let d : Device ℕ Unit := ⟨[], [], [], [()]⟩
    let ops : List (DeviceOp ℕ) := [.IAInsertMessage (exposure (bytes "1a")) 0,
      .IAUpdateMessage (bytes "1a") (exposure (bytes "2b"))]
    let ops' : List (DeviceOp ℕ) := [.IAInsertMessage (exposure (bytes "1a")) 1,
      .IAUpdateMessage (bytes "exposure") (exposure (bytes "2b"))]
    (d.run ops).1.messages = (d.run ops').1.messages :=
  (Device.store_determined (o := ()) (by decide) (by decide)).1 (by decide)

/-- To its observers, a removal is the insertion of the same message once more. -/
theorem insert_notifies_as_remove :
    let d : Device Unit Unit := ⟨[], [], [⟨exposure (bytes "1a"), ()⟩], [()]⟩
    let ops : List (DeviceOp Unit) := [.IAInsertMessage (exposure (bytes "1a")) ()]
    let ops' : List (DeviceOp Unit) := [.IARemoveMessage (bytes "1a")]
    Device.received () (d.run ops).2 = Device.received () (d.run ops').2 ∧
      (d.run ops).1.messages ≠ (d.run ops').1.messages := by
  decide

end OpenAPT
