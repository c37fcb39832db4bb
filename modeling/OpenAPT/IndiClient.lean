import OpenAPT.Json
import OpenAPT.Lib.EventMachine
import Mathlib.Algebra.Group.Int.Defs
import Mathlib.Algebra.Group.Nat.Defs
import Mathlib.Logic.Function.Basic

/-! What the INDI drivers share: the vector properties a server reports, the events of the client
library, and the members and handlers the drivers have in common. A handler that dereferences a null
pointer has no result. -/
namespace OpenAPT

inductive ISState
  | ISS_OFF
  | ISS_ON
  deriving DecidableEq

structure ISwitch where
  name : Bytes
  s : ISState
  deriving DecidableEq

structure ISwitchVectorProperty where
  name : Bytes
  sp : List ISwitch
  deriving DecidableEq

/-- An element of a number vector. Its value is kept as the bits of a binary64. -/
structure INumber where
  name : Bytes
  value : UInt64
  deriving DecidableEq

structure INumberVectorProperty where
  name : Bytes
  np : List INumber
  deriving DecidableEq

/-- An element of a text vector. Its text is a pointer, and may be null. -/
structure IText where
  name : Bytes
  text : Option Bytes
  deriving DecidableEq

structure ITextVectorProperty where
  name : Bytes
  tp : List IText
  deriving DecidableEq

def IUFindSwitch (svp : ISwitchVectorProperty) (name : Bytes) : Option ISwitch :=
  svp.sp.find? fun sw => sw.name = name

def IUFindNumber (nvp : INumberVectorProperty) (name : Bytes) : Option INumber :=
  nvp.np.find? fun number => number.name = name

def IUFindText (tvp : ITextVectorProperty) (name : Bytes) : Option IText :=
  tvp.tp.find? fun text => text.name = name

/-- `IUFindNumber(nvp, name)->value`. -/
def numberValue (nvp : INumberVectorProperty) (name : Bytes) : Option UInt64 :=
  (IUFindNumber nvp name).map INumber.value

/-- A string assigned from `IUFindText(tvp, name)->text`. -/
def textValue (tvp : ITextVectorProperty) (name : Bytes) : Option Bytes :=
  (IUFindText tvp name).bind IText.text

/-- `if (IUFindSwitch(svp, n1)->s == ISS_ON) v1 else if (IUFindSwitch(svp, n2)->s == ISS_ON) v2
...`: the value of the first branch taken, if there is one. -/
def firstOn {α : Type} (svp : ISwitchVectorProperty) : List (Bytes × α) → Option (Option α)
  | [] => some none
  | (name, value) :: rest =>
    match IUFindSwitch svp name with
    | none => none
    | some sw => if sw.s = .ISS_ON then some (some value) else firstOn svp rest

def baudRates : List (Bytes × Bytes) :=
  [(bytes "9600", bytes "9600"), (bytes "19200", bytes "19200"), (bytes "38400", bytes "38400"),
    (bytes "57600", bytes "57600"), (bytes "115200", bytes "115200"),
    (bytes "230400", bytes "230400")]

/-- The rate that is on in a vector, or the rate from before. -/
def baudRate (svp : ISwitchVectorProperty) (rate : Bytes) : Option Bytes :=
  (firstOn svp baudRates).map fun choice => choice.getD rate

/-- The conversion of a binary64 to `int`, toward zero. There is none where the value does not
fit. -/
def toInt32 (bits : UInt64) : Option Int32 :=
  let exponent := bits.toNat / 2 ^ 52 % 2048
  let mantissa := 2 ^ 52 + bits.toNat % 2 ^ 52
  let magnitude : Int := if exponent < 1023 then 0
    else (mantissa * 2 ^ (exponent - 1023) / 2 ^ 52 : Nat)
  let value := if bits.toNat < 2 ^ 63 then magnitude else -magnitude
  if exponent < 2047 ∧ -2 ^ 31 ≤ value ∧ value < 2 ^ 31 then some (Int32.ofInt value) else none

example : toInt32 0xC024800000000000 = some (-10) := by decide

/-- The conversion of an `int` to binary64, which is exact. -/
def ofInt32 (n : Int32) : UInt64 :=
  let magnitude := n.toInt.natAbs
  let exponent := magnitude.log2
  let bits := (1023 + exponent) * 2 ^ 52 + (magnitude * 2 ^ (52 - exponent) - 2 ^ 52)
  if magnitude = 0 then 0
  else UInt64.ofNat (if n.toInt < 0 then 2 ^ 63 + bits else bits)

example : toInt32 (ofInt32 (-10)) = some (-10) := by decide

/-- An `INDI::Property` by its type, with the vector it holds. -/
inductive IndiProperty
  | INDI_NUMBER (nvp : INumberVectorProperty)
  | INDI_SWITCH (svp : ISwitchVectorProperty)
  | INDI_TEXT (tvp : ITextVectorProperty)
  | INDI_LIGHT (name : Bytes)
  | INDI_BLOB (name : Bytes)
  deriving DecidableEq

def IndiProperty.getName : IndiProperty → Bytes
  | INDI_NUMBER nvp => nvp.name
  | INDI_SWITCH svp => svp.name
  | INDI_TEXT tvp => tvp.name
  | INDI_LIGHT name => name
  | INDI_BLOB name => name

/-- The calls the client library makes on a driver. -/
inductive IndiEvent
  | newDevice (deviceName : Bytes)
  | removeDevice (deviceName : Bytes)
  | newProperty (property : IndiProperty)
  | newSwitch (svp : ISwitchVectorProperty)
  | newNumber (nvp : INumberVectorProperty)
  | newText (tvp : ITextVectorProperty)
  | IndiServerConnected
  | IndiServerDisconnected (exit_code : Int32)
  deriving DecidableEq

/-- The calls a driver makes on the client library. -/
inductive IndiRequest
  | setServer (hostname : Bytes) (port : Int32)
  | watchDevice (name : Bytes)
  | connectServer
  | disconnectServer
  | connectDevice (name : Bytes)
  | setBLOBMode (device blob : Bytes)
  | sendNewSwitch (svp : ISwitchVectorProperty)
  | sendNewNumber (nvp : INumberVectorProperty)
  deriving DecidableEq

/-- What a command of a driver returns. -/
inductive CommandAnswer
  | bool (value : Bool)
  | double (bits : UInt64)
  deriving DecidableEq

/-- The members every driver has. `P` names its pointer members: a pointer to a vector holds the
vector's name, under which the library keeps the vectors of the watched device. -/
structure IndiDriver (P : Type) where
  pointer : P → Option Bytes
  numbers : Bytes → Option INumberVectorProperty
  switches : Bytes → Option ISwitchVectorProperty
  requests : List IndiRequest
  device_name : Bytes
  hostname : Bytes
  port : Int32
  is_connected : Bool
  is_ready : Bool
  indi_exec : Bytes
  indi_version : Bytes
  indi_interface : Bytes

namespace IndiDriver

variable {P : Type}

/-- A driver that has received nothing yet. -/
def unset : IndiDriver P where
  pointer _ := none
  numbers _ := none
  switches _ := none
  requests := []
  device_name := []
  hostname := bytes "127.0.0.1"
  port := 7624
  is_connected := false
  is_ready := false
  indi_exec := []
  indi_version := []
  indi_interface := []

/-- The library updates its vector before it calls the driver. -/
def receive (d : IndiDriver P) : IndiEvent → IndiDriver P
  | .newProperty (.INDI_NUMBER nvp) | .newNumber nvp =>
    { d with numbers := Function.update d.numbers nvp.name (some nvp) }
  | .newProperty (.INDI_SWITCH svp) | .newSwitch svp =>
    { d with switches := Function.update d.switches svp.name (some svp) }
  | _ => d

theorem receive_eq (d : IndiDriver P) (e : IndiEvent) : ∃ numbers switches,
    d.receive e = { d with numbers := numbers, switches := switches } := by
  unfold receive
  split
  all_goals exact ⟨_, _, rfl⟩

theorem receive_newNumber (d : IndiDriver P) (nvp : INumberVectorProperty) :
    (d.receive (.newNumber nvp)).numbers nvp.name = some nvp := by
  simp [receive]

theorem receive_newProperty (d : IndiDriver P) (nvp : INumberVectorProperty) :
    (d.receive (.newProperty (.INDI_NUMBER nvp))).numbers nvp.name = some nvp := by
  simp [receive]

variable [DecidableEq P]

def point (d : IndiDriver P) (p : P) (name : Bytes) : IndiDriver P :=
  { d with pointer := Function.update d.pointer p (some name) }

def request (d : IndiDriver P) (r : IndiRequest) : IndiDriver P :=
  { d with requests := d.requests ++ [r] }

/-- The vector a pointer to a number vector leads to. -/
def deref (d : IndiDriver P) (p : P) : Option INumberVectorProperty :=
  (d.pointer p).bind d.numbers

/-- The vector a pointer to a switch vector leads to. -/
def derefSwitch (d : IndiDriver P) (p : P) : Option ISwitchVectorProperty :=
  (d.pointer p).bind d.switches

/-- `ClearStatus` sets these pointers to null, and nothing else. -/
def ClearStatus (cleared : List P) (d : IndiDriver P) : IndiDriver P :=
  { d with pointer := fun p => if p ∈ cleared then none else d.pointer p }

def IndiServerConnected (d : IndiDriver P) : IndiDriver P := { d with is_connected := true }

/-- At most one of the pointers `ps` is set, and nothing else. -/
def Points (ps : List P) (d d' : IndiDriver P) : Prop :=
  d' = d ∨ ∃ p ∈ ps, ∃ name, d' = d.point p name

/-- `newDevice` of a driver with the member `p` for its device. -/
def newDevice (p : P) (deviceName : Bytes) (d : IndiDriver P) : IndiDriver P :=
  if deviceName = d.device_name then d.point p deviceName else d

/-- `newText` only logs, and for that reads the first text. -/
def newText (tvp : ITextVectorProperty) (d : IndiDriver P) : Option (IndiDriver P) :=
  tvp.tp.head?.map fun _ => d

omit [DecidableEq P] in
theorem eq_of_newText {tvp : ITextVectorProperty} {d d' : IndiDriver P}
    (h : d.newText tvp = some d') : d' = d := by
  obtain ⟨text, -, rfl⟩ := Option.map_eq_some_iff.mp h
  rfl

/-- The branch `CONNECTION` of `newSwitch`, for the drivers that keep no document of it. -/
def newSwitch_CONNECTION (cleared : List P) (svp : ISwitchVectorProperty) (d : IndiDriver P) :
    Option (IndiDriver P) := do
  let connectswitch ← IUFindSwitch svp (bytes "CONNECT")
  if connectswitch.s = .ISS_ON then some { d with is_connected := true }
  else if d.is_ready then some (d.ClearStatus cleared)
  else some d

/-- The branch `CONNECTION` of `newProperty` once the driver knows whether the switch is on. -/
def newProperty_CONNECTION (connection_prop : P) (svp : ISwitchVectorProperty) (on : Bool)
    (d : IndiDriver P) : Option (IndiDriver P) :=
  let d := { d.point connection_prop svp.name with is_connected := on }
  if on then some d
  else
    -- the first switch is set, whichever it is, and the vector is sent back
    match svp.sp with
    | [] => none
    | sw :: rest =>
      let svp' : ISwitchVectorProperty := ⟨svp.name, ⟨sw.name, .ISS_ON⟩ :: rest⟩
      some ({ d with switches := Function.update d.switches svp.name (some svp') }.request
        (.sendNewSwitch svp'))

theorem newProperty_CONNECTION_eq_some {connection_prop : P} {svp : ISwitchVectorProperty}
    {on : Bool} {d d' : IndiDriver P}
    (h : newProperty_CONNECTION connection_prop svp on d = some d') :
    d'.is_connected = on ∧ d'.is_ready = d.is_ready ∧
      d'.pointer = Function.update d.pointer connection_prop (some svp.name) := by
  unfold newProperty_CONNECTION at h
  cases on with
  | true =>
    obtain rfl := Option.some.inj h
    exact ⟨rfl, rfl, rfl⟩
  | false =>
    cases hsp : svp.sp with
    | nil => simp [hsp] at h
    | cons sw rest =>
      simp only [Bool.false_eq_true, ↓reduceIte, hsp, Option.some.injEq] at h
      obtain rfl := h
      exact ⟨rfl, rfl, rfl⟩

/-- The branch `DRIVER_INFO` of `newProperty`. -/
def newProperty_DRIVER_INFO (tvp : ITextVectorProperty) (d : IndiDriver P) :
    Option (IndiDriver P) := do
  let name ← textValue tvp (bytes "DRIVER_NAME")
  let exec ← textValue tvp (bytes "DRIVER_EXEC")
  let version ← textValue tvp (bytes "DRIVER_VERSION")
  let interface ← textValue tvp (bytes "DRIVER_INTERFACE")
  pure { d with
    device_name := name
    indi_exec := exec
    indi_version := version
    indi_interface := interface }

omit [DecidableEq P] in
theorem newProperty_DRIVER_INFO_eq_some {tvp : ITextVectorProperty} {d d' : IndiDriver P}
    (h : newProperty_DRIVER_INFO tvp d = some d') :
    d'.is_connected = d.is_connected ∧ d'.is_ready = d.is_ready ∧ d'.pointer = d.pointer := by
  simp only [newProperty_DRIVER_INFO, Option.bind_eq_bind, Option.bind_eq_some_iff,
    Option.pure_def, Option.some.injEq] at h
  obtain ⟨name, -, exec, -, version, -, interface, -, rfl⟩ := h
  exact ⟨rfl, rfl, rfl⟩

/-- `OpenAptIndiClient::connectServer`, where `reachable` says whether the server answers. -/
def connectServer (reachable : Bool) (d : IndiDriver P) : IndiDriver P :=
  let d := d.request .connectServer
  if reachable then d.IndiServerConnected else d

/-- `connect` of the drivers that look at `is_connected` first. -/
def connect (name : Bytes) (reachable : Bool) (d : IndiDriver P) : Bool × IndiDriver P :=
  if d.is_connected then (true, d)
  else
    let driver := ((d.request (.setServer d.hostname d.port)).request
      (.watchDevice name)).connectServer reachable
    if reachable then (true, { driver.request (.connectDevice name) with is_connected := true })
    else (false, { driver with is_connected := false })

end IndiDriver

/-- `CONNECT` is on in a vector. -/
def ISwitchVectorProperty.connectOn (svp : ISwitchVectorProperty) : Bool :=
  (IUFindSwitch svp (bytes "CONNECT")).any fun sw => sw.s = .ISS_ON

theorem connectOn_of_find {svp : ISwitchVectorProperty} {sw : ISwitch}
    (h : IUFindSwitch svp (bytes "CONNECT") = some sw) :
    svp.connectOn = decide (sw.s = .ISS_ON) := by
  rw [ISwitchVectorProperty.connectOn, h, Option.any_some]

/-- The three things that the branch `CONNECTION` of `newSwitch` can do. -/
theorem IndiDriver.newSwitch_CONNECTION_eq_some {P : Type} [DecidableEq P] {cleared : List P}
    {svp : ISwitchVectorProperty} {d d' : IndiDriver P}
    (h : IndiDriver.newSwitch_CONNECTION cleared svp d = some d') :
    d' = if svp.connectOn then { d with is_connected := true }
      else if d.is_ready then d.ClearStatus cleared
      else d := by
  obtain ⟨sw, hsw, h⟩ := Option.bind_eq_some_iff.mp h
  rw [connectOn_of_find hsw]
  simp only [decide_eq_true_eq]
  split_ifs at h ⊢
  all_goals exact (Option.some.inj h).symm

/-- What an event says about the connection: nothing, or that there is one, or that there is none.
-/
def IndiEvent.connection? : IndiEvent → Option Bool
  | .IndiServerConnected => some true
  | .IndiServerDisconnected _ => some false
  | .removeDevice _ => some false
  | .newSwitch svp => if svp.name = bytes "CONNECTION" then some svp.connectOn else none
  | .newProperty (.INDI_SWITCH svp) =>
    if svp.name = bytes "CONNECTION" then some svp.connectOn else none
  | _ => none

end OpenAPT
