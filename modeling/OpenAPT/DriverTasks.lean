import OpenAPT.Lib.ErrorState
import OpenAPT.Task

/-! The tasks of the INDI camera and the INDI focuser: the function of a task name, wrapped in a
`SimpleTask` with the parameters in braces. -/
namespace OpenAPT

open ErrorState

/-- A member function of a driver: it may throw, and what it did before stays. -/
abbrev DriverM := EStateM StdException

/-- What the drivers take from elsewhere: the conversion of a function without a result that the
constructor of `SimpleTask` needs, the one of a float to an integer, what `dump()` throws, and what
memory holds where a constructor sets nothing. -/
structure DriverEnvironment (Driver : Type) where
  toFunction : StdFunction Driver Json Unit → StdFunction Driver Json Json
  floatToInt : UInt64 → Int32
  dumpError : Json → StdException
  indeterminate : Int32

/-- A `json` initialised by a braced list of one element: an array that holds it. A list of pairs
that start with a string is an object. -/
def braced : Json → Json
  | .array [.string key, value] => .object [(key, value)]
  | j => .array [j]

section Drivers

variable {Driver : Type}

/-- A call of the function on the parameters of the task. It has no access to the stop flag. -/
def DriverM.toCall (f : Json → DriverM Driver Unit) (tparams : Json) (s : Driver) :
    Call Driver Unit :=
  match f tparams s with
  | .ok a s' => ⟨[], .ok a, s'⟩
  | .error e s' => ⟨[], .error e, s'⟩

/-- `new SimpleTask(f, {params})`. -/
def makeTask (env : DriverEnvironment Driver) (f : Json → DriverM Driver Unit) (params : Json) :
    Task Driver :=
  { BasicTask.make env.indeterminate none with
    self := .SimpleTask (env.toFunction (some fun tparams _ s => DriverM.toCall f tparams s))
      (braced params) .null }

end Drivers

/-! ### The camera -/

namespace CameraTasks

/-- The operations of the driver. A temperature is the bits of its `double`. -/
inductive CameraCall
  | connect (name : Bytes)
  | disconnect
  | reconnect
  | scanForAvailableDevices
  | getParameter (paramName : Bytes)
  | setParameter (paramName paramValue : Bytes)
  | startExposure (duration_ms : Int32)
  | stopExposure
  | startLiveView
  | stopLiveView
  | setCoolingOn (on : Bool)
  | setTemperature (temperature : UInt64)
  | getTemperature
  | setBinning (binning : Int32)
  | setGain (gain : Int32)
  | setOffset (offset : Int32)
  | setROIFrame (start_x start_y frame_x frame_y : Int32)
  deriving DecidableEq

/-- What the tasks read of the driver, and the operations that were called so far. -/
structure CameraDriver where
  is_connected : Bool
  can_cooling : Bool
  can_binning : Bool
  camera_info : Json
  calls : List CameraCall

/-- The keys of `task_map`. -/
inductive CameraTask
  | Connect
  | Disconnect
  | Reconnect
  | Scanning
  | GetParameter
  | SetParameter
  | SingleShot
  | AbortShot
  | StartLiveView
  | StopLiveView
  | Cooling
  | GetTemperature
  | SetTemperature
  | SetGain
  | SetOffset
  | SetBinning
  | SetROIFrame
  deriving DecidableEq

namespace CameraTask

def name : CameraTask → Bytes
  | Connect => bytes "Connect"
  | Disconnect => bytes "Disconnect"
  | Reconnect => bytes "Reconnect"
  | Scanning => bytes "Scanning"
  | GetParameter => bytes "GetParameter"
  | SetParameter => bytes "SetParameter"
  | SingleShot => bytes "SingleShot"
  | AbortShot => bytes "AbortShot"
  | StartLiveView => bytes "StartLiveView"
  | StopLiveView => bytes "StopLiveView"
  | Cooling => bytes "Cooling"
  | GetTemperature => bytes "GetTemperature"
  | SetTemperature => bytes "SetTemperature"
  | SetGain => bytes "SetGain"
  | SetOffset => bytes "SetOffset"
  | SetBinning => bytes "SetBinning"
  | SetROIFrame => bytes "SetROIFrame"

def all : List CameraTask :=
  [Connect, Disconnect, Reconnect, Scanning, GetParameter, SetParameter, SingleShot, AbortShot,
    StartLiveView, StopLiveView, Cooling, GetTemperature, SetTemperature, SetGain, SetOffset,
    SetBinning, SetROIFrame]

end CameraTask

def call (c : CameraCall) : DriverM CameraDriver Unit :=
  modify fun s => { s with calls := s.calls ++ [c] }

/-- `!this->is_connected && !this->camera_info["connected"].empty()`. -/
def notConnected : DriverM CameraDriver Bool := do
  let s ← get
  if s.is_connected then pure false
  else
    let info ← MonadExcept.ofExcept (s.camera_info.index (bytes "connected"))
    set { s with camera_info := info }
    pure (!((info.find? (bytes "connected")).getD .null).empty)

/-- A function that starts with a warning if the camera is not connected. -/
def checked (f : DriverM CameraDriver Unit) : DriverM CameraDriver Unit := do
  if ← notConnected then pure () else f

/-- The function of a key of `task_map`. -/
def task_map (floatToInt : UInt64 → Int32) (task : CameraTask) (tparams : Json) :
    DriverM CameraDriver Unit :=
  match task with
  | .Connect => do
    let name ← MonadExcept.ofExcept (tparams.constIndex (bytes "name"))
    if name.empty then pure ()
    else call (.connect (← MonadExcept.ofExcept name.getString))
  | .Disconnect => checked (call .disconnect)
  | .Reconnect => checked (call .reconnect)
  | .Scanning => call .scanForAvailableDevices
  | .GetParameter => do
    let name ← MonadExcept.ofExcept (tparams.constIndex (bytes "name"))
    call (.getParameter (← MonadExcept.ofExcept name.getString))
  | .SetParameter => do
    let name ← MonadExcept.ofExcept (tparams.constIndex (bytes "name"))
    let name ← MonadExcept.ofExcept name.getString
    let value ← MonadExcept.ofExcept (tparams.constIndex (bytes "value"))
    call (.setParameter name (← MonadExcept.ofExcept value.getString))
  -- these two only write to the log
  | .SingleShot => pure ()
  | .AbortShot => pure ()
  | .StartLiveView => call .startLiveView
  | .StopLiveView => call .stopLiveView
  | .Cooling => do
    if (← get).can_cooling then
      let enable ← MonadExcept.ofExcept (tparams.constIndex (bytes "enable"))
      call (.setCoolingOn (← MonadExcept.ofExcept enable.getBool))
    else pure ()
  | .GetTemperature => call .getTemperature
  -- there is nothing after the check
  | .SetTemperature => pure ()
  | .SetGain => pure ()
  | .SetOffset => pure ()
  | .SetBinning => do
    if (← get).can_binning then
      let binning ← MonadExcept.ofExcept (tparams.constIndex (bytes "binning"))
      call (.setBinning (← MonadExcept.ofExcept (binning.getInt floatToInt)))
    else pure ()
  | .SetROIFrame => do
    let start_x ← MonadExcept.ofExcept (tparams.constIndex (bytes "start_x"))
    let start_x ← MonadExcept.ofExcept (start_x.getInt floatToInt)
    let start_y ← MonadExcept.ofExcept (tparams.constIndex (bytes "start_y"))
    let start_y ← MonadExcept.ofExcept (start_y.getInt floatToInt)
    let frame_x ← MonadExcept.ofExcept (tparams.constIndex (bytes "frame_x"))
    let frame_x ← MonadExcept.ofExcept (frame_x.getInt floatToInt)
    let frame_y ← MonadExcept.ofExcept (tparams.constIndex (bytes "frame_y"))
    call (.setROIFrame start_x start_y frame_x (← MonadExcept.ofExcept (frame_y.getInt floatToInt)))

def getSimpleTask (env : DriverEnvironment CameraDriver) (task_name : Bytes) (params : Json) :
    Except StdException (Option (Task CameraDriver)) :=
  match CameraTask.all.find? fun task => task.name = task_name with
  | some task => .ok (some (makeTask env (task_map env.floatToInt task) params))
  | none => .ok none

end CameraTasks

/-! ### The focuser -/

namespace FocuserTasks

inductive FocuserCall
  | moveToAbsolute (position : Int32)
  | moveStepAbsolute (step : Int32)
  | AbortMove
  | getMaxPosition
  | setMaxPosition (max_position : Int32)
  | haveBacklash
  | setBacklash (value : Int32)
  deriving DecidableEq

/-- The operations that were called so far. -/
structure FocuserDriver where
  calls : List FocuserCall

/-- The names `getSimpleTask` compares with. -/
inductive FocuserTask
  | MoveToAbsolute
  | MoveStepAbsolute
  | AbortMove
  | GetMaxPosition
  | SetMaxPosition
  | HaveBacklash
  | SetBacklash
  deriving DecidableEq

namespace FocuserTask

def name : FocuserTask → Bytes
  | MoveToAbsolute => bytes "MoveToAbsolute"
  | MoveStepAbsolute => bytes "MoveStepAbsolute"
  | AbortMove => bytes "AbortMove"
  | GetMaxPosition => bytes "GetMaxPosition"
  | SetMaxPosition => bytes "SetMaxPosition"
  | HaveBacklash => bytes "HaveBacklash"
  | SetBacklash => bytes "SetBacklash"

def all : List FocuserTask :=
  [MoveToAbsolute, MoveStepAbsolute, AbortMove, GetMaxPosition, SetMaxPosition, HaveBacklash,
    SetBacklash]

/-- The debug message of the task holds `params.dump()`. -/
def dumpsParams : FocuserTask → Bool
  | MoveToAbsolute | MoveStepAbsolute | SetMaxPosition | SetBacklash => true
  | AbortMove | GetMaxPosition | HaveBacklash => false

end FocuserTask

def call (c : FocuserCall) : DriverM FocuserDriver Unit :=
  modify fun s => { s with calls := s.calls ++ [c] }

/-- A call of an operation with the integer under a key. -/
def callWith (floatToInt : UInt64 → Int32) (operation : Int32 → FocuserCall) (key : Bytes)
    (tpramas : Json) : DriverM FocuserDriver Unit := do
  let value ← MonadExcept.ofExcept (tpramas.constIndex key)
  call (operation (← MonadExcept.ofExcept (value.getInt floatToInt)))

/-- The function of a task. -/
def taskFunction (floatToInt : UInt64 → Int32) (task : FocuserTask) (tpramas : Json) :
    DriverM FocuserDriver Unit :=
  match task with
  | .MoveToAbsolute => callWith floatToInt .moveToAbsolute (bytes "position") tpramas
  | .MoveStepAbsolute => callWith floatToInt .moveStepAbsolute (bytes "step") tpramas
  | .AbortMove => call .AbortMove
  | .GetMaxPosition => call .getMaxPosition
  | .SetMaxPosition => callWith floatToInt .setMaxPosition (bytes "max_position") tpramas
  | .HaveBacklash => call .haveBacklash
  | .SetBacklash => callWith floatToInt .setBacklash (bytes "backlash") tpramas

def getSimpleTask (env : DriverEnvironment FocuserDriver) (task_name : Bytes) (params : Json) :
    Except StdException (Option (Task FocuserDriver)) :=
  match FocuserTask.all.find? fun task => task.name = task_name with
  | some task =>
    if task.dumpsParams && !params.dumpable then .error (env.dumpError params)
    else .ok (some (makeTask env (taskFunction env.floatToInt task) params))
  | none => .ok none

/-- The request is one whose parameters cannot be printed. -/
def Unprintable (task_name : Bytes) (params : Json) : Prop :=
  ∃ task : FocuserTask, task.name = task_name ∧ task.dumpsParams = true ∧ params.dumpable = false

end FocuserTasks

/-! ### What a task should do -/

/-- The integer a value is. -/
def Json.intValue : Json → Option ℤ
  | .numberInteger i => some i.toInt
  | .numberUnsigned n => some n.toNat
  | _ => none

/-- The object has the integer under the key. -/
def HoldsInt (params : Json) (key : Bytes) (value : Int32) : Prop :=
  (params.find? key).bind Json.intValue = some value.toInt

def HoldsString (params : Json) (key value : Bytes) : Prop :=
  params.find? key = some (.string value)

def HoldsBool (params : Json) (key : Bytes) (value : Bool) : Prop :=
  params.find? key = some (.boolean value)

/-- The parameters ask the task for the call. The tasks that only write to the log read no fields,
so they are asked for any call of the operation. -/
def CameraTasks.CameraTask.Asks (params : Json) :
    CameraTasks.CameraTask → CameraTasks.CameraCall → Prop
  | .Connect, c => ∃ name, HoldsString params (bytes "name") name ∧ c = .connect name
  | .Disconnect, c => c = .disconnect
  | .Reconnect, c => c = .reconnect
  | .Scanning, c => c = .scanForAvailableDevices
  | .GetParameter, c => ∃ name, HoldsString params (bytes "name") name ∧ c = .getParameter name
  | .SetParameter, c => ∃ name value, HoldsString params (bytes "name") name ∧
      HoldsString params (bytes "value") value ∧ c = .setParameter name value
  | .SingleShot, c => ∃ duration_ms, c = .startExposure duration_ms
  | .AbortShot, c => c = .stopExposure
  | .StartLiveView, c => c = .startLiveView
  | .StopLiveView, c => c = .stopLiveView
  | .Cooling, c => ∃ enable, HoldsBool params (bytes "enable") enable ∧ c = .setCoolingOn enable
  | .GetTemperature, c => c = .getTemperature
  | .SetTemperature, c => ∃ temperature, c = .setTemperature temperature
  | .SetGain, c => ∃ gain, c = .setGain gain
  | .SetOffset, c => ∃ offset, c = .setOffset offset
  | .SetBinning, c => ∃ binning, HoldsInt params (bytes "binning") binning ∧
      c = .setBinning binning
  | .SetROIFrame, c => ∃ start_x start_y frame_x frame_y,
      HoldsInt params (bytes "start_x") start_x ∧ HoldsInt params (bytes "start_y") start_y ∧
      HoldsInt params (bytes "frame_x") frame_x ∧ HoldsInt params (bytes "frame_y") frame_y ∧
      c = .setROIFrame start_x start_y frame_x frame_y

def FocuserTasks.FocuserTask.Asks (params : Json) :
    FocuserTasks.FocuserTask → FocuserTasks.FocuserCall → Prop
  | .MoveToAbsolute, c => ∃ position, HoldsInt params (bytes "position") position ∧
      c = .moveToAbsolute position
  | .MoveStepAbsolute, c => ∃ step, HoldsInt params (bytes "step") step ∧ c = .moveStepAbsolute step
  | .AbortMove, c => c = .AbortMove
  | .GetMaxPosition, c => c = .getMaxPosition
  | .SetMaxPosition, c => ∃ max_position, HoldsInt params (bytes "max_position") max_position ∧
      c = .setMaxPosition max_position
  | .HaveBacklash, c => c = .haveBacklash
  | .SetBacklash, c => ∃ backlash, HoldsInt params (bytes "backlash") backlash ∧
      c = .setBacklash backlash

section Delivered

variable {Driver : Type}

/-- A task is returned, and whenever it is executed with the driver in the state, it does not throw
and leaves the driver in a state with the property. -/
def Delivered (returned : Except StdException (Option (Task Driver))) (s : Driver)
    (performed : Driver → Prop) : Prop :=
  ∃ task, returned = .ok (some task) ∧ ∀ r : TaskRun Driver, r.task = task → r.state = s →
    (∃ j, r.Execute.1 = .ok j) ∧ performed r.Execute.2.state

/-- The converted function does what the function does. -/
def Converts (toFunction : StdFunction Driver Json Unit → StdFunction Driver Json Json) : Prop :=
  ∀ f, ∃ g, toFunction (some f) = some g ∧ ∀ j flag s,
    (g j flag s).writes = (f j flag s).writes ∧ (g j flag s).state = (f j flag s).state ∧
      ((∃ returns, (g j flag s).result = .ok returns) ↔ (f j flag s).result = .ok ())

variable {env : DriverEnvironment Driver} {performed : Driver → Prop}

/-- Executing a task is calling its function once, on the parameters in braces. -/
theorem execute_makeTask {f : Json → DriverM Driver Unit} {params : Json} {r : TaskRun Driver}
    (hconverts : Converts env.toFunction) (hr : r.task = makeTask env f params) :
    ((∃ j, r.Execute.1 = .ok j) ↔ (DriverM.toCall f (braced params) r.state).result = .ok ()) ∧
      r.Execute.2.state = (DriverM.toCall f (braced params) r.state).state := by
  obtain ⟨g, hg, hcall⟩ := hconverts fun tparams _ s => DriverM.toCall f tparams s
  obtain ⟨-, hstate, hresult⟩ := hcall (braced params) false r.state
  have hself : r.task.self = .SimpleTask (some g) (braced params) .null := by
    rw [hr, ← hg]
    rfl
  have hflag : r.task.stop_flag_ = false := by
    rw [hr]
    rfl
  rw [← hstate, ← hresult, TaskRun.Execute, hself]
  simp only [TaskRun.SimpleTask_Execute, TaskRun.record, TaskRun.invoke, hflag, Bool.false_eq_true,
    ↓reduceIte]
  cases hreturns : (g (braced params) false r.state).result with
  | error e =>
    refine ⟨iff_of_false ?_ ?_, rfl⟩
    · rintro ⟨j, hj⟩
      cases hj
    · rintro ⟨returns, hok⟩
      cases hok
  | ok returns => exact ⟨iff_of_true ⟨_, rfl⟩ ⟨returns, rfl⟩, rfl⟩

/-- The call of a function returns where the function does, and leaves the same state. -/
theorem toCall_ok_iff (f : Json → DriverM Driver Unit) (tparams : Json) (s : Driver) :
    ((DriverM.toCall f tparams s).result = .ok () ∧
        performed (DriverM.toCall f tparams s).state) ↔
      ∃ s', f tparams s = .ok () s' ∧ performed s' := by
  cases hrun : f tparams s with
  | ok a s' =>
    have hcall : DriverM.toCall f tparams s = ⟨[], .ok a, s'⟩ := by rw [DriverM.toCall, hrun]
    rw [hcall, ← hrun]
    exact (and_iff_right rfl).trans (exists_ok_iff hrun).symm
  | error e s' =>
    have hcall : DriverM.toCall f tparams s = ⟨[], .error e, s'⟩ := by rw [DriverM.toCall, hrun]
    rw [hcall, ← hrun]
    apply iff_of_false _ (not_exists_ok hrun)
    rintro ⟨hok, -⟩
    cases hok

/-- A task delivers what its function does to the driver, if that returns. -/
theorem delivered_makeTask_iff (hconverts : Converts env.toFunction)
    (f : Json → DriverM Driver Unit) (params : Json) (s : Driver) :
    Delivered (.ok (some (makeTask env f params))) s performed ↔
      ∃ s', f (braced params) s = .ok () s' ∧ performed s' := by
  rw [← toCall_ok_iff]
  constructor
  · rintro ⟨task, htask, hruns⟩
    obtain rfl : makeTask env f params = task := Option.some.inj (Except.ok.inj htask)
    obtain ⟨hreturns, hperformed⟩ := hruns ⟨makeTask env f params, s, []⟩ rfl rfl
    obtain ⟨hiff, hstate⟩ :=
      execute_makeTask (r := ⟨makeTask env f params, s, []⟩) hconverts rfl
    rw [hstate] at hperformed
    exact ⟨hiff.mp hreturns, hperformed⟩
  · rintro ⟨hok, hperformed⟩
    refine ⟨makeTask env f params, rfl, fun r hr hs => ?_⟩
    obtain ⟨hiff, hstate⟩ := execute_makeTask hconverts hr
    rw [hs] at hiff hstate
    rw [hstate]
    exact ⟨hiff.mpr hok, hperformed⟩

end Delivered

/-! ### What the tasks do -/

namespace CameraTasks

/-- The tasks that get to their operation: those that read no parameters, and the two that check the
connection when the check lets them. -/
def CameraTask.Reaches (s : CameraDriver) : CameraTask → Prop
  | .Disconnect | .Reconnect => s.is_connected = true ∨ ∃ info,
      s.camera_info.index (bytes "connected") = .ok info ∧
        ((info.find? (bytes "connected")).getD .null).empty = true
  | .Scanning | .StartLiveView | .StopLiveView | .GetTemperature => True
  | .Connect | .GetParameter | .SetParameter | .SingleShot | .AbortShot | .Cooling
  | .SetTemperature | .SetGain | .SetOffset | .SetBinning | .SetROIFrame => False

variable {floatToInt : UInt64 → Int32} {l : List Json} {s : CameraDriver} {c : CameraCall}

/-- The calls after the run are those before it and the one more. -/
def Called (s : CameraDriver) (c : CameraCall) (t : CameraDriver) : Prop :=
  t.calls = s.calls ++ [c]

theorem not_called_self (info : Json) : ¬ Called s c { s with camera_info := info } := by
  intro h
  have hlength := congrArg List.length h
  rw [List.length_append, List.length_singleton] at hlength
  exact Nat.succ_ne_self _ hlength.symm

/-- A function that ends without a call, or throws. -/
theorem not_called_of_run {x : DriverM CameraDriver Unit}
    (h : x s = .ok () s ∨ ∃ e t, x s = .error e t) : ¬ ∃ t, x s = .ok () t ∧ Called s c t := by
  rcases h with hok | ⟨e, t, herror⟩
  · rw [exists_ok_iff hok]
    exact not_called_self s.camera_info
  · exact not_exists_ok herror

theorem notConnected_of_ok {info : Json} (hs : s.is_connected = false)
    (hindex : s.camera_info.index (bytes "connected") = .ok info) :
    notConnected s = .ok (!((info.find? (bytes "connected")).getD .null).empty)
      { s with camera_info := info } := by
  rw [notConnected, get_bind, hs, if_neg Bool.false_ne_true, ofExcept_bind_of_ok hindex]
  rfl

theorem notConnected_of_error {e : StdException} (hs : s.is_connected = false)
    (hindex : s.camera_info.index (bytes "connected") = .error e) :
    notConnected s = .error e s := by
  rw [notConnected, get_bind, hs, if_neg Bool.false_ne_true, ofExcept_bind_of_error hindex]

theorem notConnected_of_connected (hs : s.is_connected = true) :
    notConnected s = .ok false s := by
  rw [notConnected, get_bind, hs, if_pos rfl]
  rfl

/-- The tasks that check the connection. -/
theorem checked_iff : (∃ t, checked (call c) s = .ok () t ∧ Called s c t) ↔
    s.is_connected = true ∨ ∃ info, s.camera_info.index (bytes "connected") = .ok info ∧
      ((info.find? (bytes "connected")).getD .null).empty = true := by
  have hpass : ∀ t, notConnected s = .ok false t → t.calls = s.calls →
      ∃ t, checked (call c) s = .ok () t ∧ Called s c t := by
    intro t ht hcalls
    refine ⟨{ t with calls := t.calls ++ [c] }, ?_, ?_⟩
    · rw [checked, bind_of_ok ht, if_neg Bool.false_ne_true]
      rfl
    · rw [Called, hcalls]
  cases hs : s.is_connected with
  | true => exact iff_of_true (hpass s (notConnected_of_connected hs) rfl) (Or.inl rfl)
  | false =>
    simp only [Bool.false_eq_true, false_or]
    cases hindex : s.camera_info.index (bytes "connected") with
    | error e =>
      apply iff_of_false
      · have herror : checked (call c) s = .error e s := by
          rw [checked, bind_of_error (notConnected_of_error hs hindex)]
        exact not_exists_ok herror
      · rintro ⟨info, hinfo, -⟩
        cases hinfo
    | ok info =>
      have hcheck := notConnected_of_ok hs hindex
      cases hempty : ((info.find? (bytes "connected")).getD .null).empty with
      | true =>
        rw [hempty] at hcheck
        exact iff_of_true (hpass _ hcheck rfl) ⟨info, rfl, hempty⟩
      | false =>
        -- the warning is all there is
        rw [hempty, Bool.not_false] at hcheck
        apply iff_of_false
        · have hwarns : checked (call c) s = .ok () { s with camera_info := info } := by
            rw [checked, bind_of_ok hcheck, if_pos rfl]
            rfl
          rw [exists_ok_iff hwarns]
          exact not_called_self info
        · rintro ⟨info', hinfo, hempty'⟩
          obtain rfl := Except.ok.inj hinfo
          rw [hempty] at hempty'
          cases hempty'

theorem task_map_array_iff {task : CameraTask} {params : Json} (hasks : task.Asks params c) :
    (∃ t, task_map floatToInt task (.array l) s = .ok () t ∧ Called s c t) ↔ task.Reaches s := by
  cases task with
  | Disconnect | Reconnect =>
    obtain rfl := hasks
    exact checked_iff
  | Scanning | StartLiveView | StopLiveView | GetTemperature =>
    obtain rfl := hasks
    exact (exists_ok_iff rfl).trans (iff_true_intro rfl)
  -- an array has no members
  | Connect | GetParameter | SetParameter | SetROIFrame =>
    exact iff_of_false (not_exists_ok rfl) not_false
  -- there is no call in these functions
  | SingleShot | AbortShot | SetTemperature | SetGain | SetOffset =>
    exact iff_of_false (not_called_of_run (Or.inl rfl)) not_false
  -- without the ability there is no call, and with it the array is read
  | Cooling =>
    refine iff_of_false (not_called_of_run ?_) not_false
    obtain ⟨is_connected, can_cooling, can_binning, camera_info, calls⟩ := s
    cases can_cooling with
    | false => exact Or.inl rfl
    | true => exact Or.inr ⟨_, _, rfl⟩
  | SetBinning =>
    refine iff_of_false (not_called_of_run ?_) not_false
    obtain ⟨is_connected, can_cooling, can_binning, camera_info, calls⟩ := s
    cases can_binning with
    | false => exact Or.inl rfl
    | true => exact Or.inr ⟨_, _, rfl⟩

theorem getSimpleTask_name (env : DriverEnvironment CameraDriver) (task : CameraTask)
    (params : Json) : getSimpleTask env task.name params =
      .ok (some (makeTask env (task_map env.floatToInt task) params)) := by
  have hfind : CameraTask.all.find? (fun other => other.name = task.name) = some task := by
    cases task <;> decide
  rw [getSimpleTask, hfind]

/-- A task of the camera delivers its parameters exactly when it has none to read, and no check
keeps it from its operation. -/
theorem delivered_iff {env : DriverEnvironment CameraDriver} (hconverts : Converts env.toFunction)
    {task : CameraTask} {o : List (Bytes × Json)} {c : CameraCall} (s : CameraDriver)
    (hasks : task.Asks (.object o) c) :
    Delivered (getSimpleTask env task.name (.object o)) s (Called s c) ↔ task.Reaches s := by
  rw [getSimpleTask_name, delivered_makeTask_iff hconverts]
  exact task_map_array_iff hasks

end CameraTasks

namespace FocuserTasks

/-- The tasks that read no parameters. -/
def FocuserTask.Reaches : FocuserTask → Prop
  | .AbortMove | .GetMaxPosition | .HaveBacklash => True
  | .MoveToAbsolute | .MoveStepAbsolute | .SetMaxPosition | .SetBacklash => False

def Called (s : FocuserDriver) (c : FocuserCall) (t : FocuserDriver) : Prop :=
  t.calls = s.calls ++ [c]

theorem taskFunction_array_iff {floatToInt : UInt64 → Int32} {l : List Json} {s : FocuserDriver}
    {c : FocuserCall} {task : FocuserTask} {params : Json} (hasks : task.Asks params c) :
    (∃ t, taskFunction floatToInt task (.array l) s = .ok () t ∧ Called s c t) ↔
      task.Reaches := by
  cases task with
  | AbortMove | GetMaxPosition | HaveBacklash =>
    obtain rfl := hasks
    exact (exists_ok_iff rfl).trans (iff_true_intro rfl)
  -- an array has no members
  | MoveToAbsolute | MoveStepAbsolute | SetMaxPosition | SetBacklash =>
    exact iff_of_false (not_exists_ok rfl) not_false

theorem getSimpleTask_name (env : DriverEnvironment FocuserDriver) (task : FocuserTask)
    (params : Json) : getSimpleTask env task.name params =
      if task.dumpsParams && !params.dumpable then .error (env.dumpError params)
      else .ok (some (makeTask env (taskFunction env.floatToInt task) params)) := by
  have hfind : FocuserTask.all.find? (fun other => other.name = task.name) = some task := by
    cases task <;> decide
  rw [getSimpleTask, hfind]

/-- The focuser throws where it prints the parameters and cannot. -/
theorem getSimpleTask_error_iff (env : DriverEnvironment FocuserDriver) (task_name : Bytes)
    (params : Json) : (∃ e, getSimpleTask env task_name params = .error e) ↔
      Unprintable task_name params := by
  by_cases hname : ∃ task : FocuserTask, task.name = task_name
  · obtain ⟨task, rfl⟩ := hname
    have hunprintable : Unprintable task.name params ↔
        task.dumpsParams = true ∧ params.dumpable = false := by
      constructor
      · rintro ⟨other, hother, hdumps⟩
        obtain rfl : other = task := by
          revert hother
          cases other <;> cases task <;> decide
        exact hdumps
      · exact fun hdumps => ⟨task, rfl, hdumps⟩
    rw [getSimpleTask_name, hunprintable, ← Bool.not_eq_true', ← Bool.and_eq_true]
    split_ifs with hdumps
    · exact iff_of_true ⟨_, rfl⟩ hdumps
    · exact iff_of_false (fun ⟨e, he⟩ => nomatch he) hdumps
  · -- another name is no task at all
    have hfind : FocuserTask.all.find? (fun task => task.name = task_name) = none := by
      rw [List.find?_eq_none]
      exact fun task _ htask => hname ⟨task, of_decide_eq_true htask⟩
    rw [getSimpleTask, hfind]
    exact iff_of_false (fun ⟨e, he⟩ => nomatch he) fun ⟨task, htask, _⟩ => hname ⟨task, htask⟩

/-- A task of the focuser delivers its parameters exactly when it has none to read. -/
theorem delivered_iff {env : DriverEnvironment FocuserDriver} (hconverts : Converts env.toFunction)
    {task : FocuserTask} {o : List (Bytes × Json)} {c : FocuserCall} (s : FocuserDriver)
    (hasks : task.Asks (.object o) c) :
    Delivered (getSimpleTask env task.name (.object o)) s (Called s c) ↔ task.Reaches := by
  rw [getSimpleTask_name]
  split_ifs with hdumps
  · -- the message cannot be written, which happens only to a task that would not deliver
    apply iff_of_false
    · rintro ⟨t, ht, -⟩
      cases ht
    · rw [Bool.and_eq_true] at hdumps
      cases task <;> first | exact not_false | cases hdumps.1
  · rw [delivered_makeTask_iff hconverts]
    exact taskFunction_array_iff hasks

end FocuserTasks

/-- The tasks of the two drivers deliver the parameters exactly when they have none to read, and the
camera's check of the connection does not keep them from their operation. -/
theorem tasks_delivered_iff {camera : DriverEnvironment CameraTasks.CameraDriver}
    {focuser : DriverEnvironment FocuserTasks.FocuserDriver}
    (hcamera : Converts camera.toFunction) (hfocuser : Converts focuser.toFunction)
    (o : List (Bytes × Json)) :
    (∀ (task : CameraTasks.CameraTask) c s, task.Asks (.object o) c →
      (Delivered (CameraTasks.getSimpleTask camera task.name (.object o)) s
        (CameraTasks.Called s c) ↔ task.Reaches s)) ∧
    ∀ (task : FocuserTasks.FocuserTask) c s, task.Asks (.object o) c →
      (Delivered (FocuserTasks.getSimpleTask focuser task.name (.object o)) s
        (FocuserTasks.Called s c) ↔ task.Reaches) :=
  ⟨fun _ _ s hasks => CameraTasks.delivered_iff hcamera s hasks,
    fun _ _ s hasks => FocuserTasks.delivered_iff hfocuser s hasks⟩

/-- A conversion that returns null where the function returns. -/
def plainDriverEnvironment (Driver : Type) : DriverEnvironment Driver where
  toFunction f := f.map fun f j flag s =>
    { f j flag s with result := (f j flag s).result.map fun _ => .null }
  floatToInt _ := 0
  dumpError _ := ⟨[]⟩
  indeterminate := 0

theorem converts_plain (Driver : Type) : Converts (plainDriverEnvironment Driver).toFunction := by
  intro f
  refine ⟨_, rfl, fun j flag s => ⟨rfl, rfl, ?_⟩⟩
  dsimp only
  cases (f j flag s).result with
  | error e =>
    apply iff_of_false
    · rintro ⟨returns, hreturns⟩
      cases hreturns
    · exact fun hok => nomatch hok
  | ok a => exact iff_of_true ⟨_, rfl⟩ rfl

/-- The position 5. -/
def positionFive : List (Bytes × Json) := [(bytes "position", .numberInteger 5)]

/-- The tasks for parameters that hold a position. -/
theorem tasks_delivered_iff_position :
    (∀ (task : CameraTasks.CameraTask) c s, task.Asks (.object positionFive) c →
      (Delivered (CameraTasks.getSimpleTask (plainDriverEnvironment _) task.name
        (.object positionFive)) s (CameraTasks.Called s c) ↔ task.Reaches s)) ∧
    ∀ (task : FocuserTasks.FocuserTask) c s, task.Asks (.object positionFive) c →
      (Delivered (FocuserTasks.getSimpleTask (plainDriverEnvironment _) task.name
        (.object positionFive)) s (FocuserTasks.Called s c) ↔ task.Reaches) :=
  tasks_delivered_iff (converts_plain _) (converts_plain _) positionFive

/-- `MoveToAbsolute` does not move the focuser. -/
theorem moveToAbsolute_not_delivered :
    FocuserTasks.FocuserTask.MoveToAbsolute.Asks (.object positionFive) (.moveToAbsolute 5) ∧
      ¬ Delivered (FocuserTasks.getSimpleTask (plainDriverEnvironment _) (bytes "MoveToAbsolute")
        (.object positionFive)) ⟨[]⟩ (FocuserTasks.Called ⟨[]⟩ (.moveToAbsolute 5)) := by
  refine ⟨⟨5, rfl, rfl⟩, ?_⟩
  rintro ⟨task, htask, hruns⟩
  obtain ⟨⟨j, hj⟩, -⟩ := hruns ⟨task, ⟨[]⟩, []⟩ rfl rfl
  cases htask
  cases hj

end OpenAPT
