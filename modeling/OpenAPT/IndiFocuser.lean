import OpenAPT.IndiClient

/-! The event handlers of `INDIFocuser`. -/
namespace OpenAPT

/-- The pointer members of `INDIFocuser`. -/
inductive FocuserPointer
  | connection_prop
  | mode_prop
  | motion_prop
  | speed_prop
  | absolute_position_prop
  | relative_position_prop
  | max_position_prop
  | temperature_prop
  | rate_prop
  | delay_prop
  | backlash_prop
  | indi_max_position
  | indi_focuser_temperature
  | focuserinfo_prop
  | focuser_port
  | focuser_device
  deriving DecidableEq

structure INDIFocuser extends IndiDriver FocuserPointer where
  can_absolute_move : Bool
  current_mode : Int32
  current_motion : Int32
  current_speed : UInt64
  current_position : Int32
  max_position : Int32
  current_temperature : UInt64
  delay : Int32
  has_backlash : Bool
  indi_focuser_port : Bytes
  indi_focuser_rate : Bytes
  focuser_info : Json

namespace INDIFocuser

/-- The prefix is never set. -/
def indi_focuser_cmd : Bytes := []

def clearedPointers : List FocuserPointer :=
  [.connection_prop, .focuser_port, .focuser_device, .mode_prop, .motion_prop, .speed_prop,
    .absolute_position_prop, .relative_position_prop, .max_position_prop, .temperature_prop,
    .rate_prop, .delay_prop, .backlash_prop, .indi_max_position, .indi_focuser_temperature,
    .focuserinfo_prop]

def ClearStatus (f : INDIFocuser) : INDIFocuser :=
  { f with toIndiDriver := f.toIndiDriver.ClearStatus clearedPointers }

def point (p : FocuserPointer) (name : Bytes) (f : INDIFocuser) : INDIFocuser :=
  { f with toIndiDriver := f.toIndiDriver.point p name }

/-- `focuser_info[key]... = value`. -/
def record (path : List Bytes) (value : Json) (f : INDIFocuser) : Option INDIFocuser :=
  (Json.tree.set value f.focuser_info path).map fun info => { f with focuser_info := info }

/-! ### `newSwitch`, `newNumber` and `newText` -/

def newSwitch_CONNECTION (svp : ISwitchVectorProperty) (f : INDIFocuser) : Option INDIFocuser :=
  (f.toIndiDriver.newSwitch_CONNECTION clearedPointers svp).map fun driver =>
    { f with toIndiDriver := driver }

def newSwitch_Mode (svp : ISwitchVectorProperty) (f : INDIFocuser) : Option INDIFocuser := do
  let mode ← firstOn svp [(bytes "All", (0 : Int32)), (bytes "Absolute", 1)]
  pure { f with
    can_absolute_move := mode.isSome
    current_mode := mode.getD 2 }

def newSwitch_DEVICE_BAUD_RATE (svp : ISwitchVectorProperty) (f : INDIFocuser) :
    Option INDIFocuser := do
  let rate ← baudRate svp f.indi_focuser_rate
  pure { f with indi_focuser_rate := rate }

def newSwitch (svp : ISwitchVectorProperty) (f : INDIFocuser) : Option INDIFocuser :=
  if svp.name = bytes "CONNECTION" then newSwitch_CONNECTION svp f
  else if svp.name = bytes "Mode" then newSwitch_Mode svp f
  else if svp.name = bytes "DEVICE_BAUD_RATE" then newSwitch_DEVICE_BAUD_RATE svp f
  else some f

/-- The vector is compared with the pointers, not by its name. -/
def newNumber (nvp : INumberVectorProperty) (f : INDIFocuser) : Option INDIFocuser :=
  -- the library keeps one vector for each name
  if f.pointer .focuserinfo_prop = some nvp.name then some f
  else if f.pointer .temperature_prop = some nvp.name then do
    let current_temperature ← numberValue nvp (bytes "CCD_TEMPERATURE_VALUE")
    pure { f with current_temperature := current_temperature }
  else some f

def newText (tvp : ITextVectorProperty) (f : INDIFocuser) : Option INDIFocuser :=
  (f.toIndiDriver.newText tvp).map fun driver => { f with toIndiDriver := driver }

/-! ### `newProperty` -/

def newProperty_DRIVER_INFO (tvp : ITextVectorProperty) (f : INDIFocuser) :
    Option INDIFocuser := do
  let driver ← f.toIndiDriver.newProperty_DRIVER_INFO tvp
  let f := { f with toIndiDriver := driver }
  let f ← f.record [bytes "driver", bytes "name"] (.string f.device_name)
  let f ← f.record [bytes "driver", bytes "exec"] (.string f.indi_exec)
  let f ← f.record [bytes "driver", bytes "version"] (.string f.indi_version)
  f.record [bytes "driver", bytes "interfaces"] (.string f.indi_interface)

/-- The prefix is empty, so the last branch is never taken. -/
def newProperty_text (tvp : ITextVectorProperty) (f : INDIFocuser) : Option INDIFocuser :=
  if tvp.name = bytes "DEVICE_PORT" then some (f.point .focuser_port tvp.name)
  else if tvp.name = bytes "DRIVER_INFO" then newProperty_DRIVER_INFO tvp f
  else if tvp.name = indi_focuser_cmd ++ bytes "DEVICE_PORT" then do
    let port ← textValue tvp (bytes "PORT")
    pure { f with indi_focuser_port := port }
  else some f

/-- A vector of `CONNECTION` without the switch `CONNECT` counts as off. The last two branches read
pointers that no handler sets. -/
def newProperty_switch (svp : ISwitchVectorProperty) (f : INDIFocuser) : Option INDIFocuser :=
  if svp.name = bytes "CONNECTION" then
    (f.toIndiDriver.newProperty_CONNECTION .connection_prop svp svp.connectOn).map fun driver =>
      { f with toIndiDriver := driver }
  else if svp.name = indi_focuser_cmd ++ bytes "Mode" then
    newSwitch svp (f.point .mode_prop svp.name)
  else if svp.name = indi_focuser_cmd ++ bytes "DEVICE_BAUD_RATE" then
    newSwitch_DEVICE_BAUD_RATE svp (f.point .rate_prop svp.name)
  else if svp.name = indi_focuser_cmd ++ bytes "FOCUS_MOTION" then do
    -- the member, not the vector of this property
    let motion_prop ← f.derefSwitch .motion_prop
    let inward ← IUFindSwitch motion_prop (bytes "FOCUS_INWARD")
    pure { f with current_motion := if inward.s = .ISS_ON then 0 else 1 }
  else if svp.name = indi_focuser_cmd ++ bytes "FOCUS_BACKLASH_TOGGLE" then do
    let backlash_prop ← f.derefSwitch .backlash_prop
    let enabled ← IUFindSwitch backlash_prop (bytes "INDI_ENABLED")
    pure { f with has_backlash := decide (enabled.s = .ISS_ON) }
  else some f

/-- Every number property is read at `FOCUS_ABSOLUTE_POSITION`, and skipped where it has no such
element. -/
def newProperty_number (nvp : INumberVectorProperty) (f : INDIFocuser) : Option INDIFocuser :=
  match numberValue nvp (bytes "FOCUS_ABSOLUTE_POSITION") with
  | none => some f
  | some prop_value =>
    if nvp.name = indi_focuser_cmd ++ bytes "INFO" then
      newNumber nvp (f.point .focuserinfo_prop nvp.name)
    else if nvp.name = indi_focuser_cmd ++ bytes "FOCUS_SPEED" then
      some { f.point .speed_prop nvp.name with current_speed := prop_value }
    else if nvp.name = indi_focuser_cmd ++ bytes "ABS_FOCUS_POSITION" then do
      let current_position ← toInt32 prop_value
      pure { f.point .absolute_position_prop nvp.name with current_position := current_position }
    else if nvp.name = indi_focuser_cmd ++ bytes "DELAY" then do
      let delay ← toInt32 prop_value
      pure { f.point .delay_prop nvp.name with delay := delay }
    else if nvp.name = indi_focuser_cmd ++ bytes "FOCUS_TEMPERATURE" then
      some { f.point .temperature_prop nvp.name with current_temperature := prop_value }
    else if nvp.name = indi_focuser_cmd ++ bytes "FOCUS_MAX" then do
      let max_position ← toInt32 prop_value
      pure { f.point .max_position_prop nvp.name with max_position := max_position }
    else some f

/-- A property without a name is skipped. -/
def newProperty (property : IndiProperty) (f : INDIFocuser) : Option INDIFocuser :=
  if property.getName = [] then some f
  else
    match property with
    | .INDI_TEXT tvp => newProperty_text tvp f
    | .INDI_SWITCH svp => newProperty_switch svp f
    | .INDI_NUMBER nvp => newProperty_number nvp f
    | .INDI_LIGHT _ | .INDI_BLOB _ => some f

/-! ### What the handlers leave alone -/

section Driver

variable {f f' : INDIFocuser}

theorem record_driver {path : List Bytes} {value : Json} (h : f.record path value = some f') :
    f'.toIndiDriver = f.toIndiDriver := by
  obtain ⟨info, -, rfl⟩ := Option.map_eq_some_iff.mp h
  rfl

/-- `newNumber` writes only members of the focuser itself. -/
theorem newNumber_driver {nvp : INumberVectorProperty} (h : newNumber nvp f = some f') :
    f'.toIndiDriver = f.toIndiDriver := by
  unfold newNumber at h
  split_ifs at h
  · rw [Option.some.inj h]
  · obtain ⟨temperature, -, h⟩ := Option.bind_eq_some_iff.mp h
    obtain rfl := Option.some.inj h
    rfl
  · rw [Option.some.inj h]

theorem newSwitch_DEVICE_BAUD_RATE_driver {svp : ISwitchVectorProperty}
    (h : newSwitch_DEVICE_BAUD_RATE svp f = some f') : f'.toIndiDriver = f.toIndiDriver := by
  obtain ⟨rate, -, h⟩ := Option.bind_eq_some_iff.mp h
  obtain rfl := Option.some.inj h
  rfl

theorem newSwitch_driver {svp : ISwitchVectorProperty} (h : newSwitch svp f = some f') :
    if svp.name = bytes "CONNECTION" then
      f.toIndiDriver.newSwitch_CONNECTION clearedPointers svp = some f'.toIndiDriver
    else f'.toIndiDriver = f.toIndiDriver := by
  unfold newSwitch at h
  split_ifs at h ⊢
  · obtain ⟨driver, hdriver, rfl⟩ := Option.map_eq_some_iff.mp h
    exact hdriver
  · obtain ⟨mode, -, h⟩ := Option.bind_eq_some_iff.mp h
    obtain rfl := Option.some.inj h
    rfl
  · exact newSwitch_DEVICE_BAUD_RATE_driver h
  · rw [Option.some.inj h]

theorem newProperty_text_driver {tvp : ITextVectorProperty}
    (h : newProperty_text tvp f = some f') :
    f.toIndiDriver.newProperty_DRIVER_INFO tvp = some f'.toIndiDriver ∨
      f.toIndiDriver.Points [.focuser_port] f'.toIndiDriver := by
  unfold newProperty_text at h
  split_ifs at h
  · obtain rfl := Option.some.inj h
    exact .inr (.inr ⟨.focuser_port, by decide, _, rfl⟩)
  · simp only [newProperty_DRIVER_INFO, Option.bind_eq_bind, Option.bind_eq_some_iff] at h
    obtain ⟨driver, hdriver, f₁, h₁, f₂, h₂, f₃, h₃, h₄⟩ := h
    have hrecords : f'.toIndiDriver = driver := by
      calc f'.toIndiDriver = f₃.toIndiDriver := record_driver h₄
        _ = f₂.toIndiDriver := record_driver h₃
        _ = f₁.toIndiDriver := record_driver h₂
        _ = driver := record_driver h₁
    rw [hrecords]
    exact .inl hdriver
  · obtain ⟨port, -, h⟩ := Option.bind_eq_some_iff.mp h
    obtain rfl := Option.some.inj h
    exact .inr (.inl rfl)
  · obtain rfl := Option.some.inj h
    exact .inr (.inl rfl)

theorem newProperty_switch_driver {svp : ISwitchVectorProperty}
    (h : newProperty_switch svp f = some f') :
    if svp.name = bytes "CONNECTION" then
      f.toIndiDriver.newProperty_CONNECTION .connection_prop svp svp.connectOn =
        some f'.toIndiDriver
    else f.toIndiDriver.Points [.mode_prop, .rate_prop] f'.toIndiDriver := by
  unfold newProperty_switch at h
  split_ifs at h ⊢ with hconnection
  · obtain ⟨driver, hdriver, rfl⟩ := Option.map_eq_some_iff.mp h
    exact hdriver
  · have hdriver := newSwitch_driver h
    rw [if_neg hconnection] at hdriver
    exact .inr ⟨.mode_prop, by decide, svp.name, hdriver⟩
  · exact .inr ⟨.rate_prop, by decide, svp.name, newSwitch_DEVICE_BAUD_RATE_driver h⟩
  · obtain ⟨motion_prop, -, h⟩ := Option.bind_eq_some_iff.mp h
    obtain ⟨inward, -, h⟩ := Option.bind_eq_some_iff.mp h
    obtain rfl := Option.some.inj h
    exact .inl rfl
  · obtain ⟨backlash_prop, -, h⟩ := Option.bind_eq_some_iff.mp h
    obtain ⟨enabled, -, h⟩ := Option.bind_eq_some_iff.mp h
    obtain rfl := Option.some.inj h
    exact .inl rfl
  · obtain rfl := Option.some.inj h
    exact .inl rfl

theorem newProperty_number_driver {nvp : INumberVectorProperty}
    (h : newProperty_number nvp f = some f') :
    f.toIndiDriver.Points [.focuserinfo_prop, .speed_prop, .absolute_position_prop, .delay_prop,
      .temperature_prop, .max_position_prop] f'.toIndiDriver := by
  unfold newProperty_number at h
  split at h
  · obtain rfl := Option.some.inj h
    exact .inl rfl
  · split_ifs at h
    · exact .inr ⟨.focuserinfo_prop, by decide, nvp.name, newNumber_driver h⟩
    · obtain rfl := Option.some.inj h
      exact .inr ⟨.speed_prop, by decide, nvp.name, rfl⟩
    · obtain ⟨position, -, h⟩ := Option.bind_eq_some_iff.mp h
      obtain rfl := Option.some.inj h
      exact .inr ⟨.absolute_position_prop, by decide, nvp.name, rfl⟩
    · obtain ⟨delay, -, h⟩ := Option.bind_eq_some_iff.mp h
      obtain rfl := Option.some.inj h
      exact .inr ⟨.delay_prop, by decide, nvp.name, rfl⟩
    · obtain rfl := Option.some.inj h
      exact .inr ⟨.temperature_prop, by decide, nvp.name, rfl⟩
    · obtain ⟨position, -, h⟩ := Option.bind_eq_some_iff.mp h
      obtain rfl := Option.some.inj h
      exact .inr ⟨.max_position_prop, by decide, nvp.name, rfl⟩
    · obtain rfl := Option.some.inj h
      exact .inl rfl

end Driver

/-! ### Events and commands -/

def newDevice (deviceName : Bytes) (f : INDIFocuser) : INDIFocuser :=
  { f with toIndiDriver := f.toIndiDriver.newDevice .focuser_device deviceName }

def receive (e : IndiEvent) (f : INDIFocuser) : INDIFocuser :=
  { f with toIndiDriver := f.toIndiDriver.receive e }

/-- The handler of an event. -/
def handle (e : IndiEvent) (f : INDIFocuser) : Option INDIFocuser :=
  match e with
  | .newDevice deviceName => some (newDevice deviceName f)
  | .removeDevice _ => some f.ClearStatus
  | .newProperty property => newProperty property f
  | .newSwitch svp => newSwitch svp f
  | .newNumber nvp => newNumber nvp f
  | .newText tvp => newText tvp f
  | .IndiServerConnected => some { f with toIndiDriver := f.toIndiDriver.IndiServerConnected }
  | .IndiServerDisconnected _ => some f.ClearStatus

/-- The library updates its own vector, and calls the handler. -/
def step (f : INDIFocuser) (e : IndiEvent) : Option INDIFocuser := handle e (f.receive e)

def connect (name : Bytes) (reachable : Bool) (f : INDIFocuser) : Bool × INDIFocuser :=
  let (connected, driver) := f.toIndiDriver.connect name reachable
  (connected, { f with toIndiDriver := driver })

/-- The position is written to the first element of the vector, which is sent back. -/
def moveToAbsolute (position : Int32) (f : INDIFocuser) : Option (Bool × INDIFocuser) :=
  if !f.is_connected then some (false, f)
  else
    match f.pointer .absolute_position_prop with
    | none => some (false, f)
    | some _ =>
      if f.max_position < position then some (false, f)
      else do
        let nvp ← f.deref .absolute_position_prop
        match nvp.np with
        | [] => none
        | number :: rest =>
          let nvp' : INumberVectorProperty := ⟨nvp.name, ⟨number.name, ofInt32 position⟩ :: rest⟩
          let driver : IndiDriver FocuserPointer := { f.toIndiDriver with
            numbers := Function.update f.numbers nvp.name (some nvp') }
          some (true, { f with toIndiDriver := driver.request (.sendNewNumber nvp') })

def getTemperature (f : INDIFocuser) : Option UInt64 :=
  match f.pointer .temperature_prop with
  | none => some (ofInt32 (-1))
  | some _ => do
    let nvp ← f.deref .temperature_prop
    let number ← nvp.np.head?
    pure number.value

/-- The commands of the focuser. `reconnect` connects to the name the focuser was made with. -/
inductive Command
  | connect (name : Bytes) (reachable : Bool)
  | disconnect
  | reconnect (_name : Bytes) (reachable : Bool)
  | scanForAvailableDevices
  | moveTo (position : Int32)
  | moveToAbsolute (position : Int32)
  | moveStep (step : Int32)
  | moveStepAbsolute (step : Int32)
  | AbortMove
  | setMaxPosition (max_position : Int32)
  | getTemperature
  | haveBacklash
  | setBacklash (value : Int32)
  deriving DecidableEq

/-- The steps, the limit and the backlash are not implemented. -/
def execute (command : Command) (f : INDIFocuser) : Option (CommandAnswer × INDIFocuser) :=
  match command with
  | .connect name reachable | .reconnect name reachable =>
    some (.bool (f.connect name reachable).1, (f.connect name reachable).2)
  | .disconnect => some (.bool true, f)
  | .moveTo position | .moveToAbsolute position =>
    (f.moveToAbsolute position).map fun result => (.bool result.1, result.2)
  | .getTemperature => f.getTemperature.map fun temperature => (.double temperature, f)
  | .scanForAvailableDevices | .moveStep _ | .moveStepAbsolute _ | .AbortMove
  | .setMaxPosition _ | .haveBacklash | .setBacklash _ => some (.bool false, f)

def unset : INDIFocuser where
  toIndiDriver := .unset
  can_absolute_move := false
  current_mode := 0
  current_motion := 0
  current_speed := 0
  current_position := 0
  max_position := 0
  current_temperature := 0
  delay := 0
  has_backlash := false
  indi_focuser_port := []
  indi_focuser_rate := []
  focuser_info := .null

end INDIFocuser

end OpenAPT
