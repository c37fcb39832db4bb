import OpenAPT.IndiClient

/-! The event handlers of `INDICamera`. Each handler is a chain of comparisons with names; here it
is a table of the names in the order of the source, with one definition for each branch. -/
namespace OpenAPT

/-- The pointer members of `INDICamera` that its handlers set or clear. -/
inductive CameraPointer
  | connection_prop
  | expose_prop
  | frame_prop
  | frame_type_prop
  | ccdinfo_prop
  | binning_prop
  | video_prop
  | video_delay_prop
  | video_exposure_prop
  | video_fps_prop
  | camera_port
  | camera_device
  | debug_prop
  | polling_prop
  | active_device_prop
  | compression_prop
  | image_upload_mode_prop
  | fast_read_out_prop
  | camera_limit_prop
  | toupcam_fan_control_prop
  | toupcam_heat_control_prop
  | toupcam_hcg_control_prop
  | toupcam_low_noise_control_prop
  | toupcam_simulation_prop
  | toupcam_binning_mode_prop
  | asi_image_flip_prop
  | asi_image_flip_hor_prop
  | asi_image_flip_ver_prop
  | asi_controls_prop
  | asi_controls_mode_prop
  deriving DecidableEq

structure INDICamera extends IndiDriver CameraPointer where
  is_debug : Bool
  is_exposuring : Bool
  is_video : Bool
  is_color : Bool
  has_blob : Bool
  indi_blob_name : Bytes
  pixel : UInt64
  pixel_x : UInt64
  pixel_y : UInt64
  max_frame_x : UInt64
  max_frame_y : UInt64
  pixel_depth : UInt64
  current_temperature : UInt64
  gain : UInt64
  offset : UInt64
  indi_binning_x : Option INumber
  indi_binning_y : Option INumber
  indi_frame_x : Option INumber
  indi_frame_y : Option INumber
  indi_frame_width : Option INumber
  indi_frame_height : Option INumber
  camera_info : Json

namespace INDICamera

def indi_camera_cmd : Bytes := bytes "CCD_"

/-- The members that `ClearStatus` sets to null. The pointers to the video numbers are not among
them. -/
def clearedPointers : List CameraPointer :=
  [.connection_prop, .expose_prop, .frame_prop, .frame_type_prop, .ccdinfo_prop, .binning_prop,
    .video_prop, .camera_port, .camera_device, .debug_prop, .polling_prop, .active_device_prop,
    .compression_prop, .image_upload_mode_prop, .fast_read_out_prop, .camera_limit_prop,
    .toupcam_fan_control_prop, .toupcam_heat_control_prop, .toupcam_hcg_control_prop,
    .toupcam_low_noise_control_prop, .toupcam_simulation_prop, .toupcam_binning_mode_prop,
    .asi_image_flip_prop, .asi_image_flip_hor_prop, .asi_image_flip_ver_prop, .asi_controls_prop,
    .asi_controls_mode_prop]

def ClearStatus (c : INDICamera) : INDICamera :=
  { c with toIndiDriver := c.toIndiDriver.ClearStatus clearedPointers }

/-- `camera_info[key]... = value`. It throws where the path leads through a value that is neither an
object nor null. -/
def record (path : List Bytes) (value : Json) (c : INDICamera) : Option INDICamera :=
  (Json.tree.set value c.camera_info path).map fun info => { c with camera_info := info }

/-! ### `newSwitch` -/

def newSwitch_CONNECTION (svp : ISwitchVectorProperty) (c : INDICamera) : Option INDICamera := do
  let connectswitch ← IUFindSwitch svp (bytes "CONNECT")
  if connectswitch.s = .ISS_ON then
    record [bytes "connected"] (.boolean true) { c with is_connected := true }
  -- `is_connected` is left as it is
  else if c.is_ready then c.ClearStatus.record [bytes "connected"] (.boolean false)
  else some c

def newSwitch_DEBUG (svp : ISwitchVectorProperty) (c : INDICamera) : Option INDICamera := do
  let debugswitch ← IUFindSwitch svp (bytes "ENABLE")
  let on := decide (debugswitch.s = .ISS_ON)
  record [bytes "debug"] (.boolean on) { c with is_debug := on }

/-- The branches that record under a name which of their switches is on, or else the empty string.
-/
def newSwitch_choice (names : List (Bytes × Bytes)) (path : List Bytes)
    (svp : ISwitchVectorProperty) (c : INDICamera) : Option INDICamera := do
  let choice ← firstOn svp names
  c.record path (.string (choice.getD []))

def frameTypes : List (Bytes × Bytes) :=
  [(bytes "FRAME_LIGHT", bytes "Light"), (bytes "FRAME_DARK", bytes "Dark"),
    (bytes "FRAME_FLAT", bytes "Flat"), (bytes "FRAME_BIAS", bytes "Bias")]

def newSwitch_CCD_FRAME_TYPE : ISwitchVectorProperty → INDICamera → Option INDICamera :=
  newSwitch_choice frameTypes [bytes "frame", bytes "type"]

def transferFormats : List (Bytes × Bytes) :=
  [(bytes "FORMAT_FITS", bytes "Fits"), (bytes "FORMAT_NATIVE", bytes "Raw"),
    (bytes "FORMAT_XISF", bytes "Xisf")]

def newSwitch_CCD_TRANSFER_FORMAT : ISwitchVectorProperty → INDICamera → Option INDICamera :=
  newSwitch_choice transferFormats [bytes "frame", bytes "format"]

def newSwitch_CCD_ABORT_EXPOSURE (svp : ISwitchVectorProperty) (c : INDICamera) :
    Option INDICamera := do
  let abortswitch ← IUFindSwitch svp (bytes "ABORT_EXPOSURE")
  if abortswitch.s = .ISS_ON then
    record [bytes "exposure", bytes "abort"] (.boolean true) { c with is_exposuring := false }
  else some c

def uploadModes : List (Bytes × Bytes) :=
  [(bytes "UPLOAD_CLIENT", bytes "Client"), (bytes "UPLOAD_LOCAL", bytes "Local"),
    (bytes "UPLOAD_BOTH", bytes "Both")]

def newSwitch_UPLOAD_MODE : ISwitchVectorProperty → INDICamera → Option INDICamera :=
  newSwitch_choice uploadModes [bytes "network", bytes "mode"]

/-- Where neither switch is on the source reads a variable that it did not set. -/
def newSwitch_CCD_FAST_TOGGLE (svp : ISwitchVectorProperty) (c : INDICamera) :
    Option INDICamera := do
  let choice ← firstOn svp [(bytes "INDI_ENABLED", true), (bytes "INDI_DISABLED", false)]
  let mode ← choice
  c.record [bytes "frame", bytes "fast_read"] (.boolean mode)

def newSwitch_CCD_VIDEO_STREAM (svp : ISwitchVectorProperty) (c : INDICamera) :
    Option INDICamera := do
  let choice ← firstOn svp [(bytes "STREAM_ON", true), (bytes "STREAM_OFF", false)]
  match choice with
  | some on => record [bytes "video", bytes "is_video"] (.boolean on) { c with is_video := on }
  | none => some c

/-- The names `newSwitch` compares with. Nothing is done for `FLIP`. -/
def switchHandlers : List (Bytes × (ISwitchVectorProperty → INDICamera → Option INDICamera)) :=
  [(bytes "CONNECTION", newSwitch_CONNECTION),
    (bytes "DEBUG", newSwitch_DEBUG),
    (bytes "CCD_FRAME_TYPE", newSwitch_CCD_FRAME_TYPE),
    (bytes "CCD_TRANSFER_FORMAT", newSwitch_CCD_TRANSFER_FORMAT),
    (bytes "CCD_ABORT_EXPOSURE", newSwitch_CCD_ABORT_EXPOSURE),
    (bytes "UPLOAD_MODE", newSwitch_UPLOAD_MODE),
    (bytes "CCD_FAST_TOGGLE", newSwitch_CCD_FAST_TOGGLE),
    (bytes "CCD_VIDEO_STREAM", newSwitch_CCD_VIDEO_STREAM),
    (bytes "FLIP", fun _ c => some c)]

def newSwitch (svp : ISwitchVectorProperty) (c : INDICamera) : Option INDICamera :=
  match KeyedList.find? svp.name switchHandlers with
  | some handler => handler svp c
  | none => some c

/-! ### `newNumber` -/

def newNumber_CCD_EXPOSURE (nvp : INumberVectorProperty) (c : INDICamera) :
    Option INDICamera := do
  -- the first element, whatever its name
  let exposure ← nvp.np.head?
  c.record [bytes "exposure", bytes "current"] (.numberFloat exposure.value)

/-- The values are read through the member pointer, not from the argument. -/
def newNumber_CCD_INFO (_nvp : INumberVectorProperty) (c : INDICamera) : Option INDICamera := do
  let ccdinfo ← c.deref .ccdinfo_prop
  let pixel ← numberValue ccdinfo (bytes "CCD_PIXEL_SIZE")
  let pixel_x ← numberValue ccdinfo (bytes "CCD_PIXEL_SIZE_X")
  let pixel_y ← numberValue ccdinfo (bytes "CCD_PIXEL_SIZE_Y")
  let max_frame_x ← numberValue ccdinfo (bytes "CCD_MAX_X")
  let max_frame_y ← numberValue ccdinfo (bytes "CCD_MAX_Y")
  let pixel_depth ← numberValue ccdinfo (bytes "CCD_BITSPERPIXEL")
  record [bytes "frame"] (.object
    [(bytes "max_frame_x", .numberFloat max_frame_x),
      (bytes "max_frame_y", .numberFloat max_frame_y),
      (bytes "pixel_depth", .numberFloat pixel_depth),
      (bytes "pixel_x", .numberFloat pixel_x),
      (bytes "pixel_y", .numberFloat pixel_y)])
    { c with
      pixel := pixel
      pixel_x := pixel_x
      pixel_y := pixel_y
      max_frame_x := max_frame_x
      max_frame_y := max_frame_y
      pixel_depth := pixel_depth }

def newNumber_BINNING (nvp : INumberVectorProperty) (c : INDICamera) : Option INDICamera := do
  let binning_x ← IUFindNumber nvp (bytes "HOR_BIN")
  let binning_y ← IUFindNumber nvp (bytes "VER_BIN")
  record [bytes "exposure"] (.object
    [(bytes "binning_x", .numberFloat binning_x.value),
      (bytes "binning_y", .numberFloat binning_y.value)])
    { c with
      indi_binning_x := some binning_x
      indi_binning_y := some binning_y }

def newNumber_FRAME (nvp : INumberVectorProperty) (c : INDICamera) : Option INDICamera := do
  let x ← IUFindNumber nvp (bytes "X")
  let y ← IUFindNumber nvp (bytes "Y")
  let width ← IUFindNumber nvp (bytes "WIDTH")
  let height ← IUFindNumber nvp (bytes "HEIGHT")
  record [bytes "frame"] (.object
    [(bytes "height", .numberFloat height.value),
      (bytes "width", .numberFloat width.value),
      (bytes "x", .numberFloat x.value),
      (bytes "y", .numberFloat y.value)])
    { c with
      indi_frame_x := some x
      indi_frame_y := some y
      indi_frame_width := some width
      indi_frame_height := some height }

def newNumber_CCD_TEMPERATURE (nvp : INumberVectorProperty) (c : INDICamera) :
    Option INDICamera := do
  let current_temperature ← numberValue nvp (bytes "CCD_TEMPERATURE_VALUE")
  record [bytes "temperature", bytes "current"] (.numberFloat current_temperature)
    { c with current_temperature := current_temperature }

def newNumber_CCD_GAIN (nvp : INumberVectorProperty) (c : INDICamera) : Option INDICamera := do
  let gain ← numberValue nvp (bytes "GAIN")
  record [bytes "exposure", bytes "gain"] (.numberFloat gain) { c with gain := gain }

def newNumber_CCD_OFFSET (nvp : INumberVectorProperty) (c : INDICamera) : Option INDICamera := do
  let offset ← numberValue nvp (bytes "OFFSET")
  record [bytes "exposure", bytes "offset"] (.numberFloat offset) { c with offset := offset }

/-- The branches that only record values, one for each of some elements. -/
def newNumber_values (sub : Bytes) (elements : List (Bytes × Bytes)) (nvp : INumberVectorProperty)
    (c : INDICamera) : Option INDICamera :=
  elements.foldlM (fun c e => do
    let value ← numberValue nvp e.1
    c.record [sub, e.2] (.numberFloat value)) c

def newNumber_POLLING_PERIOD : INumberVectorProperty → INDICamera → Option INDICamera :=
  newNumber_values (bytes "network") [(bytes "PERIOD_MS", bytes "period")]

def newNumber_LIMITS : INumberVectorProperty → INDICamera → Option INDICamera :=
  newNumber_values (bytes "limits") [(bytes "LIMITS_BUFFER_MAX", bytes "maxbuffer"),
    (bytes "LIMITS_PREVIEW_FPS", bytes "maxfps")]

def newNumber_STREAM_DELAY : INumberVectorProperty → INDICamera → Option INDICamera :=
  newNumber_values (bytes "video") [(bytes "STREAM_DELAY_TIME", bytes "delay")]

def newNumber_STREAMING_EXPOSURE : INumberVectorProperty → INDICamera → Option INDICamera :=
  newNumber_values (bytes "video") [(bytes "STREAMING_EXPOSURE_VALUE", bytes "exposure"),
    (bytes "STREAMING_DIVISOR_VALUE", bytes "division")]

def newNumber_FPS : INumberVectorProperty → INDICamera → Option INDICamera :=
  newNumber_values (bytes "video") [(bytes "EST_FPS", bytes "fps"),
    (bytes "AVG_FPS", bytes "avgfps")]

/-- The names `newNumber` compares with. -/
def numberHandlers : List (Bytes × (INumberVectorProperty → INDICamera → Option INDICamera)) :=
  [(bytes "CCD_EXPOSURE", newNumber_CCD_EXPOSURE),
    (bytes "CCD_INFO", newNumber_CCD_INFO),
    (bytes "BINNING", newNumber_BINNING),
    (bytes "FRAME", newNumber_FRAME),
    (bytes "CCD_TEMPERATURE", newNumber_CCD_TEMPERATURE),
    (bytes "CCD_GAIN", newNumber_CCD_GAIN),
    (bytes "CCD_OFFSET", newNumber_CCD_OFFSET),
    (bytes "POLLING_PERIOD", newNumber_POLLING_PERIOD),
    (bytes "LIMITS", newNumber_LIMITS),
    (bytes "STREAM_DELAY", newNumber_STREAM_DELAY),
    (bytes "STREAMING_EXPOSURE", newNumber_STREAMING_EXPOSURE),
    (bytes "FPS", newNumber_FPS)]

def newNumber (nvp : INumberVectorProperty) (c : INDICamera) : Option INDICamera :=
  match KeyedList.find? nvp.name numberHandlers with
  | some handler => handler nvp c
  | none => some c

/-! ### `newProperty` -/

/-- The number properties that are stored and passed on to `newNumber`. -/
def forwardedNumbers : List (Bytes × CameraPointer) :=
  [(indi_camera_cmd ++ bytes "EXPOSURE", .expose_prop),
    (indi_camera_cmd ++ bytes "FRAME", .frame_prop),
    (indi_camera_cmd ++ bytes "BINNING", .binning_prop),
    (bytes "STREAM_DELAY", .video_delay_prop),
    (bytes "STREAMING_EXPOSURE", .video_exposure_prop),
    (bytes "FPS", .video_fps_prop),
    (indi_camera_cmd ++ bytes "INFO", .ccdinfo_prop),
    (bytes "POLLING_PERIOD", .polling_prop),
    (bytes "LIMITS", .camera_limit_prop)]

/-- The switch properties that are stored and passed on to `newSwitch`. -/
def forwardedSwitches : List (Bytes × CameraPointer) :=
  [(indi_camera_cmd ++ bytes "FRAME_TYPE", .frame_type_prop),
    (indi_camera_cmd ++ bytes "VIDEO_STREAM", .video_prop),
    (bytes "DEBUG", .debug_prop),
    (bytes "CCD_COMPRESSION", .compression_prop),
    (bytes "UPLOAD_MODE", .image_upload_mode_prop),
    (bytes "CCD_FAST_TOGGLE", .fast_read_out_prop),
    (bytes "FLIP", .asi_image_flip_prop),
    (bytes "SIMULATION", .toupcam_simulation_prop)]

def point (p : CameraPointer) (name : Bytes) (c : INDICamera) : INDICamera :=
  { c with toIndiDriver := c.toIndiDriver.point p name }

def newProperty_CFA (tvp : ITextVectorProperty) (c : INDICamera) : INDICamera :=
  match textValue tvp (bytes "CFA_TYPE") with
  | some (_ :: _) => { c with is_color := true }
  | _ => c

def newProperty_DEVICE_PORT (tvp : ITextVectorProperty) (c : INDICamera) : Option INDICamera := do
  let text ← tvp.tp.head?
  let port ← text.text
  record [bytes "network", bytes "port"] (.string port) (c.point .camera_port tvp.name)

def newProperty_DRIVER_INFO (tvp : ITextVectorProperty) (c : INDICamera) : Option INDICamera := do
  let driver ← c.toIndiDriver.newProperty_DRIVER_INFO tvp
  let c := { c with toIndiDriver := driver }
  let c ← c.record [bytes "driver", bytes "name"] (.string c.device_name)
  let c ← c.record [bytes "driver", bytes "exec"] (.string c.indi_exec)
  let c ← c.record [bytes "driver", bytes "version"] (.string c.indi_version)
  c.record [bytes "driver", bytes "interfaces"] (.string c.indi_interface)

def newText (tvp : ITextVectorProperty) (c : INDICamera) : Option INDICamera :=
  (c.toIndiDriver.newText tvp).map fun driver => { c with toIndiDriver := driver }

/-- The vector of `CONNECTION` is not passed on. -/
def newProperty_switch (svp : ISwitchVectorProperty) (c : INDICamera) : Option INDICamera :=
  if svp.name = bytes "CONNECTION" then do
    let connectswitch ← IUFindSwitch svp (bytes "CONNECT")
    let driver ← c.toIndiDriver.newProperty_CONNECTION .connection_prop svp
      (decide (connectswitch.s = .ISS_ON))
    pure { c with toIndiDriver := driver }
  else
    match KeyedList.find? svp.name forwardedSwitches with
    | some p => newSwitch svp (c.point p svp.name)
    | none => some c

def newProperty_number (nvp : INumberVectorProperty) (c : INDICamera) : Option INDICamera :=
  match KeyedList.find? nvp.name forwardedNumbers with
  | some p => newNumber nvp (c.point p nvp.name)
  | none => some c

def newProperty_text (tvp : ITextVectorProperty) (c : INDICamera) : Option INDICamera :=
  if tvp.name = indi_camera_cmd ++ bytes "CFA" then some (newProperty_CFA tvp c)
  else if tvp.name = bytes "DEVICE_PORT" then newProperty_DEVICE_PORT tvp c
  else if tvp.name = bytes "DRIVER_INFO" then newProperty_DRIVER_INFO tvp c
  else if tvp.name = bytes "ACTIVE_DEVICES" then newText tvp (c.point .active_device_prop tvp.name)
  else some c

def newProperty_blob (name : Bytes) (c : INDICamera) : INDICamera :=
  if name = c.indi_blob_name then
    { c with
      toIndiDriver := c.toIndiDriver.request (.setBLOBMode c.device_name c.indi_blob_name)
      has_blob := true }
  else c

/-- Every branch of the source asks for one type. Nothing is done for the other properties. -/
def newProperty (property : IndiProperty) (c : INDICamera) : Option INDICamera :=
  match property with
  | .INDI_BLOB name => some (newProperty_blob name c)
  | .INDI_NUMBER nvp => newProperty_number nvp c
  | .INDI_SWITCH svp => newProperty_switch svp c
  | .INDI_TEXT tvp => newProperty_text tvp c
  | .INDI_LIGHT _ => some c

/-! ### Events and commands -/

def newDevice (deviceName : Bytes) (c : INDICamera) : INDICamera :=
  { c with toIndiDriver := c.toIndiDriver.newDevice .camera_device deviceName }

def IndiServerConnected (c : INDICamera) : INDICamera :=
  { c with toIndiDriver := c.toIndiDriver.IndiServerConnected }

def receive (e : IndiEvent) (c : INDICamera) : INDICamera :=
  { c with toIndiDriver := c.toIndiDriver.receive e }

/-- The handler of an event. -/
def handle (e : IndiEvent) (c : INDICamera) : Option INDICamera :=
  match e with
  | .newDevice deviceName => some (newDevice deviceName c)
  | .removeDevice _ => some c.ClearStatus
  | .newProperty property => newProperty property c
  | .newSwitch svp => newSwitch svp c
  | .newNumber nvp => newNumber nvp c
  | .newText tvp => newText tvp c
  | .IndiServerConnected => some (IndiServerConnected c)
  | .IndiServerDisconnected _ => some c.ClearStatus

/-- The library updates its own vector, and calls the handler. -/
def step (c : INDICamera) (e : IndiEvent) : Option INDICamera := handle e (c.receive e)

/-- It connects whether or not `is_connected` is set. -/
def connect (name : Bytes) (reachable : Bool) (c : INDICamera) : Bool × INDICamera :=
  let driver := ((c.toIndiDriver.request (.setServer c.hostname c.port)).request
    (.watchDevice name)).connectServer reachable
  if reachable then
    (!c.is_ready, { c with toIndiDriver := driver.request (.connectDevice name) })
  else (false, { c with toIndiDriver := driver })

/-- The commands of the camera. -/
inductive Command
  | connect (name : Bytes) (reachable : Bool)
  | disconnect
  | reconnect
  | scanForAvailableDevices
  | getParameter (paramName : Bytes)
  | setParameter (paramName paramValue : Bytes)
  | startExposure (duration_ms : Int32)
  | stopExposure
  | waitForExposureComplete
  | startLiveView
  | stopLiveView
  | setCoolingOn (on : Bool)
  | setTemperature (temperature : UInt64)
  | getTemperature
  | setShutterOpen (isOpen : Bool)
  | setBinning (binning : Int32)
  | setGain (gain : Int32)
  | setOffset (offset : Int32)
  | setROIFrame (start_x start_y frame_x frame_y : Int32)
  deriving DecidableEq

/-- The commands other than `connect` do nothing. `getTemperature` returns `true` as a `double`. -/
def execute (command : Command) (c : INDICamera) : CommandAnswer × INDICamera :=
  match command with
  | .connect name reachable => (.bool (c.connect name reachable).1, (c.connect name reachable).2)
  | .getParameter _ | .setParameter _ _ => (.bool false, c)
  | .getTemperature => (.double (ofInt32 1), c)
  | .disconnect | .reconnect | .scanForAvailableDevices | .startExposure _ | .stopExposure
  | .waitForExposureComplete | .startLiveView | .stopLiveView | .setCoolingOn _
  | .setTemperature _ | .setShutterOpen _ | .setBinning _ | .setGain _ | .setOffset _
  | .setROIFrame _ _ _ _ => (.bool true, c)

/-! ### Forwarded properties -/

/-- `newProperty` passes the property on to `newNumber` or `newSwitch`. -/
def Forwarded : IndiProperty → Prop
  | .INDI_NUMBER nvp => (KeyedList.find? nvp.name forwardedNumbers).isSome
  | .INDI_SWITCH svp =>
    svp.name ≠ bytes "CONNECTION" ∧ (KeyedList.find? svp.name forwardedSwitches).isSome
  | _ => False

/-- The dispatch of `newNumber` or `newSwitch` has a branch for the property. -/
def Recognised : IndiProperty → Prop
  | .INDI_NUMBER nvp => (KeyedList.find? nvp.name numberHandlers).isSome
  | .INDI_SWITCH svp => (KeyedList.find? svp.name switchHandlers).isSome
  | _ => False

/-- The frame members and the frame of `camera_info` hold the elements of the vector. -/
def HoldsFrame (nvp : INumberVectorProperty) (c : INDICamera) : Prop :=
  ∃ x y width height, IUFindNumber nvp (bytes "X") = some x ∧
    IUFindNumber nvp (bytes "Y") = some y ∧ IUFindNumber nvp (bytes "WIDTH") = some width ∧
    IUFindNumber nvp (bytes "HEIGHT") = some height ∧
    c.indi_frame_x = some x ∧ c.indi_frame_y = some y ∧ c.indi_frame_width = some width ∧
    c.indi_frame_height = some height ∧
    Json.tree.get c.camera_info [bytes "frame"] = some (.object
      [(bytes "height", .numberFloat height.value), (bytes "width", .numberFloat width.value),
        (bytes "x", .numberFloat x.value), (bytes "y", .numberFloat y.value)])

/-- The same for the binning. -/
def HoldsBinning (nvp : INumberVectorProperty) (c : INDICamera) : Prop :=
  ∃ x y, IUFindNumber nvp (bytes "HOR_BIN") = some x ∧ IUFindNumber nvp (bytes "VER_BIN") = some y ∧
    c.indi_binning_x = some x ∧ c.indi_binning_y = some y ∧
    Json.tree.get c.camera_info [bytes "exposure"] = some (.object
      [(bytes "binning_x", .numberFloat x.value), (bytes "binning_y", .numberFloat y.value)])

/-- A property that is passed on is recognised, and after the frame or the binning was passed on the
members hold its elements. -/
def Agrees (c : INDICamera) (property : IndiProperty) : Prop :=
  Forwarded property → Recognised property ∧
    ∀ nvp c', property = .INDI_NUMBER nvp → newProperty property c = some c' →
      (nvp.name = indi_camera_cmd ++ bytes "FRAME" → HoldsFrame nvp c') ∧
      (nvp.name = indi_camera_cmd ++ bytes "BINNING" → HoldsBinning nvp c')

/-- The properties that the two dispatches spell differently, or that one of them lacks. -/
def Misnamed : IndiProperty → Prop
  | .INDI_NUMBER nvp => nvp.name = bytes "CCD_FRAME" ∨ nvp.name = bytes "CCD_BINNING"
  | .INDI_SWITCH svp => svp.name = bytes "CCD_COMPRESSION" ∨ svp.name = bytes "SIMULATION"
  | _ => False

/-- A number vector without a branch of its own changes nothing. -/
theorem newNumber_of_not_recognised {nvp : INumberVectorProperty} (c : INDICamera)
    (h : ¬ Recognised (.INDI_NUMBER nvp)) : newNumber nvp c = some c := by
  have hnone : KeyedList.find? nvp.name numberHandlers = none :=
    Option.not_isSome_iff_eq_none.mp h
  rw [newNumber, hnone]

theorem newSwitch_of_not_recognised {svp : ISwitchVectorProperty} (c : INDICamera)
    (h : ¬ Recognised (.INDI_SWITCH svp)) : newSwitch svp c = some c := by
  have hnone : KeyedList.find? svp.name switchHandlers = none :=
    Option.not_isSome_iff_eq_none.mp h
  rw [newSwitch, hnone]

theorem forwardedNumbers_recognised : ∀ name ∈ forwardedNumbers.map Prod.fst,
    name ∈ numberHandlers.map Prod.fst ∨ name = bytes "CCD_FRAME" ∨ name = bytes "CCD_BINNING" := by
  decide +kernel

theorem forwardedSwitches_recognised : ∀ name ∈ forwardedSwitches.map Prod.fst,
    name ∈ switchHandlers.map Prod.fst ∨ name = bytes "CCD_COMPRESSION" ∨
      name = bytes "SIMULATION" := by
  decide +kernel

/-- What is passed on is recognised, the misnamed properties apart. -/
theorem recognised_of_forwarded {property : IndiProperty} (h : Forwarded property)
    (hname : ¬ Misnamed property) : Recognised property := by
  cases property with
  | INDI_NUMBER nvp =>
    have hmem := forwardedNumbers_recognised nvp.name (KeyedList.find?_isSome_iff.mp h)
    exact KeyedList.find?_isSome_iff.mpr (hmem.resolve_right hname)
  | INDI_SWITCH svp =>
    have hmem := forwardedSwitches_recognised svp.name (KeyedList.find?_isSome_iff.mp h.2)
    exact KeyedList.find?_isSome_iff.mpr (hmem.resolve_right hname)
  | _ => exact h.elim

/-- The misnamed properties are passed on, but not recognised. -/
theorem misnamed_not_recognised {property : IndiProperty} (h : Misnamed property) :
    Forwarded property ∧ ¬ Recognised property := by
  cases property with
  | INDI_NUMBER nvp =>
    simp only [Forwarded, Recognised, KeyedList.find?_isSome_iff]
    rcases h with hname | hname
    · rw [hname]
      decide +kernel
    · rw [hname]
      decide +kernel
  | INDI_SWITCH svp =>
    simp only [Forwarded, Recognised, KeyedList.find?_isSome_iff]
    rcases h with hname | hname
    · rw [hname]
      decide +kernel
    · rw [hname]
      decide +kernel
  | _ => exact h.elim

/-- A misnamed property is stored, and the dispatch it is passed on to does nothing. -/
theorem newProperty_of_misnamed (c : INDICamera) {property : IndiProperty} (h : Misnamed property) :
    ∃ p, newProperty property c = some (c.point p property.getName) := by
  obtain ⟨hforwarded, hnot⟩ := misnamed_not_recognised h
  cases property with
  | INDI_NUMBER nvp =>
    obtain ⟨p, hp⟩ := Option.isSome_iff_exists.mp hforwarded
    have hrest := newNumber_of_not_recognised (c.point p nvp.name) hnot
    refine ⟨p, ?_⟩
    simp only [newProperty, newProperty_number, hp, hrest, IndiProperty.getName]
  | INDI_SWITCH svp =>
    obtain ⟨hconnection, hsome⟩ := hforwarded
    obtain ⟨p, hp⟩ := Option.isSome_iff_exists.mp hsome
    have hrest := newSwitch_of_not_recognised (c.point p svp.name) hnot
    refine ⟨p, ?_⟩
    simp only [newProperty, newProperty_switch, hconnection, hp, ↓reduceIte, hrest,
      IndiProperty.getName]
  | _ => exact h.elim

/-- In every state the two dispatches agree on a property exactly when it is none of the four that
they name differently. -/
theorem newProperty_agrees_iff (c : INDICamera) (property : IndiProperty) :
    Agrees c property ↔ ¬ Misnamed property := by
  constructor
  · intro hagrees hmisnamed
    obtain ⟨hforwarded, hnot⟩ := misnamed_not_recognised hmisnamed
    exact hnot (hagrees hforwarded).1
  · intro hname hforwarded
    refine ⟨recognised_of_forwarded hforwarded hname, ?_⟩
    intro nvp c' hproperty _
    subst hproperty
    -- the frame and the binning are among the misnamed properties
    have hframe : indi_camera_cmd ++ bytes "FRAME" = bytes "CCD_FRAME" := by decide
    have hbinning : indi_camera_cmd ++ bytes "BINNING" = bytes "CCD_BINNING" := by decide
    rw [hframe, hbinning]
    exact ⟨fun h => absurd (Or.inl h) hname, fun h => absurd (Or.inr h) hname⟩

/-! ### What the handlers leave alone -/

section Driver

variable {c c' : INDICamera}

theorem record_driver {path : List Bytes} {value : Json} (h : c.record path value = some c') :
    c'.toIndiDriver = c.toIndiDriver := by
  obtain ⟨info, -, rfl⟩ := Option.map_eq_some_iff.mp h
  rfl

theorem newNumber_values_driver {sub : Bytes} {elements : List (Bytes × Bytes)}
    {nvp : INumberVectorProperty} (h : newNumber_values sub elements nvp c = some c') :
    c'.toIndiDriver = c.toIndiDriver := by
  induction elements generalizing c with
  | nil =>
    obtain rfl := Option.some.inj h
    rfl
  | cons e elements ih =>
    simp only [newNumber_values, List.foldlM_cons, Option.bind_eq_bind,
      Option.bind_eq_some_iff] at h
    obtain ⟨c₁, ⟨n, -, hrecord⟩, hrest⟩ := h
    exact (ih hrest).trans (record_driver hrecord)

/-- `newNumber` writes only members of the camera itself. -/
theorem numberHandlers_driver : ∀ e ∈ numberHandlers, ∀ nvp c c', e.2 nvp c = some c' →
    c'.toIndiDriver = c.toIndiDriver := by
  simp only [numberHandlers, List.forall_mem_cons]
  refine ⟨?_, ?_, ?_, ?_, ?_, ?_, ?_, ?_, ?_, ?_, ?_, ?_, nofun⟩
  · intro nvp c c' h
    obtain ⟨exposure, -, h⟩ := Option.bind_eq_some_iff.mp h
    exact record_driver h
  · intro nvp c c' h
    simp only [newNumber_CCD_INFO, Option.bind_eq_bind, Option.bind_eq_some_iff] at h
    obtain ⟨info, -, pixel, -, x, -, y, -, mx, -, my, -, depth, -, h⟩ := h
    have hdriver := record_driver h
    exact hdriver
  · intro nvp c c' h
    simp only [newNumber_BINNING, Option.bind_eq_bind, Option.bind_eq_some_iff] at h
    obtain ⟨x, -, y, -, h⟩ := h
    have hdriver := record_driver h
    exact hdriver
  · intro nvp c c' h
    simp only [newNumber_FRAME, Option.bind_eq_bind, Option.bind_eq_some_iff] at h
    obtain ⟨x, -, y, -, width, -, height, -, h⟩ := h
    have hdriver := record_driver h
    exact hdriver
  iterate 3
    · intro nvp c c' h
      obtain ⟨value, -, h⟩ := Option.bind_eq_some_iff.mp h
      have hdriver := record_driver h
      exact hdriver
  all_goals exact fun _ _ _ h => newNumber_values_driver h

theorem newNumber_driver {nvp : INumberVectorProperty} (h : newNumber nvp c = some c') :
    c'.toIndiDriver = c.toIndiDriver := by
  cases hfind : KeyedList.find? nvp.name numberHandlers with
  | none =>
    simp only [newNumber, hfind, Option.some.injEq] at h
    rw [h]
  | some handler =>
    simp only [newNumber, hfind] at h
    exact numberHandlers_driver _ (KeyedList.mem_of_find? hfind) nvp c c' h

theorem newSwitch_choice_driver {names : List (Bytes × Bytes)} {path : List Bytes}
    {svp : ISwitchVectorProperty} (h : newSwitch_choice names path svp c = some c') :
    c'.toIndiDriver = c.toIndiDriver := by
  obtain ⟨choice, -, h⟩ := Option.bind_eq_some_iff.mp h
  exact record_driver h

/-- The document apart, the branch does what it does in the other drivers. -/
theorem newSwitch_CONNECTION_driver {svp : ISwitchVectorProperty}
    (h : newSwitch_CONNECTION svp c = some c') :
    c.toIndiDriver.newSwitch_CONNECTION clearedPointers svp = some c'.toIndiDriver := by
  obtain ⟨sw, hsw, h⟩ := Option.bind_eq_some_iff.mp h
  simp only [IndiDriver.newSwitch_CONNECTION, hsw, Option.bind_eq_bind, Option.bind_some]
  split_ifs at h ⊢
  · exact congrArg some (record_driver h).symm
  · exact congrArg some (record_driver h).symm
  · obtain rfl := Option.some.inj h
    rfl

/-- Only the first branch of `newSwitch` writes other members. -/
theorem switchHandlers_driver : ∀ e ∈ switchHandlers, e.1 ≠ bytes "CONNECTION" →
    ∀ svp c c', e.2 svp c = some c' → c'.toIndiDriver = c.toIndiDriver := by
  simp only [switchHandlers, List.forall_mem_cons]
  refine ⟨fun h => absurd rfl h, fun _ => ?_, fun _ => ?_, fun _ => ?_, fun _ => ?_, fun _ => ?_,
    fun _ => ?_, fun _ => ?_, fun _ => ?_, nofun⟩
  · intro svp c c' h
    obtain ⟨sw, -, h⟩ := Option.bind_eq_some_iff.mp h
    have hdriver := record_driver h
    exact hdriver
  · exact fun svp c c' h => newSwitch_choice_driver h
  · exact fun svp c c' h => newSwitch_choice_driver h
  · intro svp c c' h
    obtain ⟨sw, -, h⟩ := Option.bind_eq_some_iff.mp h
    split_ifs at h
    · have hdriver := record_driver h
      exact hdriver
    · obtain rfl := Option.some.inj h
      rfl
  · exact fun svp c c' h => newSwitch_choice_driver h
  · intro svp c c' h
    simp only [newSwitch_CCD_FAST_TOGGLE, Option.bind_eq_bind, Option.bind_eq_some_iff] at h
    obtain ⟨choice, -, mode, -, h⟩ := h
    exact record_driver h
  · intro svp c c' h
    obtain ⟨choice, -, h⟩ := Option.bind_eq_some_iff.mp h
    cases choice with
    | none =>
      obtain rfl := Option.some.inj h
      rfl
    | some on =>
      have hdriver := record_driver h
      exact hdriver
  · intro svp c c' h
    obtain rfl := Option.some.inj h
    rfl

theorem newSwitch_driver {svp : ISwitchVectorProperty} (h : newSwitch svp c = some c') :
    if svp.name = bytes "CONNECTION" then
      c.toIndiDriver.newSwitch_CONNECTION clearedPointers svp = some c'.toIndiDriver
    else c'.toIndiDriver = c.toIndiDriver := by
  cases hfind : KeyedList.find? svp.name switchHandlers with
  | none =>
    have hconnection : svp.name ≠ bytes "CONNECTION" := by
      intro hname
      rw [hname] at hfind
      cases hfind
    simp only [newSwitch, hfind, Option.some.injEq] at h
    rw [if_neg hconnection, h]
  | some handler =>
    simp only [newSwitch, hfind] at h
    split_ifs with hconnection
    · rw [hconnection] at hfind
      obtain rfl : newSwitch_CONNECTION = handler := Option.some.inj hfind
      exact newSwitch_CONNECTION_driver h
    · exact switchHandlers_driver _ (KeyedList.mem_of_find? hfind) hconnection svp c c' h

theorem newText_eq_some {tvp : ITextVectorProperty} (h : newText tvp c = some c') : c' = c := by
  obtain ⟨driver, hdriver, rfl⟩ := Option.map_eq_some_iff.mp h
  rw [IndiDriver.eq_of_newText hdriver]

theorem newProperty_CFA_driver (tvp : ITextVectorProperty) (c : INDICamera) :
    (newProperty_CFA tvp c).toIndiDriver = c.toIndiDriver := by
  unfold newProperty_CFA
  split
  · rfl
  · rfl

theorem newProperty_text_driver {tvp : ITextVectorProperty} (h : newProperty_text tvp c = some c') :
    c.toIndiDriver.newProperty_DRIVER_INFO tvp = some c'.toIndiDriver ∨
      c.toIndiDriver.Points [.camera_port, .active_device_prop] c'.toIndiDriver := by
  unfold newProperty_text at h
  split_ifs at h
  · obtain rfl := Option.some.inj h
    exact .inr (.inl (newProperty_CFA_driver tvp c))
  · simp only [newProperty_DEVICE_PORT, Option.bind_eq_bind, Option.bind_eq_some_iff] at h
    obtain ⟨text, -, port, -, h⟩ := h
    exact .inr (.inr ⟨.camera_port, by decide, tvp.name, record_driver h⟩)
  · simp only [newProperty_DRIVER_INFO, Option.bind_eq_bind, Option.bind_eq_some_iff] at h
    obtain ⟨driver, hdriver, c₁, h₁, c₂, h₂, c₃, h₃, h₄⟩ := h
    have hrecords : c'.toIndiDriver = driver := by
      calc c'.toIndiDriver = c₃.toIndiDriver := record_driver h₄
        _ = c₂.toIndiDriver := record_driver h₃
        _ = c₁.toIndiDriver := record_driver h₂
        _ = driver := record_driver h₁
    rw [hrecords]
    exact .inl hdriver
  · rw [newText_eq_some h]
    exact .inr (.inr ⟨.active_device_prop, by decide, tvp.name, rfl⟩)
  · obtain rfl := Option.some.inj h
    exact .inr (.inl rfl)

theorem newProperty_switch_driver {svp : ISwitchVectorProperty}
    (h : newProperty_switch svp c = some c') :
    if svp.name = bytes "CONNECTION" then
      c.toIndiDriver.newProperty_CONNECTION .connection_prop svp svp.connectOn =
        some c'.toIndiDriver
    else c.toIndiDriver.Points (forwardedSwitches.map Prod.snd) c'.toIndiDriver := by
  unfold newProperty_switch at h
  split_ifs at h ⊢ with hconnection
  · obtain ⟨sw, hsw, h⟩ := Option.bind_eq_some_iff.mp h
    obtain ⟨driver, hdriver, h⟩ := Option.bind_eq_some_iff.mp h
    obtain rfl := Option.some.inj h
    rw [connectOn_of_find hsw]
    exact hdriver
  · split at h
    · rename_i p hfind
      have hdriver := newSwitch_driver h
      rw [if_neg hconnection] at hdriver
      have hmem : p ∈ forwardedSwitches.map Prod.snd :=
        List.mem_map_of_mem (KeyedList.mem_of_find? hfind)
      exact .inr ⟨p, hmem, svp.name, hdriver⟩
    · obtain rfl := Option.some.inj h
      exact .inl rfl

theorem newProperty_number_driver {nvp : INumberVectorProperty}
    (h : newProperty_number nvp c = some c') :
    c'.toIndiDriver = match KeyedList.find? nvp.name forwardedNumbers with
      | some p => c.toIndiDriver.point p nvp.name
      | none => c.toIndiDriver := by
  unfold newProperty_number at h
  split at h
  · exact newNumber_driver h
  · rw [Option.some.inj h]

end Driver

/-- A camera about which nothing is known yet. -/
def unset : INDICamera where
  pointer _ := none
  numbers _ := none
  switches _ := none
  requests := []
  device_name := []
  hostname := bytes "127.0.0.1"
  port := 7624
  is_connected := false
  is_ready := false
  indi_exec := []
  indi_version := []
  indi_interface := []
  is_debug := false
  is_exposuring := false
  is_video := false
  is_color := false
  has_blob := false
  indi_blob_name := []
  pixel := 0
  pixel_x := 0
  pixel_y := 0
  max_frame_x := 0
  max_frame_y := 0
  pixel_depth := 0
  current_temperature := 0
  gain := 0
  offset := 0
  indi_binning_x := none
  indi_binning_y := none
  indi_frame_x := none
  indi_frame_y := none
  indi_frame_width := none
  indi_frame_height := none
  camera_info := .null

/-- The full frame of a sensor with 640 times 480 pixels. -/
def frameVector : INumberVectorProperty :=
  ⟨bytes "CCD_FRAME", [⟨bytes "X", 0⟩, ⟨bytes "Y", 0⟩, ⟨bytes "WIDTH", 0x4084000000000000⟩,
    ⟨bytes "HEIGHT", 0x407E000000000000⟩]⟩

/-- The frame is passed on to a dispatch that does not know it, and no member holds it. -/
theorem frame_not_recorded : ¬ Agrees unset (.INDI_NUMBER frameVector) ∧
    ∃ c, newProperty (.INDI_NUMBER frameVector) unset = some c ∧
      c.indi_frame_x = none ∧ c.camera_info.empty = true := by
  constructor
  · intro hagrees
    have hmisnamed : Misnamed (.INDI_NUMBER frameVector) := Or.inl rfl
    obtain ⟨hforwarded, hnot⟩ := misnamed_not_recognised hmisnamed
    exact hnot (hagrees hforwarded).1
  · have hrun : (newProperty (.INDI_NUMBER frameVector) unset).map
        (fun c => (c.indi_frame_x, c.camera_info.empty)) = some (none, true) := by decide +kernel
    obtain ⟨c, hc, hfields⟩ := Option.map_eq_some_iff.mp hrun
    exact ⟨c, hc, congrArg Prod.fst hfields, congrArg Prod.snd hfields⟩

end INDICamera

end OpenAPT
