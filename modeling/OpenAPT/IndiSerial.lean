import OpenAPT.IndiClient

/-! The event handlers of `INDIFilterwheel` and `INDITelescope`. The two differ in the names of
their members, and in `connect`. -/
namespace OpenAPT

/-- The pointer members of `INDIFilterwheel` and of `INDITelescope`. -/
inductive SerialPointer
  | connection_prop
  | info_prop
  | port
  | rate_prop
  | device
  deriving DecidableEq

/-- The members of `INDIFilterwheel` and of `INDITelescope`, which only have other names there. -/
structure SerialDriver extends IndiDriver SerialPointer where
  indi_port : Bytes
  indi_rate : Bytes

namespace SerialDriver

def clearedPointers : List SerialPointer :=
  [.connection_prop, .port, .device, .rate_prop, .info_prop]

def ClearStatus (d : SerialDriver) : SerialDriver :=
  { d with toIndiDriver := d.toIndiDriver.ClearStatus clearedPointers }

def point (p : SerialPointer) (name : Bytes) (d : SerialDriver) : SerialDriver :=
  { d with toIndiDriver := d.toIndiDriver.point p name }

def newSwitch_DEVICE_BAUD_RATE (svp : ISwitchVectorProperty) (d : SerialDriver) :
    Option SerialDriver := do
  let rate ← baudRate svp d.indi_rate
  pure { d with indi_rate := rate }

def newSwitch (svp : ISwitchVectorProperty) (d : SerialDriver) : Option SerialDriver :=
  if svp.name = bytes "CONNECTION" then
    (d.toIndiDriver.newSwitch_CONNECTION clearedPointers svp).map fun driver =>
      { d with toIndiDriver := driver }
  else if svp.name = bytes "DEVICE_BAUD_RATE" then newSwitch_DEVICE_BAUD_RATE svp d
  else some d

/-- The vector is logged, and nothing is done with it. -/
def newNumber (_nvp : INumberVectorProperty) (d : SerialDriver) : SerialDriver := d

def newText (tvp : ITextVectorProperty) (d : SerialDriver) : Option SerialDriver :=
  (d.toIndiDriver.newText tvp).map fun driver => { d with toIndiDriver := driver }

/-- `cmd` is the prefix of the driver. -/
def newProperty_text (cmd : Bytes) (tvp : ITextVectorProperty) (d : SerialDriver) :
    Option SerialDriver :=
  if tvp.name = bytes "DEVICE_PORT" then some (d.point .port tvp.name)
  else if tvp.name = bytes "DRIVER_INFO" then
    (d.toIndiDriver.newProperty_DRIVER_INFO tvp).map fun driver => { d with toIndiDriver := driver }
  else if tvp.name = cmd ++ bytes "DEVICE_PORT" then do
    let port ← textValue tvp (bytes "PORT")
    pure { d with indi_port := port }
  else some d

def newProperty_switch (cmd : Bytes) (svp : ISwitchVectorProperty) (d : SerialDriver) :
    Option SerialDriver :=
  if svp.name = bytes "CONNECTION" then do
    let connectswitch ← IUFindSwitch svp (bytes "CONNECT")
    let driver ← d.toIndiDriver.newProperty_CONNECTION .connection_prop svp
      (decide (connectswitch.s = .ISS_ON))
    pure { d with toIndiDriver := driver }
  else if svp.name = cmd ++ bytes "DEVICE_BAUD_RATE" then
    newSwitch_DEVICE_BAUD_RATE svp (d.point .rate_prop svp.name)
  else some d

def newProperty_number (cmd : Bytes) (nvp : INumberVectorProperty) (d : SerialDriver) :
    SerialDriver :=
  if nvp.name = cmd ++ bytes "INFO" then newNumber nvp (d.point .info_prop nvp.name) else d

def newProperty (cmd : Bytes) (property : IndiProperty) (d : SerialDriver) : Option SerialDriver :=
  match property with
  | .INDI_TEXT tvp => newProperty_text cmd tvp d
  | .INDI_SWITCH svp => newProperty_switch cmd svp d
  | .INDI_NUMBER nvp => some (newProperty_number cmd nvp d)
  | .INDI_LIGHT _ | .INDI_BLOB _ => some d

def newDevice (deviceName : Bytes) (d : SerialDriver) : SerialDriver :=
  { d with toIndiDriver := d.toIndiDriver.newDevice .device deviceName }

def receive (e : IndiEvent) (d : SerialDriver) : SerialDriver :=
  { d with toIndiDriver := d.toIndiDriver.receive e }

/-- The handler of an event. -/
def handle (cmd : Bytes) (e : IndiEvent) (d : SerialDriver) : Option SerialDriver :=
  match e with
  | .newDevice deviceName => some (newDevice deviceName d)
  | .removeDevice _ => some d.ClearStatus
  | .newProperty property => newProperty cmd property d
  | .newSwitch svp => newSwitch svp d
  | .newNumber nvp => some (newNumber nvp d)
  | .newText tvp => newText tvp d
  | .IndiServerConnected => some { d with toIndiDriver := d.toIndiDriver.IndiServerConnected }
  | .IndiServerDisconnected _ => some d.ClearStatus

/-- The library updates its own vector, and calls the handler. -/
def step (cmd : Bytes) (d : SerialDriver) (e : IndiEvent) : Option SerialDriver :=
  handle cmd e (d.receive e)

def connect (name : Bytes) (reachable : Bool) (d : SerialDriver) : Bool × SerialDriver :=
  let (connected, driver) := d.toIndiDriver.connect name reachable
  (connected, { d with toIndiDriver := driver })

end SerialDriver

abbrev INDIFilterwheel := SerialDriver

namespace INDIFilterwheel

/-- The prefix is never set. -/
def indi_filter_cmd : Bytes := []

def step (f : INDIFilterwheel) (e : IndiEvent) : Option INDIFilterwheel :=
  SerialDriver.step indi_filter_cmd f e

def connect (name : Bytes) (reachable : Bool) (f : INDIFilterwheel) : Bool × INDIFilterwheel :=
  SerialDriver.connect name reachable f

end INDIFilterwheel

abbrev INDITelescope := SerialDriver

namespace INDITelescope

/-- The prefix is never set. -/
def indi_telescope_cmd : Bytes := []

def step (t : INDITelescope) (e : IndiEvent) : Option INDITelescope :=
  SerialDriver.step indi_telescope_cmd t e

/-- It throws where there is no host or port to connect to. -/
def connect (name : Bytes) (reachable : Bool) (t : INDITelescope) :
    Option (Bool × INDITelescope) :=
  if t.is_connected then some (true, t)
  else if t.hostname = [] ∨ t.port = 0 then none
  else some (SerialDriver.connect name reachable t)

end INDITelescope

end OpenAPT
