import OpenAPT.IndiCamera
import OpenAPT.IndiFocuser
import OpenAPT.IndiSerial
import OpenAPT.Lib.LastReport

/-! The flag `is_connected` of the four drivers: what one event makes of it, and when it is false
after the events of a run. -/
namespace OpenAPT

/-- What the handler of an event makes of `is_connected`. -/
def IndiEvent.flag (e : IndiEvent) (is_connected : Bool) : Bool :=
  match e with
  | .IndiServerConnected => true
  | .newSwitch svp =>
    if svp.name = bytes "CONNECTION" then svp.connectOn || is_connected else is_connected
  | .newProperty (.INDI_SWITCH svp) =>
    if svp.name = bytes "CONNECTION" then svp.connectOn else is_connected
  | _ => is_connected

/-- An event that says nothing about the connection leaves the flag alone. -/
theorem IndiEvent.flag_of_connection?_none {e : IndiEvent} (h : e.connection? = none) (on : Bool) :
    e.flag on = on := by
  cases e with
  | newSwitch svp =>
    have hname : svp.name ≠ bytes "CONNECTION" := by
      intro hname
      simp [IndiEvent.connection?, hname] at h
    simp only [IndiEvent.flag, hname, ↓reduceIte]
  | newProperty property =>
    cases property with
    | INDI_SWITCH svp =>
      have hname : svp.name ≠ bytes "CONNECTION" := by
        intro hname
        simp [IndiEvent.connection?, hname] at h
      simp only [IndiEvent.flag, hname, ↓reduceIte]
    | _ => rfl
  | IndiServerConnected => cases h
  | _ => rfl

/-- What says that there is no connection does not set the flag. -/
theorem IndiEvent.flag_false {e : IndiEvent} (h : e.connection? = some false) :
    e.flag false = false := by
  cases e with
  | newSwitch svp =>
    simp only [IndiEvent.connection?, Option.ite_none_right_eq_some, Option.some.injEq] at h
    simp only [IndiEvent.flag, h, Bool.or_false, ↓reduceIte]
  | newProperty property =>
    cases property with
    | INDI_SWITCH svp =>
      simp only [IndiEvent.connection?, Option.ite_none_right_eq_some, Option.some.injEq] at h
      simp only [IndiEvent.flag, h, ↓reduceIte]
    | _ => rfl
  | IndiServerConnected => cases h
  | _ => rfl

/-- `newProperty` takes the flag from the vector. -/
theorem IndiEvent.flag_newProperty {svp : ISwitchVectorProperty}
    (h : (IndiEvent.newProperty (.INDI_SWITCH svp)).connection? = some false) (on : Bool) :
    (IndiEvent.newProperty (.INDI_SWITCH svp)).flag on = false := by
  simp only [IndiEvent.connection?, Option.ite_none_right_eq_some, Option.some.injEq] at h
  simp only [IndiEvent.flag, h, ↓reduceIte]

/-- Nothing else clears the flag. -/
theorem IndiEvent.newProperty_of_clears {e : IndiEvent} (hnone : e.connection? = some false)
    (h : e.flag true = false) : ∃ svp, e = .newProperty (.INDI_SWITCH svp) := by
  cases e with
  | newSwitch svp =>
    simp only [IndiEvent.flag, Bool.or_true, ite_self, Bool.true_eq_false] at h
  | newProperty property =>
    cases property with
    | INDI_SWITCH svp => exact ⟨svp, rfl⟩
    | _ => cases h
  | _ => cases h

section Flag

variable {P : Type} {d d' : IndiDriver P}

theorem IndiDriver.receive_flag (d : IndiDriver P) (e : IndiEvent) :
    (d.receive e).is_connected = d.is_connected := by
  obtain ⟨numbers, switches, hreceive⟩ := d.receive_eq e
  rw [hreceive]

variable [DecidableEq P]

theorem IndiDriver.newSwitch_CONNECTION_flag {cleared : List P} {svp : ISwitchVectorProperty}
    (h : IndiDriver.newSwitch_CONNECTION cleared svp d = some d') :
    d'.is_connected = (svp.connectOn || d.is_connected) := by
  rw [newSwitch_CONNECTION_eq_some h]
  split_ifs with hon
  · rw [hon, Bool.true_or]
  · -- only the pointers are cleared
    rw [eq_false_of_ne_true hon, Bool.false_or]
    rfl
  · rw [eq_false_of_ne_true hon, Bool.false_or]

theorem IndiDriver.newDevice_flag (p : P) (deviceName : Bytes) (d : IndiDriver P) :
    (d.newDevice p deviceName).is_connected = d.is_connected := by
  unfold IndiDriver.newDevice
  split_ifs
  · rfl
  · rfl

theorem IndiDriver.Points.flag {ps : List P} (h : d.Points ps d') :
    d'.is_connected = d.is_connected := by
  rcases h with rfl | ⟨p, -, name, rfl⟩
  · rfl
  · rfl

/-- The flag after a new switch, where only the branch `CONNECTION` changes what drivers share. -/
theorem IndiDriver.newSwitch_flag {cleared : List P} {svp : ISwitchVectorProperty}
    (h : if svp.name = bytes "CONNECTION" then d.newSwitch_CONNECTION cleared svp = some d'
      else d' = d) :
    d'.is_connected = (IndiEvent.newSwitch svp).flag d.is_connected := by
  simp only [IndiEvent.flag]
  split_ifs at h ⊢
  · exact newSwitch_CONNECTION_flag h
  · rw [h]

theorem IndiDriver.newProperty_switch_flag {p : P} {ps : List P} {svp : ISwitchVectorProperty}
    (h : if svp.name = bytes "CONNECTION" then
        d.newProperty_CONNECTION p svp svp.connectOn = some d'
      else d.Points ps d') :
    d'.is_connected = (IndiEvent.newProperty (.INDI_SWITCH svp)).flag d.is_connected := by
  simp only [IndiEvent.flag]
  split_ifs at h ⊢
  · exact (newProperty_CONNECTION_eq_some h).1
  · exact h.flag

theorem IndiDriver.newProperty_text_flag {ps : List P} {tvp : ITextVectorProperty}
    (h : d.newProperty_DRIVER_INFO tvp = some d' ∨ d.Points ps d') :
    d'.is_connected = d.is_connected := by
  rcases h with hdriver | hpoints
  · exact (newProperty_DRIVER_INFO_eq_some hdriver).1
  · exact hpoints.flag

end Flag

namespace SerialDriver

variable {cmd : Bytes} {d d' : SerialDriver}

theorem newSwitch_DEVICE_BAUD_RATE_flag {svp : ISwitchVectorProperty}
    (h : newSwitch_DEVICE_BAUD_RATE svp d = some d') : d'.is_connected = d.is_connected := by
  obtain ⟨rate, -, h⟩ := Option.bind_eq_some_iff.mp h
  obtain rfl := Option.some.inj h
  rfl

theorem newSwitch_flag {svp : ISwitchVectorProperty} (h : newSwitch svp d = some d') :
    d'.is_connected = (IndiEvent.newSwitch svp).flag d.is_connected := by
  unfold newSwitch at h
  split_ifs at h with hconnection hrate
  all_goals simp only [IndiEvent.flag, hconnection, ↓reduceIte]
  · obtain ⟨driver, hdriver, rfl⟩ := Option.map_eq_some_iff.mp h
    exact IndiDriver.newSwitch_CONNECTION_flag hdriver
  · exact newSwitch_DEVICE_BAUD_RATE_flag h
  · obtain rfl := Option.some.inj h
    rfl

theorem newProperty_text_flag {tvp : ITextVectorProperty}
    (h : newProperty_text cmd tvp d = some d') : d'.is_connected = d.is_connected := by
  unfold newProperty_text at h
  split_ifs at h
  · obtain rfl := Option.some.inj h
    rfl
  · obtain ⟨driver, hdriver, rfl⟩ := Option.map_eq_some_iff.mp h
    exact (IndiDriver.newProperty_DRIVER_INFO_eq_some hdriver).1
  · obtain ⟨port, -, h⟩ := Option.bind_eq_some_iff.mp h
    obtain rfl := Option.some.inj h
    rfl
  · obtain rfl := Option.some.inj h
    rfl

theorem newProperty_switch_flag {svp : ISwitchVectorProperty}
    (h : newProperty_switch cmd svp d = some d') :
    d'.is_connected = (IndiEvent.newProperty (.INDI_SWITCH svp)).flag d.is_connected := by
  unfold newProperty_switch at h
  split_ifs at h with hconnection hrate
  all_goals simp only [IndiEvent.flag, hconnection, ↓reduceIte]
  · obtain ⟨sw, hsw, h⟩ := Option.bind_eq_some_iff.mp h
    obtain ⟨driver, hdriver, h⟩ := Option.bind_eq_some_iff.mp h
    obtain rfl := Option.some.inj h
    rw [connectOn_of_find hsw]
    exact (IndiDriver.newProperty_CONNECTION_eq_some hdriver).1
  · have hflag := newSwitch_DEVICE_BAUD_RATE_flag h
    exact hflag
  · obtain rfl := Option.some.inj h
    rfl

theorem newProperty_number_flag (cmd : Bytes) (nvp : INumberVectorProperty) (d : SerialDriver) :
    (newProperty_number cmd nvp d).is_connected = d.is_connected := by
  unfold newProperty_number
  split_ifs
  · rfl
  · rfl

theorem step_flag {e : IndiEvent} (h : step cmd d e = some d') :
    d'.is_connected = e.flag d.is_connected := by
  have hreceive : (d.receive e).is_connected = d.is_connected := d.toIndiDriver.receive_flag e
  rw [← hreceive]
  unfold step at h
  generalize d.receive e = d at h
  cases e with
  | newDevice deviceName =>
    obtain rfl := Option.some.inj h
    exact IndiDriver.newDevice_flag _ _ _
  | newSwitch svp => exact newSwitch_flag h
  | newText tvp =>
    obtain ⟨driver, hdriver, rfl⟩ := Option.map_eq_some_iff.mp h
    obtain rfl := IndiDriver.eq_of_newText hdriver
    rfl
  | newProperty property =>
    cases property with
    | INDI_TEXT tvp => exact newProperty_text_flag h
    | INDI_SWITCH svp => exact newProperty_switch_flag h
    | INDI_NUMBER nvp =>
      obtain rfl := Option.some.inj h
      exact newProperty_number_flag cmd nvp d
    | _ =>
      obtain rfl := Option.some.inj h
      rfl
  | _ =>
    obtain rfl := Option.some.inj h
    rfl

end SerialDriver

namespace INDIFocuser

variable {f f' : INDIFocuser}

theorem step_flag {e : IndiEvent}
    (h : step f e = some f') : f'.is_connected = e.flag f.is_connected := by
  have hreceive : (f.receive e).is_connected = f.is_connected := f.toIndiDriver.receive_flag e
  rw [← hreceive]
  unfold step at h
  generalize f.receive e = f at h
  cases e with
  | newDevice deviceName =>
    obtain rfl := Option.some.inj h
    exact IndiDriver.newDevice_flag _ _ _
  | newSwitch svp => exact IndiDriver.newSwitch_flag (newSwitch_driver h)
  | newNumber nvp => exact congrArg IndiDriver.is_connected (newNumber_driver h)
  | newText tvp =>
    obtain ⟨driver, hdriver, rfl⟩ := Option.map_eq_some_iff.mp h
    obtain rfl := IndiDriver.eq_of_newText hdriver
    rfl
  | newProperty property =>
    simp only [handle, newProperty] at h
    split_ifs at h with hname
    · -- a property without a name is not the connection
      obtain rfl := Option.some.inj h
      cases property with
      | INDI_SWITCH svp =>
        have hconnection : svp.name ≠ bytes "CONNECTION" := by
          have hsvp : svp.name = [] := hname
          rw [hsvp]
          decide
        simp only [IndiEvent.flag, hconnection, ↓reduceIte]
      | _ => rfl
    · cases property with
      | INDI_TEXT tvp => exact IndiDriver.newProperty_text_flag (newProperty_text_driver h)
      | INDI_SWITCH svp =>
        exact IndiDriver.newProperty_switch_flag (newProperty_switch_driver h)
      | INDI_NUMBER nvp => exact (newProperty_number_driver h).flag
      | _ =>
        obtain rfl := Option.some.inj h
        rfl
  | _ =>
    obtain rfl := Option.some.inj h
    rfl

end INDIFocuser

namespace INDICamera

variable {c c' : INDICamera}

theorem step_flag {e : IndiEvent} (h : step c e = some c') :
    c'.is_connected = e.flag c.is_connected := by
  have hreceive : (c.receive e).is_connected = c.is_connected := c.toIndiDriver.receive_flag e
  rw [← hreceive]
  unfold step at h
  generalize c.receive e = c at h
  cases e with
  | newDevice deviceName =>
    obtain rfl := Option.some.inj h
    exact IndiDriver.newDevice_flag _ _ _
  | newSwitch svp => exact IndiDriver.newSwitch_flag (newSwitch_driver h)
  | newNumber nvp => exact congrArg IndiDriver.is_connected (newNumber_driver h)
  | newText tvp =>
    rw [newText_eq_some h]
    rfl
  | newProperty property =>
    cases property with
    | INDI_TEXT tvp => exact IndiDriver.newProperty_text_flag (newProperty_text_driver h)
    | INDI_SWITCH svp => exact IndiDriver.newProperty_switch_flag (newProperty_switch_driver h)
    | INDI_NUMBER nvp =>
      rw [newProperty_number_driver h]
      split
      · rfl
      · rfl
    | INDI_LIGHT name =>
      obtain rfl := Option.some.inj h
      rfl
    | INDI_BLOB name =>
      obtain rfl := Option.some.inj h
      unfold newProperty_blob
      split_ifs
      · rfl
      · rfl
  | _ =>
    obtain rfl := Option.some.inj h
    rfl

end INDICamera

/-! ### The four drivers -/

/-- While the flag is not set, `connect` goes to the server. -/
theorem IndiDriver.connect_requests {P : Type} {d : IndiDriver P} (h : d.is_connected = false)
    (name : Bytes) (reachable : Bool) :
    ∃ after, (d.connect name reachable).2.requests = d.requests ++
      [.setServer d.hostname d.port, .watchDevice name] ++ .connectServer :: after := by
  unfold IndiDriver.connect
  rw [h]
  cases reachable with
  | false => exact ⟨[], by simp [request, connectServer]⟩
  | true =>
    exact ⟨[.connectDevice name], by simp [request, connectServer, IndiServerConnected]⟩

theorem INDICamera.connect_requests (c : INDICamera) (name : Bytes) (reachable : Bool) :
    ∃ after, (c.connect name reachable).2.requests = c.requests ++
      [.setServer c.hostname c.port, .watchDevice name] ++ .connectServer :: after := by
  cases reachable with
  | false =>
    exact ⟨[], by simp [INDICamera.connect, IndiDriver.request, IndiDriver.connectServer]⟩
  | true =>
    exact ⟨[.connectDevice name], by simp [INDICamera.connect, IndiDriver.request,
      IndiDriver.connectServer, IndiDriver.IndiServerConnected]⟩

inductive INDIDriver
  | camera
  | focuser
  | filterwheel
  | telescope

namespace INDIDriver

open EventMachine LastReport

def State : INDIDriver → Type
  | camera => INDICamera
  | focuser => INDIFocuser
  | filterwheel => INDIFilterwheel
  | telescope => INDITelescope

def step : (d : INDIDriver) → d.State → IndiEvent → Option d.State
  | camera => INDICamera.step
  | focuser => INDIFocuser.step
  | filterwheel => INDIFilterwheel.step
  | telescope => INDITelescope.step

def is_connected : (d : INDIDriver) → d.State → Bool
  | camera => fun c : INDICamera => c.is_connected
  | focuser => fun f : INDIFocuser => f.is_connected
  | filterwheel => fun f : INDIFilterwheel => f.is_connected
  | telescope => fun t : INDITelescope => t.is_connected

def requests : (d : INDIDriver) → d.State → List IndiRequest
  | camera => fun c : INDICamera => c.requests
  | focuser => fun f : INDIFocuser => f.requests
  | filterwheel => fun f : INDIFilterwheel => f.requests
  | telescope => fun t : INDITelescope => t.requests

def connect (name : Bytes) (reachable : Bool) : (d : INDIDriver) → d.State → Option (Bool × d.State)
  | camera => fun c => some (INDICamera.connect name reachable c)
  | focuser => fun f => some (INDIFocuser.connect name reachable f)
  | filterwheel => fun f => some (INDIFilterwheel.connect name reachable f)
  | telescope => fun t => INDITelescope.connect name reachable t

/-- The telescope refuses to connect without a host and a port. -/
def HasHost : (d : INDIDriver) → d.State → Prop
  | telescope => fun t : INDITelescope => t.hostname ≠ [] ∧ t.port ≠ 0
  | _ => fun _ => True

/-- `connect` asks the library to connect to the server. -/
def Contacts (d : INDIDriver) (s : d.State) : Prop :=
  ∀ name reachable, ∃ result before after, d.connect name reachable s = some result ∧
    d.requests result.2 = d.requests s ++ before ++ .connectServer :: after

/-- The last event that says anything about the connection says that there is none. -/
def SaysDisconnected (events : List IndiEvent) : Prop :=
  ∃ e after, Latest (fun e (_ : Unit) => e.connection?) events e after () false

/-- While the flag is set, only `newProperty` says that there is no connection. -/
def ClearsFlag (d : INDIDriver) (s : d.State) (e : IndiEvent) : Prop :=
  e.connection? = some false → d.is_connected s = true → ∃ svp, e = .newProperty (.INDI_SWITCH svp)

theorem step_flag (d : INDIDriver) {s t : d.State} {e : IndiEvent} (h : d.step s e = some t) :
    d.is_connected t = e.flag (d.is_connected s) := by
  cases d with
  | camera => exact INDICamera.step_flag h
  | focuser => exact INDIFocuser.step_flag h
  | filterwheel => exact SerialDriver.step_flag h
  | telescope => exact SerialDriver.step_flag h

/-- Events that say nothing about the connection leave the flag alone. -/
theorem run_flag (d : INDIDriver) {s t : d.State} {events : List IndiEvent}
    (h : run d.step s events = some t) (hsilent : ∀ e ∈ events, e.connection? = none) :
    d.is_connected t = d.is_connected s := by
  induction events generalizing s with
  | nil =>
    obtain rfl : s = t := by simpa using h
    rfl
  | cons e events ih =>
    obtain ⟨u, hu, hrest⟩ := (run_cons_eq_some d.step).mp h
    have he : e.connection? = none := hsilent e List.mem_cons_self
    calc d.is_connected t
      _ = d.is_connected u := ih hrest fun a ha => hsilent a (List.mem_cons_of_mem e ha)
      _ = e.flag (d.is_connected s) := d.step_flag hu
      _ = d.is_connected s := IndiEvent.flag_of_connection?_none he _

/-- A driver that is not connected contacts the server again. -/
theorem contacts_of_not_connected (d : INDIDriver) {s : d.State} (h : d.is_connected s = false)
    (hhost : d.HasHost s) : d.Contacts s := by
  intro name reachable
  cases d with
  | camera =>
    -- the camera does not look at the flag, and its hypothesis is not needed
    obtain ⟨after, hafter⟩ := INDICamera.connect_requests s name reachable
    exact ⟨_, _, after, rfl, hafter⟩
  | focuser =>
    obtain ⟨after, hafter⟩ := IndiDriver.connect_requests h name reachable
    exact ⟨_, _, after, rfl, hafter⟩
  | filterwheel =>
    obtain ⟨after, hafter⟩ := IndiDriver.connect_requests h name reachable
    exact ⟨_, _, after, rfl, hafter⟩
  | telescope =>
    obtain ⟨after, hafter⟩ := IndiDriver.connect_requests h name reachable
    have hnot : ¬ (IndiDriver.hostname s.toIndiDriver = [] ∨ IndiDriver.port s.toIndiDriver = 0) :=
      not_or.mpr hhost
    have hflag : IndiDriver.is_connected s.toIndiDriver = false := h
    have hconnect : INDITelescope.connect name reachable s =
        some (SerialDriver.connect name reachable s) := by
      simp only [INDITelescope.connect, hflag, hnot, Bool.false_eq_true, ↓reduceIte]
    exact ⟨_, _, after, hconnect, hafter⟩

/-- In a run from any state: after every part of the run whose last word about the connection is
that there is none, the flag is false and the driver contacts the server again, exactly when
`newProperty` is the only one to say so while the flag is set. -/
theorem is_connected_cleared_iff (d : INDIDriver) {s t : d.State} {events : List IndiEvent}
    (h : run d.step s events = some t) :
    (∀ before after u, events = before ++ after → run d.step s before = some u →
      SaysDisconnected before → d.is_connected u = false ∧ (d.HasHost u → d.Contacts u)) ↔
    Steps d.step d.ClearsFlag s events := by
  rw [steps_iff_forall_split]
  constructor
  · intro hcleared before e after u hevents hu hsays hset
    -- the part of the run that ends with this event
    have hsplit : events = (before ++ [e]) ++ after := by rw [hevents, List.append_cons]
    rw [hevents] at h
    obtain ⟨u', hu', hrest⟩ := run_append_eq_some.mp h
    obtain rfl : u = u' := Option.some.inj (hu.symm.trans hu')
    obtain ⟨v, hv, -⟩ := (run_cons_eq_some d.step).mp hrest
    have hrun : run d.step s (before ++ [e]) = some v :=
      run_append hu ((run_cons_eq_some d.step).mpr ⟨v, hv, rfl⟩)
    have hlatest : SaysDisconnected (before ++ [e]) :=
      ⟨e, [], ⟨before, rfl⟩, hsays, fun a ha => absurd ha List.not_mem_nil⟩
    have hfalse : e.flag true = false := by
      rw [← hset, ← d.step_flag hv]
      exact (hcleared _ after v hsplit hrun hlatest).1
    exact IndiEvent.newProperty_of_clears hsays hfalse
  · intro hclears before after u hevents hu hsays
    -- the event that says so, and those after it, which say nothing
    obtain ⟨e, later, ⟨earlier, rfl⟩, hnone, hlater⟩ := hsays
    obtain ⟨v, hv, hrest⟩ := run_append_eq_some.mp hu
    obtain ⟨w, hw, hlast⟩ := (run_cons_eq_some d.step).mp hrest
    have hsplit : events = earlier ++ e :: (later ++ after) := by
      rw [hevents, List.append_assoc, List.cons_append]
    have hfalse : e.flag (d.is_connected v) = false := by
      cases hset : d.is_connected v with
      | false => exact IndiEvent.flag_false hnone
      | true =>
        obtain ⟨svp, rfl⟩ := hclears earlier e _ v hsplit hv hnone hset
        exact IndiEvent.flag_newProperty hnone true
    have hflag : d.is_connected u = false := by
      calc d.is_connected u
        _ = d.is_connected w := d.run_flag hlast hlater
        _ = e.flag (d.is_connected v) := d.step_flag hw
        _ = false := hfalse
    exact ⟨hflag, d.contacts_of_not_connected hflag⟩

/-- A `CONNECTION` vector of a device that is connected or not. -/
def connectionVector (on : Bool) : ISwitchVectorProperty :=
  ⟨bytes "CONNECTION", [⟨bytes "CONNECT", if on then .ISS_ON else .ISS_OFF⟩,
    ⟨bytes "DISCONNECT", if on then .ISS_OFF else .ISS_ON⟩]⟩

/-- A focuser that is announced as not connected clears its flag. -/
theorem focuser_announced : ∃ t, run focuser.step INDIFocuser.unset
      [.newSwitch (connectionVector true), .newProperty (.INDI_SWITCH (connectionVector false))] =
        some t ∧
    focuser.is_connected t = false ∧ focuser.Contacts t := by
  obtain ⟨t, ht⟩ : ∃ t, run focuser.step INDIFocuser.unset
      [.newSwitch (connectionVector true), .newProperty (.INDI_SWITCH (connectionVector false))] =
        some t := Option.isSome_iff_exists.mp (by decide +kernel)
  have hclears : Steps focuser.step focuser.ClearsFlag INDIFocuser.unset
      [.newSwitch (connectionVector true),
        .newProperty (.INDI_SWITCH (connectionVector false))] := by
    refine ⟨fun hsays => absurd hsays (by decide), fun u _ => ⟨fun _ _ => ⟨_, rfl⟩, ?_⟩⟩
    exact fun _ _ => trivial
  have hlatest : SaysDisconnected [.newSwitch (connectionVector true),
      .newProperty (.INDI_SWITCH (connectionVector false))] :=
    ⟨.newProperty (.INDI_SWITCH (connectionVector false)), [],
      ⟨[.newSwitch (connectionVector true)], rfl⟩, by decide,
      fun a ha => absurd ha List.not_mem_nil⟩
  have hcleared := (is_connected_cleared_iff focuser ht).mpr hclears _ [] t
    (List.append_nil _).symm ht hlatest
  exact ⟨t, ht, hcleared.1, hcleared.2 trivial⟩

/-- A focuser that loses the server stays connected, and `connect` makes no request. -/
theorem disconnected_focuser_stays_connected : ∃ t, run focuser.step INDIFocuser.unset
      [.newSwitch (connectionVector true), .IndiServerDisconnected (-1)] = some t ∧
    SaysDisconnected [.newSwitch (connectionVector true), .IndiServerDisconnected (-1)] ∧
    focuser.is_connected t = true ∧ ¬ focuser.Contacts t := by
  have hrun : (run focuser.step INDIFocuser.unset
      [.newSwitch (connectionVector true), .IndiServerDisconnected (-1)]).map
        (fun t => (focuser.is_connected t, focuser.requests t)) = some (true, []) := by
    decide +kernel
  obtain ⟨t, ht, hfields⟩ := Option.map_eq_some_iff.mp hrun
  have hset : focuser.is_connected t = true := congrArg Prod.fst hfields
  have hrequests : focuser.requests t = [] := congrArg Prod.snd hfields
  refine ⟨t, ht, ?_, hset, fun hcontacts => ?_⟩
  · refine ⟨.IndiServerDisconnected (-1), [], ⟨[.newSwitch (connectionVector true)], rfl⟩, rfl, ?_⟩
    exact fun a ha => absurd ha List.not_mem_nil
  · -- the flag is looked at first
    obtain ⟨result, before, after, hresult, hrequest⟩ := hcontacts [] true
    have hconnect : focuser.connect [] true t = some (true, t) := by
      have hflag : IndiDriver.is_connected (INDIFocuser.toIndiDriver t) = true := hset
      simp only [connect, INDIFocuser.connect, IndiDriver.connect, hflag, ↓reduceIte]
      rfl
    obtain rfl : (true, t) = result := Option.some.inj (hconnect.symm.trans hresult)
    rw [hrequests] at hrequest
    simp at hrequest

end INDIDriver

end OpenAPT
