import OpenAPT.IndiCamera
import OpenAPT.IndiFocuser
import OpenAPT.Lib.PastTime

/-! The pointer members of the camera and the focuser: which of them a call dereferences, and what
they hold then. -/
namespace OpenAPT

open EventMachine PastTime

/-- The calls made on a driver: the events of the client library, and the driver's commands. -/
inductive DriverCall (C : Type)
  | event (e : IndiEvent)
  | command (command : C)

/-- The call is an event with `p`. -/
def DriverCall.On {C : Type} (p : IndiEvent → Prop) : DriverCall C → Prop
  | event e => p e
  | command _ => False

/-- A number vector with this name is announced. -/
def IndiEvent.AnnouncesNumber (name : Bytes) : IndiEvent → Prop
  | .newProperty (.INDI_NUMBER nvp) => nvp.name = name
  | _ => False

/-- A number vector with this name has new values. -/
def IndiEvent.UpdatesNumber (name : Bytes) : IndiEvent → Prop
  | .newNumber nvp => nvp.name = name
  | _ => False

/-- A switch vector with one of these names is announced. -/
def IndiEvent.AnnouncesSwitch (names : List Bytes) : IndiEvent → Prop
  | .newProperty (.INDI_SWITCH svp) => svp.name ∈ names
  | _ => False

/-- The event sets the pointers to null. A device that is disconnected only does so to a driver that
is ready. -/
def IndiEvent.ClearsPointers (is_ready : Bool) : IndiEvent → Prop
  | .removeDevice _ | .IndiServerDisconnected _ => True
  | .newSwitch svp =>
    svp.name = bytes "CONNECTION" ∧ svp.connectOn = false ∧ is_ready = true
  | _ => False

namespace IndiDriver

variable {P : Type} {d d' : IndiDriver P}

/-- A pointer member, with what it holds. -/
def held (d : IndiDriver P) (p : P) : P × Option Bytes := (p, d.pointer p)

@[simp] theorem held_snd (d : IndiDriver P) (p : P) : (d.held p).2 = d.pointer p := rfl

theorem none_mem_held (d : IndiDriver P) (p : P) :
    none ∈ [d.held p].map Prod.snd ↔ d.pointer p = none := by
  simp [eq_comm]

@[simp] theorem pointer_receive (d : IndiDriver P) (e : IndiEvent) :
    (d.receive e).pointer = d.pointer := by
  obtain ⟨numbers, switches, heq⟩ := d.receive_eq e
  rw [heq]

@[simp] theorem pointer_point [DecidableEq P] (d : IndiDriver P) (p : P) (name : Bytes) :
    (d.point p name).pointer p = some name := by
  simp [point]

/-- The members that say where the pointers lead are the same. -/
structure KeepsPointer (p : P) (d d' : IndiDriver P) : Prop where
  pointer : d'.pointer p = d.pointer p
  ready : d'.is_ready = d.is_ready

namespace KeepsPointer

variable {p : P}

theorem refl (d : IndiDriver P) : KeepsPointer p d d := ⟨rfl, rfl⟩

theorem receive (d : IndiDriver P) (e : IndiEvent) : KeepsPointer p d (d.receive e) := by
  obtain ⟨numbers, switches, heq⟩ := d.receive_eq e
  rw [heq]
  exact ⟨rfl, rfl⟩

theorem newProperty_DRIVER_INFO {tvp : ITextVectorProperty}
    (h : d.newProperty_DRIVER_INFO tvp = some d') : KeepsPointer p d d' := by
  obtain ⟨-, hready, hpointer⟩ := newProperty_DRIVER_INFO_eq_some h
  exact ⟨congrFun hpointer p, hready⟩

variable [DecidableEq P]

/-- Another pointer is set. -/
theorem point (d : IndiDriver P) {p' : P} (hp : p' ≠ p) (name : Bytes) :
    KeepsPointer p d (d.point p' name) :=
  ⟨Function.update_of_ne (Ne.symm hp) _ _, rfl⟩

theorem points {ps : List P} (hp : p ∉ ps) (h : d.Points ps d') : KeepsPointer p d d' := by
  rcases h with rfl | ⟨p', hp', name, rfl⟩
  · exact refl _
  · have hne : p' ≠ p := by
      rintro rfl
      exact hp hp'
    exact point d hne name

theorem newDevice (d : IndiDriver P) {p' : P} (hp : p' ≠ p) (deviceName : Bytes) :
    KeepsPointer p d (d.newDevice p' deviceName) := by
  unfold IndiDriver.newDevice
  split_ifs
  · exact point d hp deviceName
  · exact refl d

theorem newProperty_CONNECTION {p' : P} (hp : p' ≠ p) {svp : ISwitchVectorProperty} {on : Bool}
    (h : d.newProperty_CONNECTION p' svp on = some d') : KeepsPointer p d d' := by
  obtain ⟨-, hready, hpointer⟩ := newProperty_CONNECTION_eq_some h
  refine ⟨?_, hready⟩
  rw [hpointer]
  exact Function.update_of_ne (Ne.symm hp) _ _

omit [DecidableEq P] in
theorem connectServer (d : IndiDriver P) (reachable : Bool) :
    KeepsPointer p d (d.connectServer reachable) := by
  cases reachable
  · exact ⟨rfl, rfl⟩
  · exact ⟨rfl, rfl⟩

omit [DecidableEq P] in
theorem connect (d : IndiDriver P) (name : Bytes) (reachable : Bool) :
    KeepsPointer p d (d.connect name reachable).2 := by
  unfold IndiDriver.connect
  have hserver (d : IndiDriver P) : KeepsPointer p d (d.connectServer reachable) :=
    connectServer d reachable
  split_ifs
  · exact refl d
  · exact ⟨(hserver _).pointer, (hserver _).ready⟩
  · exact ⟨(hserver _).pointer, (hserver _).ready⟩

omit [DecidableEq P] in
/-- The pointer is neither set nor cleared. -/
theorem set_iff {sets clears : Prop} (h : KeepsPointer p d d') (hsets : ¬ sets)
    (hclears : ¬ clears) :
    d'.pointer p ≠ none ↔ sets ∨ ¬ clears ∧ d.pointer p ≠ none := by
  rw [h.pointer]
  constructor
  · intro hset
    exact Or.inr ⟨hclears, hset⟩
  · intro hset
    exact (hset.resolve_left hsets).2

end KeepsPointer

variable [DecidableEq P]

/-- `newSwitch` of a connection clears the pointers of a driver that is ready, and no others. -/
theorem newSwitch_CONNECTION_pointer {cleared : List P} {p : P} {svp : ISwitchVectorProperty}
    (hp : p ∈ cleared) (h : d.newSwitch_CONNECTION cleared svp = some d') :
    d'.is_ready = d.is_ready ∧
      d'.pointer p = if svp.connectOn = false ∧ d.is_ready = true then none else d.pointer p := by
  rw [newSwitch_CONNECTION_eq_some h]
  cases svp.connectOn with
  | true => exact ⟨rfl, rfl⟩
  | false =>
    cases hready : d.is_ready with
    | true => exact ⟨hready, if_pos hp⟩
    | false => exact ⟨hready, rfl⟩

end IndiDriver

/-! ### The camera -/

namespace INDICamera

def call (c : INDICamera) : DriverCall Command → Option INDICamera
  | .event e => step c e
  | .command command => some (execute command c).2

/-- One branch of `newNumber` reads a member in place of its argument. -/
def newNumber_dereferences (nvp : INumberVectorProperty) (c : INDICamera) :
    List (CameraPointer × Option Bytes) :=
  if nvp.name = bytes "CCD_INFO" then [c.held .ccdinfo_prop] else []

/-- The branches of `newProperty` set a member first, and read or pass on what it holds. -/
def newProperty_dereferences (property : IndiProperty) (c : INDICamera) :
    List (CameraPointer × Option Bytes) :=
  match property with
  | .INDI_NUMBER nvp =>
    match KeyedList.find? nvp.name forwardedNumbers with
    | some p => (c.point p nvp.name).held p :: newNumber_dereferences nvp (c.point p nvp.name)
    | none => []
  | .INDI_SWITCH svp =>
    if svp.name = bytes "CONNECTION" then
      [(c.point .connection_prop svp.name).held .connection_prop]
    else
      match KeyedList.find? svp.name forwardedSwitches with
      | some p => [(c.point p svp.name).held p]
      | none => []
  | .INDI_TEXT tvp =>
    if tvp.name = indi_camera_cmd ++ bytes "CFA" then []
    else if tvp.name = bytes "DEVICE_PORT" then
      [(c.point .camera_port tvp.name).held .camera_port]
    else if tvp.name = bytes "DRIVER_INFO" then []
    else if tvp.name = bytes "ACTIVE_DEVICES" then
      [(c.point .active_device_prop tvp.name).held .active_device_prop]
    else []
  | .INDI_LIGHT _ | .INDI_BLOB _ => []

/-- The pointer members that a call dereferences, with what they hold then. The other handlers read
only their arguments, and no command reads a pointer. -/
def dereferences (c : INDICamera) : DriverCall Command → List (CameraPointer × Option Bytes)
  | .event (.newNumber nvp) => newNumber_dereferences nvp (c.receive (.newNumber nvp))
  | .event (.newProperty property) =>
    newProperty_dereferences property (c.receive (.newProperty property))
  | .event _ | .command _ => []

def DereferencesNull (c : INDICamera) (a : DriverCall Command) : Prop :=
  none ∈ (c.dereferences a).map Prod.snd

instance (c : INDICamera) (a : DriverCall Command) : Decidable (c.DereferencesNull a) :=
  inferInstanceAs (Decidable (none ∈ (c.dereferences a).map Prod.snd))

variable {c c' : INDICamera}

/-- `CCD_INFO` is the name of one forwarded property, and it is kept in the member that `newNumber`
reads. -/
theorem forwardedNumbers_ccdinfo {name : Bytes} {p : CameraPointer}
    (h : KeyedList.find? name forwardedNumbers = some p) :
    p = .ccdinfo_prop ↔ name = bytes "CCD_INFO" := by
  have htable : ∀ e ∈ forwardedNumbers,
      e.2 = CameraPointer.ccdinfo_prop ↔ e.1 = bytes "CCD_INFO" := by decide
  exact htable _ (KeyedList.mem_of_find? h)

theorem newProperty_dereferences_ne_none (property : IndiProperty) (c : INDICamera) :
    none ∉ (newProperty_dereferences property c).map Prod.snd := by
  cases property with
  | INDI_NUMBER nvp =>
    simp only [newProperty_dereferences]
    split
    · rename_i p hfind
      have hread : none ∉ (newNumber_dereferences nvp (c.point p nvp.name)).map Prod.snd := by
        unfold newNumber_dereferences
        split_ifs with hname
        · -- the member that is read is the one that was set
          obtain rfl := (forwardedNumbers_ccdinfo hfind).mpr hname
          simp [INDICamera.point]
        · exact List.not_mem_nil
      simpa [INDICamera.point] using hread
    · exact List.not_mem_nil
  | INDI_SWITCH svp =>
    simp only [newProperty_dereferences]
    split_ifs
    · simp [INDICamera.point]
    · split
      · simp [INDICamera.point]
      · exact List.not_mem_nil
  | INDI_TEXT tvp =>
    simp only [newProperty_dereferences]
    split_ifs
    all_goals simp [INDICamera.point]
  | INDI_LIGHT _ => exact List.not_mem_nil
  | INDI_BLOB _ => exact List.not_mem_nil

/-- Only new values of `CCD_INFO` are read through a member that the handler has not set. -/
theorem dereferencesNull_iff (c : INDICamera) (a : DriverCall Command) :
    c.DereferencesNull a ↔
      a.On (IndiEvent.UpdatesNumber (bytes "CCD_INFO")) ∧ c.pointer .ccdinfo_prop = none := by
  cases a with
  | event e =>
    cases e with
    | newNumber nvp =>
      by_cases hname : nvp.name = bytes "CCD_INFO"
      · simp [DereferencesNull, dereferences, newNumber_dereferences, hname, DriverCall.On,
          IndiEvent.UpdatesNumber, INDICamera.receive, eq_comm]
      · simp [DereferencesNull, dereferences, newNumber_dereferences, hname, DriverCall.On,
          IndiEvent.UpdatesNumber]
    | newProperty property =>
      exact iff_of_false (newProperty_dereferences_ne_none property _) fun h => h.1
    | _ => exact iff_of_false List.not_mem_nil fun h => h.1
  | command command => exact iff_of_false List.not_mem_nil fun h => h.1

/-- A call that dereferences a null pointer has no result. -/
theorem call_of_dereferencesNull {a : DriverCall Command} (h : c.DereferencesNull a) :
    c.call a = none := by
  obtain ⟨hupdates, hnull⟩ := (c.dereferencesNull_iff a).mp h
  cases a with
  | event e =>
    cases e with
    | newNumber nvp =>
      have hname : nvp.name = bytes "CCD_INFO" := hupdates
      have hfind : KeyedList.find? nvp.name numberHandlers = some newNumber_CCD_INFO := by
        rw [hname]
        rfl
      have hderef : (c.receive (.newNumber nvp)).deref .ccdinfo_prop = none := by
        simp [IndiDriver.deref, INDICamera.receive, hnull]
      simp only [call, step, handle, newNumber, hfind, newNumber_CCD_INFO, hderef,
        Option.bind_eq_bind, Option.bind_none]
    | _ => exact hupdates.elim
  | command command => exact hupdates.elim

theorem newNumber_keeps (p : CameraPointer) {nvp : INumberVectorProperty}
    (h : newNumber nvp c = some c') : c.KeepsPointer p c'.toIndiDriver := by
  rw [newNumber_driver h]
  exact .refl _

/-- Switches and texts are kept in other members. -/
theorem newProperty_switch_keeps {svp : ISwitchVectorProperty}
    (h : newProperty_switch svp c = some c') :
    c.KeepsPointer .ccdinfo_prop c'.toIndiDriver := by
  have hdriver := newProperty_switch_driver h
  split_ifs at hdriver
  · exact .newProperty_CONNECTION (by decide) hdriver
  · exact .points (by decide) hdriver

theorem newProperty_text_keeps {tvp : ITextVectorProperty}
    (h : newProperty_text tvp c = some c') :
    c.KeepsPointer .ccdinfo_prop c'.toIndiDriver := by
  rcases newProperty_text_driver h with hdriver | hpoints
  · exact .newProperty_DRIVER_INFO hdriver
  · exact .points (by decide) hpoints

/-- The announcement of `CCD_INFO` sets the member. -/
theorem newProperty_number_ccdinfo {nvp : INumberVectorProperty}
    (hname : nvp.name = bytes "CCD_INFO") (h : newProperty_number nvp c = some c') :
    c'.is_ready = c.is_ready ∧ c'.pointer .ccdinfo_prop ≠ none := by
  have hfind : KeyedList.find? nvp.name forwardedNumbers = some .ccdinfo_prop := by
    rw [hname]
    rfl
  have hdriver := newProperty_number_driver h
  simp only [hfind] at hdriver
  rw [hdriver]
  refine ⟨rfl, ?_⟩
  simp

theorem newProperty_number_keeps {nvp : INumberVectorProperty}
    (hname : nvp.name ≠ bytes "CCD_INFO") (h : newProperty_number nvp c = some c') :
    c.KeepsPointer .ccdinfo_prop c'.toIndiDriver := by
  rw [newProperty_number_driver h]
  split
  · rename_i p hfind
    have hp : p ≠ .ccdinfo_prop := fun hp => hname ((forwardedNumbers_ccdinfo hfind).mp hp)
    exact .point _ hp nvp.name
  · exact .refl _

/-- After a handler `ccdinfo_prop` leads to a vector if the event announced one, or left it as it
was. -/
theorem handle_ccdinfo {e : IndiEvent} (h : handle e c = some c') :
    c'.is_ready = c.is_ready ∧ (c'.pointer .ccdinfo_prop ≠ none ↔
      e.AnnouncesNumber (bytes "CCD_INFO") ∨
        ¬ e.ClearsPointers c.is_ready ∧ c.pointer .ccdinfo_prop ≠ none) := by
  have hkeeps (hk : c.KeepsPointer .ccdinfo_prop c'.toIndiDriver)
      (hsets : ¬ e.AnnouncesNumber (bytes "CCD_INFO")) (hclears : ¬ e.ClearsPointers c.is_ready) :=
    And.intro hk.ready (hk.set_iff hsets hclears)
  have hcleared (hc : c.ClearStatus = c') (hsets : ¬ e.AnnouncesNumber (bytes "CCD_INFO"))
      (hclears : e.ClearsPointers c.is_ready) : c'.is_ready = c.is_ready ∧
        (c'.pointer .ccdinfo_prop ≠ none ↔ e.AnnouncesNumber (bytes "CCD_INFO") ∨
          ¬ e.ClearsPointers c.is_ready ∧ c.pointer .ccdinfo_prop ≠ none) := by
    subst hc
    refine ⟨rfl, iff_of_false (fun hset => hset rfl) ?_⟩
    intro hset
    exact (hset.resolve_left hsets).1 hclears
  cases e with
  | newDevice deviceName =>
    obtain rfl := Option.some.inj h
    exact hkeeps (.newDevice _ (by decide) deviceName) id id
  | removeDevice deviceName => exact hcleared (Option.some.inj h) id trivial
  | newProperty property =>
    cases property with
    | INDI_NUMBER nvp =>
      by_cases hname : nvp.name = bytes "CCD_INFO"
      · obtain ⟨hready, hset⟩ := newProperty_number_ccdinfo hname h
        exact ⟨hready, iff_of_true hset (Or.inl hname)⟩
      · exact hkeeps (newProperty_number_keeps hname h) hname id
    | INDI_SWITCH svp => exact hkeeps (newProperty_switch_keeps h) id id
    | INDI_TEXT tvp => exact hkeeps (newProperty_text_keeps h) id id
    | INDI_LIGHT name =>
      obtain rfl := Option.some.inj h
      exact hkeeps (.refl _) id id
    | INDI_BLOB name =>
      obtain rfl := Option.some.inj h
      refine hkeeps ?_ id id
      unfold newProperty_blob
      split_ifs
      · exact ⟨rfl, rfl⟩
      · exact .refl _
  | newSwitch svp =>
    have hswitch := newSwitch_driver h
    split_ifs at hswitch with hconnection
    · obtain ⟨hready, hpointer⟩ :=
        IndiDriver.newSwitch_CONNECTION_pointer (p := .ccdinfo_prop) (by decide) hswitch
      refine ⟨hready, ?_⟩
      rw [hpointer]
      simp only [IndiEvent.AnnouncesNumber, IndiEvent.ClearsPointers, hconnection, true_and,
        false_or]
      split_ifs with hoff
      · exact iff_of_false (fun hset => hset rfl) fun hkept => hkept.1 hoff
      · exact (and_iff_right hoff).symm
    · refine hkeeps ?_ id fun hclears => hconnection hclears.1
      rw [hswitch]
      exact .refl _
  | newNumber nvp => exact hkeeps (newNumber_keeps _ h) id id
  | newText tvp =>
    obtain rfl := newText_eq_some h
    exact hkeeps (.refl _) id id
  | IndiServerConnected =>
    obtain rfl := Option.some.inj h
    exact hkeeps ⟨rfl, rfl⟩ id id
  | IndiServerDisconnected exit_code => exact hcleared (Option.some.inj h) id trivial

theorem call_ccdinfo {a : DriverCall Command} (h : c.call a = some c') :
    c'.is_ready = c.is_ready ∧ (c'.pointer .ccdinfo_prop ≠ none ↔
      a.On (IndiEvent.AnnouncesNumber (bytes "CCD_INFO")) ∨
        ¬ a.On (IndiEvent.ClearsPointers c.is_ready) ∧ c.pointer .ccdinfo_prop ≠ none) := by
  cases a with
  | event e =>
    have hreceive : c.KeepsPointer .ccdinfo_prop (c.receive e).toIndiDriver := .receive _ e
    obtain ⟨hready, hpointer⟩ := handle_ccdinfo h
    rw [hreceive.ready, hreceive.pointer] at hpointer
    exact ⟨hready.trans hreceive.ready, hpointer⟩
  | command command =>
    obtain rfl := Option.some.inj h
    have hk : c.KeepsPointer .ccdinfo_prop (execute command c).2.toIndiDriver := by
      cases command with
      | connect name reachable =>
        unfold execute connect
        cases reachable
        · exact ⟨rfl, rfl⟩
        · exact ⟨rfl, rfl⟩
      | _ => exact .refl _
    exact ⟨hk.ready, hk.set_iff id id⟩

/-- In a run `ccdinfo_prop` leads to a vector exactly if one was announced, and not cleared
since. -/
theorem run_ccdinfo {c₀ : INDICamera} {calls : List (DriverCall Command)}
    (hnull : c₀.pointer .ccdinfo_prop = none) (h : run call c₀ calls = some c) :
    c.pointer .ccdinfo_prop ≠ none ↔
      Since (fun a => ¬ a.On (IndiEvent.ClearsPointers c₀.is_ready))
        (fun _ a => a.On (IndiEvent.AnnouncesNumber (bytes "CCD_INFO"))) calls := by
  -- the flag is the same in every state of the run
  have hready {before : List (DriverCall Command)} {u : INDICamera}
      (hu : run call c₀ before = some u) : u.is_ready = c₀.is_ready :=
    reachable_invariant (I := fun u => u.is_ready = c₀.is_ready) rfl
      (fun u a v heq hv => (call_ccdinfo hv).1.trans heq) ⟨before, hu⟩
  apply run_iff_since (R := fun c => c.pointer .ccdinfo_prop ≠ none) (fun hset => hset hnull) ?_ h
  intro before a u v hu hv
  rw [(call_ccdinfo hv).2, hready hu]

end INDICamera

/-! ### The focuser -/

namespace INDIFocuser

def call (f : INDIFocuser) : DriverCall Command → Option INDIFocuser
  | .event e => step f e
  | .command command => (execute command f).map Prod.snd

def newNumber_dereferences (nvp : INumberVectorProperty) (f : INDIFocuser) :
    List (FocuserPointer × Option Bytes) :=
  if f.pointer .focuserinfo_prop = some nvp.name then []
  else if f.pointer .temperature_prop = some nvp.name then [f.held .temperature_prop]
  else []

/-- Two branches read a member that they do not set. -/
def newProperty_switch_dereferences (svp : ISwitchVectorProperty) (f : INDIFocuser) :
    List (FocuserPointer × Option Bytes) :=
  if svp.name = bytes "CONNECTION" then
    -- only the vector of a device that is not connected is changed
    if svp.connectOn then [] else [(f.point .connection_prop svp.name).held .connection_prop]
  else if svp.name = indi_focuser_cmd ++ bytes "Mode" then
    [(f.point .mode_prop svp.name).held .mode_prop]
  else if svp.name = indi_focuser_cmd ++ bytes "DEVICE_BAUD_RATE" then
    [(f.point .rate_prop svp.name).held .rate_prop]
  else if svp.name = indi_focuser_cmd ++ bytes "FOCUS_MOTION" then [f.held .motion_prop]
  else if svp.name = indi_focuser_cmd ++ bytes "FOCUS_BACKLASH_TOGGLE" then
    [f.held .backlash_prop]
  else []

def newProperty_number_dereferences (nvp : INumberVectorProperty) (f : INDIFocuser) :
    List (FocuserPointer × Option Bytes) :=
  match numberValue nvp (bytes "FOCUS_ABSOLUTE_POSITION") with
  | none => []
  | some _ =>
    if nvp.name = indi_focuser_cmd ++ bytes "INFO" then
      (f.point .focuserinfo_prop nvp.name).held .focuserinfo_prop ::
        newNumber_dereferences nvp (f.point .focuserinfo_prop nvp.name)
    else []

def newProperty_dereferences (property : IndiProperty) (f : INDIFocuser) :
    List (FocuserPointer × Option Bytes) :=
  if property.getName = [] then []
  else
    match property with
    | .INDI_SWITCH svp => newProperty_switch_dereferences svp f
    | .INDI_NUMBER nvp => newProperty_number_dereferences nvp f
    | .INDI_TEXT _ | .INDI_LIGHT _ | .INDI_BLOB _ => []

/-- The commands compare the pointer with null before they read it. -/
def execute_dereferences (command : Command) (f : INDIFocuser) :
    List (FocuserPointer × Option Bytes) :=
  match command with
  | .moveTo position | .moveToAbsolute position =>
    if !f.is_connected then []
    else if f.pointer .absolute_position_prop = none then []
    else if f.max_position < position then []
    else [f.held .absolute_position_prop]
  | .getTemperature =>
    if f.pointer .temperature_prop = none then [] else [f.held .temperature_prop]
  | .connect _ _ | .disconnect | .reconnect _ _ | .scanForAvailableDevices | .moveStep _
  | .moveStepAbsolute _ | .AbortMove | .setMaxPosition _ | .haveBacklash | .setBacklash _ => []

/-- The pointer members that a call dereferences, with what they hold then. -/
def dereferences (f : INDIFocuser) : DriverCall Command → List (FocuserPointer × Option Bytes)
  | .event (.newNumber nvp) => newNumber_dereferences nvp (f.receive (.newNumber nvp))
  | .event (.newProperty property) =>
    newProperty_dereferences property (f.receive (.newProperty property))
  | .event _ => []
  | .command command => execute_dereferences command f

def DereferencesNull (f : INDIFocuser) (a : DriverCall Command) : Prop :=
  none ∈ (f.dereferences a).map Prod.snd

instance (f : INDIFocuser) (a : DriverCall Command) : Decidable (f.DereferencesNull a) :=
  inferInstanceAs (Decidable (none ∈ (f.dereferences a).map Prod.snd))

/-- The names of the switch properties whose member is never set. -/
def unsetSwitches : List Bytes := [bytes "FOCUS_MOTION", bytes "FOCUS_BACKLASH_TOGGLE"]

/-- The members that those properties are read through. -/
def unsetPointers : List FocuserPointer := [.motion_prop, .backlash_prop]

variable {f f' : INDIFocuser}

theorem newNumber_dereferences_ne_none (nvp : INumberVectorProperty) (f : INDIFocuser) :
    none ∉ (newNumber_dereferences nvp f).map Prod.snd := by
  unfold newNumber_dereferences
  split_ifs with hinfo htemperature
  · exact List.not_mem_nil
  · simp [htemperature]
  · exact List.not_mem_nil

theorem execute_dereferences_ne_none (command : Command) (f : INDIFocuser) :
    none ∉ (execute_dereferences command f).map Prod.snd := by
  cases command with
  | moveTo position | moveToAbsolute position =>
    simp only [execute_dereferences]
    split_ifs with hconnected hnull
    · exact List.not_mem_nil
    · exact List.not_mem_nil
    · exact List.not_mem_nil
    · exact fun h => hnull ((f.none_mem_held _).mp h)
  | getTemperature =>
    simp only [execute_dereferences]
    split_ifs with hnull
    · exact List.not_mem_nil
    · exact fun h => hnull ((f.none_mem_held _).mp h)
  | _ => exact List.not_mem_nil

/-- The switch vector is one of those two, and its member is null. -/
def ReadsUnset (svp : ISwitchVectorProperty) (f : INDIFocuser) : Prop :=
  svp.name = bytes "FOCUS_MOTION" ∧ f.pointer .motion_prop = none ∨
    svp.name = bytes "FOCUS_BACKLASH_TOGGLE" ∧ f.pointer .backlash_prop = none

theorem ReadsUnset.mem {svp : ISwitchVectorProperty} (h : ReadsUnset svp f) :
    svp.name ∈ unsetSwitches := by
  rcases h with ⟨hname, -⟩ | ⟨hname, -⟩
  · simp [unsetSwitches, hname]
  · simp [unsetSwitches, hname]

theorem ReadsUnset.name_ne_nil {svp : ISwitchVectorProperty} (h : ReadsUnset svp f) :
    svp.name ≠ [] := by
  have hnames : ∀ name ∈ unsetSwitches, name ≠ [] := by decide
  exact hnames svp.name h.mem

theorem newProperty_switch_dereferences_iff (svp : ISwitchVectorProperty) (f : INDIFocuser) :
    none ∈ (newProperty_switch_dereferences svp f).map Prod.snd ↔ ReadsUnset svp f := by
  have hother (name : Bytes) (hname : svp.name = name) (hnot : name ∉ unsetSwitches) :
      ¬ ReadsUnset svp f := by
    intro hreads
    apply hnot
    rw [← hname]
    exact hreads.mem
  unfold newProperty_switch_dereferences
  split_ifs with hconnection _ hmode hrate hmotion hbacklash
  · exact iff_of_false List.not_mem_nil (hother _ hconnection (by decide))
  · exact iff_of_false (by simp [INDIFocuser.point]) (hother _ hconnection (by decide))
  · exact iff_of_false (by simp [INDIFocuser.point]) (hother _ hmode (by decide))
  · exact iff_of_false (by simp [INDIFocuser.point]) (hother _ hrate (by decide))
  · have hne : svp.name ≠ bytes "FOCUS_BACKLASH_TOGGLE" := by
      rw [hmotion]
      decide
    calc none ∈ [f.held .motion_prop].map Prod.snd
      _ ↔ f.pointer .motion_prop = none := IndiDriver.none_mem_held _ _
      _ ↔ svp.name = bytes "FOCUS_MOTION" ∧ f.pointer .motion_prop = none :=
        (and_iff_right hmotion).symm
      _ ↔ ReadsUnset svp f := (or_iff_left fun h => hne h.1).symm
  · calc none ∈ [f.held .backlash_prop].map Prod.snd
      _ ↔ f.pointer .backlash_prop = none := IndiDriver.none_mem_held _ _
      _ ↔ svp.name = bytes "FOCUS_BACKLASH_TOGGLE" ∧ f.pointer .backlash_prop = none :=
        (and_iff_right hbacklash).symm
      _ ↔ ReadsUnset svp f := (or_iff_right fun h => hmotion h.1).symm
  · refine iff_of_false List.not_mem_nil ?_
    rintro (⟨h, -⟩ | ⟨h, -⟩)
    · exact hmotion h
    · exact hbacklash h

theorem newProperty_number_dereferences_ne_none (nvp : INumberVectorProperty) (f : INDIFocuser) :
    none ∉ (newProperty_number_dereferences nvp f).map Prod.snd := by
  unfold newProperty_number_dereferences
  split
  · exact List.not_mem_nil
  · split_ifs
    · have hread := newNumber_dereferences_ne_none nvp (f.point .focuserinfo_prop nvp.name)
      simpa [INDIFocuser.point] using hread
    · exact List.not_mem_nil

theorem dereferencesNull_iff (f : INDIFocuser) (a : DriverCall Command) :
    f.DereferencesNull a ↔
      ∃ svp, a = .event (.newProperty (.INDI_SWITCH svp)) ∧ ReadsUnset svp f := by
  have hother (hnot : none ∉ (f.dereferences a).map Prod.snd)
      (ha : ∀ svp, a ≠ .event (.newProperty (.INDI_SWITCH svp))) : f.DereferencesNull a ↔
        ∃ svp, a = .event (.newProperty (.INDI_SWITCH svp)) ∧ ReadsUnset svp f :=
    iff_of_false hnot fun ⟨svp, hsvp, _⟩ => ha svp hsvp
  cases a with
  | command command => exact hother (execute_dereferences_ne_none command f) nofun
  | event e =>
    cases e with
    | newNumber nvp => exact hother (newNumber_dereferences_ne_none nvp _) nofun
    | newProperty property =>
      cases property with
      | INDI_SWITCH svp =>
        have hreceive : ReadsUnset svp (f.receive (.newProperty (.INDI_SWITCH svp))) ↔
            ReadsUnset svp f := by
          simp [ReadsUnset, INDIFocuser.receive]
        have hreads : f.DereferencesNull (.event (.newProperty (.INDI_SWITCH svp))) ↔
            ReadsUnset svp f := by
          rw [← hreceive, ← newProperty_switch_dereferences_iff]
          simp only [DereferencesNull, dereferences, newProperty_dereferences]
          split_ifs with hempty
          · rw [newProperty_switch_dereferences_iff]
            exact iff_of_false List.not_mem_nil fun h => h.name_ne_nil hempty
          · rfl
        rw [hreads]
        constructor
        · intro h
          exact ⟨svp, rfl, h⟩
        · rintro ⟨svp', heq, h⟩
          cases heq
          exact h
      | INDI_NUMBER nvp =>
        refine hother ?_ nofun
        simp only [dereferences, newProperty_dereferences]
        split_ifs
        · exact List.not_mem_nil
        · exact newProperty_number_dereferences_ne_none nvp _
      | INDI_TEXT tvp | INDI_LIGHT name | INDI_BLOB name =>
        refine hother ?_ nofun
        simp [dereferences, newProperty_dereferences]
    | _ => exact hother List.not_mem_nil nofun

theorem newProperty_switch_of_readsUnset {svp : ISwitchVectorProperty} (h : ReadsUnset svp f) :
    newProperty_switch svp f = none := by
  have hnames : ∀ name ∈ unsetSwitches, name ≠ bytes "CONNECTION" ∧
      name ≠ indi_focuser_cmd ++ bytes "Mode" ∧
      name ≠ indi_focuser_cmd ++ bytes "DEVICE_BAUD_RATE" := by decide
  obtain ⟨hconnection, hmode, hrate⟩ := hnames svp.name h.mem
  rw [newProperty_switch, if_neg hconnection, if_neg hmode, if_neg hrate]
  rcases h with ⟨hname, hnull⟩ | ⟨hname, hnull⟩
  · have hderef : f.derefSwitch .motion_prop = none := by simp [IndiDriver.derefSwitch, hnull]
    have hbranch : svp.name = indi_focuser_cmd ++ bytes "FOCUS_MOTION" := hname
    rw [if_pos hbranch, hderef]
    rfl
  · have hderef : f.derefSwitch .backlash_prop = none := by simp [IndiDriver.derefSwitch, hnull]
    have hmotion : svp.name ≠ indi_focuser_cmd ++ bytes "FOCUS_MOTION" := by
      rw [hname]
      decide
    have hbranch : svp.name = indi_focuser_cmd ++ bytes "FOCUS_BACKLASH_TOGGLE" := hname
    rw [if_neg hmotion, if_pos hbranch, hderef]
    rfl

/-- A call that dereferences a null pointer has no result. -/
theorem call_of_dereferencesNull {a : DriverCall Command} (h : f.DereferencesNull a) :
    f.call a = none := by
  obtain ⟨svp, rfl, hreads⟩ := (f.dereferencesNull_iff a).mp h
  have hreceive : ReadsUnset svp (f.receive (.newProperty (.INDI_SWITCH svp))) := by
    simpa [ReadsUnset, INDIFocuser.receive] using hreads
  have hswitch := newProperty_switch_of_readsUnset hreceive
  have hempty : (IndiProperty.INDI_SWITCH svp).getName ≠ [] := hreads.name_ne_nil
  rw [call, step, handle, newProperty, if_neg hempty]
  exact hswitch

/-! Neither of the two members is ever set. -/

section Unset

variable {p : FocuserPointer}

/-- The branch `CONNECTION` of `newSwitch` clears every pointer or none. -/
theorem newSwitch_unset {svp : ISwitchVectorProperty} (hnull : f.pointer p = none)
    (h : newSwitch svp f = some f') : f'.pointer p = none := by
  have hdriver := newSwitch_driver h
  split_ifs at hdriver
  · have hmem : p ∈ clearedPointers := by cases p <;> decide
    obtain ⟨-, hpointer⟩ := IndiDriver.newSwitch_CONNECTION_pointer hmem hdriver
    rw [hpointer, hnull, ite_self]
  · rw [hdriver]
    exact hnull

/-- The members that `newProperty` sets are other ones. -/
theorem newProperty_keeps {property : IndiProperty} (hp : p ∈ unsetPointers)
    (h : newProperty property f = some f') : f.KeepsPointer p f'.toIndiDriver := by
  have hother (ps : List FocuserPointer) (hps : ∀ p ∈ unsetPointers, p ∉ ps)
      (h : f.toIndiDriver.Points ps f'.toIndiDriver) : f.KeepsPointer p f'.toIndiDriver :=
    .points (hps p hp) h
  unfold newProperty at h
  split_ifs at h
  · obtain rfl := Option.some.inj h
    exact .refl _
  · cases property with
    | INDI_TEXT tvp =>
      rcases newProperty_text_driver h with hdriver | hpoints
      · exact .newProperty_DRIVER_INFO hdriver
      · exact hother _ (by decide) hpoints
    | INDI_SWITCH svp =>
      have hdriver := newProperty_switch_driver h
      split_ifs at hdriver
      · have hne : ∀ p ∈ unsetPointers, FocuserPointer.connection_prop ≠ p := by decide
        exact .newProperty_CONNECTION (hne p hp) hdriver
      · exact hother _ (by decide) hdriver
    | INDI_NUMBER nvp => exact hother _ (by decide) (newProperty_number_driver h)
    | INDI_LIGHT _ | INDI_BLOB _ =>
      obtain rfl := Option.some.inj h
      exact .refl _

theorem handle_unset {e : IndiEvent} (hp : p ∈ unsetPointers) (hnull : f.pointer p = none)
    (h : handle e f = some f') : f'.pointer p = none := by
  cases e with
  | newDevice deviceName =>
    obtain rfl := Option.some.inj h
    have hne : ∀ p ∈ unsetPointers, FocuserPointer.focuser_device ≠ p := by decide
    have hkeeps := IndiDriver.KeepsPointer.newDevice f.toIndiDriver (hne p hp) deviceName
    exact hkeeps.pointer.trans hnull
  | removeDevice _ | IndiServerDisconnected _ =>
    obtain rfl := Option.some.inj h
    simp [ClearStatus, IndiDriver.ClearStatus, hnull]
  | newProperty property => exact (newProperty_keeps hp h).pointer.trans hnull
  | newSwitch svp => exact newSwitch_unset hnull h
  | newNumber nvp =>
    rw [newNumber_driver h]
    exact hnull
  | newText tvp =>
    obtain ⟨driver, hdriver, rfl⟩ := Option.map_eq_some_iff.mp h
    rw [IndiDriver.eq_of_newText hdriver]
    exact hnull
  | IndiServerConnected =>
    obtain rfl := Option.some.inj h
    exact hnull

theorem moveToAbsolute_pointer {position : Int32} {moved : Bool}
    (h : f.moveToAbsolute position = some (moved, f')) : f'.pointer = f.pointer := by
  unfold moveToAbsolute at h
  split at h
  · obtain ⟨rfl, rfl⟩ := Prod.mk.inj (Option.some.inj h)
    rfl
  · split at h
    · obtain ⟨rfl, rfl⟩ := Prod.mk.inj (Option.some.inj h)
      rfl
    · split at h
      · obtain ⟨rfl, rfl⟩ := Prod.mk.inj (Option.some.inj h)
        rfl
      · obtain ⟨nvp, -, h⟩ := Option.bind_eq_some_iff.mp h
        split at h
        · cases h
        · obtain ⟨rfl, rfl⟩ := Prod.mk.inj (Option.some.inj h)
          rfl

/-- The commands leave the pointers as they are. -/
theorem execute_pointer {command : Command} {answer : CommandAnswer}
    (h : execute command f = some (answer, f')) : f'.pointer = f.pointer := by
  cases command
  case connect name reachable | reconnect name reachable =>
    obtain ⟨rfl, rfl⟩ := Prod.mk.inj (Option.some.inj h)
    funext p
    have hkeeps : f.KeepsPointer p (f.toIndiDriver.connect name reachable).2 := .connect _ _ _
    exact hkeeps.pointer
  case moveTo position | moveToAbsolute position =>
    obtain ⟨result, hmoved, h⟩ := Option.map_eq_some_iff.mp h
    obtain ⟨rfl, rfl⟩ := Prod.mk.inj h
    exact moveToAbsolute_pointer hmoved
  case getTemperature =>
    obtain ⟨temperature, -, h⟩ := Option.map_eq_some_iff.mp h
    obtain ⟨rfl, rfl⟩ := Prod.mk.inj h
    rfl
  all_goals
    obtain ⟨rfl, rfl⟩ := Prod.mk.inj (Option.some.inj h)
    rfl

theorem call_unset {a : DriverCall Command} (hp : p ∈ unsetPointers) (hnull : f.pointer p = none)
    (h : f.call a = some f') : f'.pointer p = none := by
  cases a with
  | event e =>
    have hreceive : (f.receive e).pointer p = none := by
      simpa [INDIFocuser.receive] using hnull
    exact handle_unset hp hreceive h
  | command command =>
    obtain ⟨result, hresult, rfl⟩ := Option.map_eq_some_iff.mp h
    rw [execute_pointer hresult]
    exact hnull

/-- Where the two members were null before a run, they are null after it. -/
theorem run_unset {f₀ : INDIFocuser} {calls : List (DriverCall Command)} (hp : p ∈ unsetPointers)
    (hnull : f₀.pointer p = none) (h : run call f₀ calls = some f) : f.pointer p = none :=
  reachable_invariant (I := fun f => f.pointer p = none) hnull
    (fun _ _ _ hnull h => call_unset hp hnull h) ⟨calls, h⟩

end Unset

/-- After such a run the announcement of a switch vector with one of the two names dereferences a
null pointer, and no other call does. -/
theorem run_dereferencesNull_iff {f₀ : INDIFocuser} {calls : List (DriverCall Command)}
    (hnull : ∀ p, f₀.pointer p = none) (h : run call f₀ calls = some f) (a : DriverCall Command) :
    f.DereferencesNull a ↔ a.On (IndiEvent.AnnouncesSwitch unsetSwitches) := by
  have hmotion : f.pointer .motion_prop = none := run_unset (by decide) (hnull _) h
  have hbacklash : f.pointer .backlash_prop = none := run_unset (by decide) (hnull _) h
  have hreads (svp : ISwitchVectorProperty) : ReadsUnset svp f ↔ svp.name ∈ unsetSwitches := by
    simp [ReadsUnset, unsetSwitches, hmotion, hbacklash]
  rw [dereferencesNull_iff]
  constructor
  · rintro ⟨svp, rfl, h⟩
    exact (hreads svp).mp h
  · intro ha
    cases a with
    | command command => exact ha.elim
    | event e =>
      cases e with
      | newProperty property =>
        cases property with
        | INDI_SWITCH svp => exact ⟨svp, rfl, (hreads svp).mpr ha⟩
        | _ => exact ha.elim
      | _ => exact ha.elim

end INDIFocuser

/-! ### Null pointers -/

/-- The pointers of the two drivers are null at first. Then no call of a camera's run dereferences a
null pointer exactly if new values of `CCD_INFO` come only while `CCD_INFO` is announced, and no
call of a focuser's run does exactly if two switch vectors are never announced. The last call of a
run is any call, whether or not it has a result. -/
theorem not_dereferencesNull_iff {c₀ c : INDICamera} {f₀ f : INDIFocuser}
    {cs : List (DriverCall INDICamera.Command)} {fs : List (DriverCall INDIFocuser.Command)}
    (hc₀ : ∀ p, c₀.pointer p = none) (hf₀ : ∀ p, f₀.pointer p = none)
    (hcs : run INDICamera.call c₀ cs = some c) (hfs : run INDIFocuser.call f₀ fs = some f)
    (a : DriverCall INDICamera.Command) (b : DriverCall INDIFocuser.Command) :
    (Steps INDICamera.call (fun c a => ¬ c.DereferencesNull a) c₀ (cs ++ [a]) ↔
      Always (fun before a => a.On (IndiEvent.UpdatesNumber (bytes "CCD_INFO")) →
        Since (fun a => ¬ a.On (IndiEvent.ClearsPointers c₀.is_ready))
          (fun _ a => a.On (IndiEvent.AnnouncesNumber (bytes "CCD_INFO"))) before) (cs ++ [a])) ∧
    (Steps INDIFocuser.call (fun f b => ¬ f.DereferencesNull b) f₀ (fs ++ [b]) ↔
      ∀ call ∈ fs ++ [b], ¬ call.On (IndiEvent.AnnouncesSwitch INDIFocuser.unsetSwitches)) := by
  constructor
  · refine steps_iff_always (fun before a u hu => ?_) hcs
    rw [INDICamera.dereferencesNull_iff, ← INDICamera.run_ccdinfo (hc₀ _) hu, not_and]
  · calc Steps INDIFocuser.call (fun f b => ¬ f.DereferencesNull b) f₀ (fs ++ [b])
      _ ↔ Always (fun _ b => ¬ b.On (IndiEvent.AnnouncesSwitch INDIFocuser.unsetSwitches))
          (fs ++ [b]) := by
        refine steps_iff_always (fun before b u hu => ?_) hfs
        rw [INDIFocuser.run_dereferencesNull_iff hf₀ hu]
      _ ↔ ∀ call ∈ fs ++ [b],
          ¬ call.On (IndiEvent.AnnouncesSwitch INDIFocuser.unsetSwitches) := always_iff_forall_mem

/-- `CCD_INFO` of a sensor whose values are all zero. -/
def ccdInfoVector : INumberVectorProperty :=
  ⟨bytes "CCD_INFO", [⟨bytes "CCD_PIXEL_SIZE", 0⟩, ⟨bytes "CCD_PIXEL_SIZE_X", 0⟩,
    ⟨bytes "CCD_PIXEL_SIZE_Y", 0⟩, ⟨bytes "CCD_MAX_X", 0⟩, ⟨bytes "CCD_MAX_Y", 0⟩,
    ⟨bytes "CCD_BITSPERPIXEL", 0⟩]⟩

/-- New values that come after the announcement, and a command of a connected focuser. -/
theorem not_dereferencesNull_announced :
    Steps INDICamera.call (fun c a => ¬ c.DereferencesNull a) .unset
      ([.event (.newProperty (.INDI_NUMBER ccdInfoVector))] ++
        [.event (.newNumber ccdInfoVector)]) ∧
    Steps INDIFocuser.call (fun f b => ¬ f.DereferencesNull b) .unset
      ([.command (.connect (bytes "Focuser Simulator") true)] ++
        [.command (.moveToAbsolute 0)]) := by
  obtain ⟨c, hc⟩ : ∃ c, run INDICamera.call .unset
      [.event (.newProperty (.INDI_NUMBER ccdInfoVector))] = some c :=
    Option.isSome_iff_exists.mp (by decide +kernel)
  obtain ⟨f, hf⟩ : ∃ f, run INDIFocuser.call .unset
      [.command (.connect (bytes "Focuser Simulator") true)] = some f :=
    Option.isSome_iff_exists.mp (by decide +kernel)
  obtain ⟨hcamera, hfocuser⟩ := not_dereferencesNull_iff (fun _ => rfl) (fun _ => rfl) hc hf
    (.event (.newNumber ccdInfoVector)) (.command (.moveToAbsolute 0))
  refine ⟨hcamera.mpr ?_, hfocuser.mpr ?_⟩
  · refine always_concat.mpr ⟨always_concat (h := []).mpr ⟨always_nil, fun h => h.elim⟩, ?_⟩
    intro _
    exact ⟨[], _, [], rfl, rfl, nofun⟩
  · intro call hcall
    rcases List.mem_append.mp hcall with hcall | hcall
    · rw [List.mem_singleton.mp hcall]
      exact id
    · rw [List.mem_singleton.mp hcall]
      exact id

/-- The direction of motion is announced to a connected focuser, and new values of `CCD_INFO` reach
a camera after the server was disconnected: both read a null pointer. -/
theorem dereferencesNull_motion :
    ¬ Steps INDIFocuser.call (fun f b => ¬ f.DereferencesNull b) .unset
      [.command (.connect (bytes "Focuser Simulator") true),
        .event (.newProperty (.INDI_SWITCH ⟨bytes "FOCUS_MOTION",
          [⟨bytes "FOCUS_INWARD", .ISS_ON⟩, ⟨bytes "FOCUS_OUTWARD", .ISS_OFF⟩]⟩))] ∧
    ¬ Steps INDICamera.call (fun c a => ¬ c.DereferencesNull a) .unset
      [.event (.newProperty (.INDI_NUMBER ccdInfoVector)), .event (.IndiServerDisconnected (-1)),
        .event (.newNumber ccdInfoVector)] := by
  decide +kernel

end OpenAPT
