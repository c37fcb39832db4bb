import OpenAPT.IndiCameraReports
import OpenAPT.Lib.LastReport

/-! When the document `camera_info` holds the latest reports: each field is defined by one
property, and a whole run keeps what no later event replaces. -/
namespace OpenAPT

namespace INDICamera

open EventMachine LastReport

/-! ### The property of a field -/

/-- The property that defines a field. -/
def definedBy : List (Path × Bytes) :=
  [([bytes "connected"], bytes "CONNECTION"),
    ([bytes "debug"], bytes "DEBUG"),
    ([bytes "frame", bytes "type"], bytes "CCD_FRAME_TYPE"),
    ([bytes "frame", bytes "format"], bytes "CCD_TRANSFER_FORMAT"),
    ([bytes "frame", bytes "fast_read"], bytes "CCD_FAST_TOGGLE"),
    ([bytes "frame", bytes "max_frame_x"], bytes "CCD_INFO"),
    ([bytes "frame", bytes "max_frame_y"], bytes "CCD_INFO"),
    ([bytes "frame", bytes "pixel_depth"], bytes "CCD_INFO"),
    ([bytes "frame", bytes "pixel_x"], bytes "CCD_INFO"),
    ([bytes "frame", bytes "pixel_y"], bytes "CCD_INFO"),
    ([bytes "frame", bytes "height"], bytes "FRAME"),
    ([bytes "frame", bytes "width"], bytes "FRAME"),
    ([bytes "frame", bytes "x"], bytes "FRAME"),
    ([bytes "frame", bytes "y"], bytes "FRAME"),
    ([bytes "exposure", bytes "abort"], bytes "CCD_ABORT_EXPOSURE"),
    ([bytes "exposure", bytes "current"], bytes "CCD_EXPOSURE"),
    ([bytes "exposure", bytes "binning_x"], bytes "BINNING"),
    ([bytes "exposure", bytes "binning_y"], bytes "BINNING"),
    ([bytes "exposure", bytes "gain"], bytes "CCD_GAIN"),
    ([bytes "exposure", bytes "offset"], bytes "CCD_OFFSET"),
    ([bytes "temperature", bytes "current"], bytes "CCD_TEMPERATURE"),
    ([bytes "network", bytes "mode"], bytes "UPLOAD_MODE"),
    ([bytes "network", bytes "period"], bytes "POLLING_PERIOD"),
    ([bytes "limits", bytes "maxbuffer"], bytes "LIMITS"),
    ([bytes "limits", bytes "maxfps"], bytes "LIMITS"),
    ([bytes "video", bytes "is_video"], bytes "CCD_VIDEO_STREAM"),
    ([bytes "video", bytes "delay"], bytes "STREAM_DELAY"),
    ([bytes "video", bytes "exposure"], bytes "STREAMING_EXPOSURE"),
    ([bytes "video", bytes "division"], bytes "STREAMING_EXPOSURE"),
    ([bytes "video", bytes "fps"], bytes "FPS"),
    ([bytes "video", bytes "avgfps"], bytes "FPS")]

/-- Every field the assignments give a value is defined by the property `name`. -/
def Defines (name : Bytes) (as : List Assignment) : Prop :=
  ∀ leaf ∈ as.flatMap leaves, KeyedList.find? leaf.1 definedBy = some name

section Defined

variable {name : Bytes} {as : List Assignment}

theorem defines_nil (name : Bytes) : Defines name [] := nofun

theorem defines_value {path : Path} {value : Json} (hplain : leaves (path, value) = [(path, value)])
    (hpath : KeyedList.find? path definedBy = some name) : Defines name [(path, value)] := by
  intro leaf hleaf
  rw [List.flatMap_singleton, hplain, List.mem_singleton] at hleaf
  rw [hleaf]
  exact hpath

theorem defines_valueReports {sub : Bytes} {elements : List (Bytes × Bytes)}
    (hpaths : ∀ e ∈ elements, KeyedList.find? [sub, e.2] definedBy = some name)
    {nvp : INumberVectorProperty} (h : valueReports sub elements nvp = some as) :
    Defines name as := by
  obtain ⟨hkeys, hnumbers⟩ := valueReports_spec h
  intro leaf hleaf
  rw [flatMap_leaves_of_plain (plain_of_numbers hnumbers)] at hleaf
  have hmem : leaf.1 ∈ as.map Prod.fst := List.mem_map_of_mem hleaf
  rw [hkeys] at hmem
  obtain ⟨e, he, hpath⟩ := List.mem_map.mp hmem
  rw [← hpath]
  exact hpaths e he

theorem defines_objectReport {sub : Bytes} {elements : List (Bytes × Bytes)}
    (hpaths : ∀ e ∈ elements, KeyedList.find? [sub, e.2] definedBy = some name)
    {nvp : INumberVectorProperty} (h : objectReport sub elements nvp = some as) :
    Defines name as := by
  obtain ⟨members, hmembers, rfl⟩ := Option.map_eq_some_iff.mp h
  obtain ⟨hkeys, -⟩ := mapM_numbers_spec hmembers
  intro leaf hleaf
  rw [List.flatMap_singleton] at hleaf
  obtain ⟨m, hm, rfl⟩ := List.mem_map.mp hleaf
  have hmem : m.1 ∈ members.map Prod.fst := List.mem_map_of_mem hm
  rw [hkeys] at hmem
  obtain ⟨e, he, hkey⟩ := List.mem_map.mp hmem
  have hpath : [sub] ++ [m.1] = [sub, e.2] := by rw [hkey, List.singleton_append]
  rw [hpath]
  exact hpaths e he

theorem numberReports_define : ∀ e ∈ numberReports, ∀ nvp as, e.2 nvp = some as →
    Defines e.1 as := by
  simp only [numberReports, List.forall_mem_cons]
  refine ⟨?_, ?_, ?_, ?_, ?_, ?_, ?_, ?_, ?_, ?_, ?_, ?_, nofun⟩
  · intro nvp as h
    obtain ⟨exposure, -, rfl⟩ := Option.map_eq_some_iff.mp h
    exact defines_value rfl (by decide)
  iterate 3
    exact fun _ _ h => defines_objectReport (by decide) h
  all_goals exact fun _ _ h => defines_valueReports (by decide) h

theorem defines_choiceReport {names : List (Bytes × Bytes)} {path : Path}
    (hpath : KeyedList.find? path definedBy = some name) {svp : ISwitchVectorProperty}
    (h : choiceReport names path svp = some as) : Defines name as := by
  obtain ⟨choice, -, rfl⟩ := Option.map_eq_some_iff.mp h
  exact defines_value rfl hpath

theorem switchReports_define (offs : Bool) : ∀ e ∈ switchReports offs, ∀ svp as,
    e.2 svp = some as → Defines e.1 as := by
  simp only [switchReports, List.forall_mem_cons]
  refine ⟨?_, ?_, ?_, ?_, ?_, ?_, ?_, ?_, ?_, nofun⟩
  · intro svp as h
    obtain rfl := Option.some.inj h
    exact defines_value rfl (by decide)
  · intro svp as h
    obtain ⟨sw, -, rfl⟩ := Option.map_eq_some_iff.mp h
    exact defines_value rfl (by decide)
  · exact fun _ _ h => defines_choiceReport (by decide) h
  · exact fun _ _ h => defines_choiceReport (by decide) h
  · intro svp as h
    split_ifs at h
    · obtain rfl := Option.some.inj h
      exact defines_value rfl (by decide)
    · obtain rfl := Option.some.inj h
      exact defines_nil _
  · exact fun _ _ h => defines_choiceReport (by decide) h
  · intro svp as h
    obtain ⟨mode, -, rfl⟩ := Option.map_eq_some_iff.mp h
    exact defines_value rfl (by decide)
  · intro svp as h
    obtain ⟨choice, -, rfl⟩ := Option.map_eq_some_iff.mp h
    cases choice with
    | none => exact defines_nil _
    | some on => exact defines_value rfl (by decide)
  · intro svp as h
    obtain rfl := Option.some.inj h
    exact defines_nil _

/-- An event reports only the fields that its property defines. -/
theorem reports_define {offs : Bool} {e : PropertyEvent} (h : reports offs e = some as) :
    Defines e.name as := by
  cases e with
  | newNumber nvp =>
    cases hfind : KeyedList.find? nvp.name numberReports with
    | none =>
      simp only [reports, hfind, Option.some.injEq] at h
      rw [← h]
      exact defines_nil _
    | some report =>
      simp only [reports, hfind] at h
      exact numberReports_define _ (KeyedList.mem_of_find? hfind) nvp as h
  | newSwitch svp =>
    cases hfind : KeyedList.find? svp.name (switchReports offs) with
    | none =>
      simp only [reports, hfind, Option.some.injEq] at h
      rw [← h]
      exact defines_nil _
    | some report =>
      simp only [reports, hfind] at h
      exact switchReports_define offs _ (KeyedList.mem_of_find? hfind) svp as h
  | newText tvp =>
    obtain rfl := Option.some.inj h
    exact defines_nil _

theorem definedBy_of_gives {offs : Bool} {e : PropertyEvent} {q : Field} {v : Json}
    (h : gives offs e q = some v) : KeyedList.find? q.1 definedBy = some e.name := by
  cases has : reports offs e with
  | none =>
    rw [gives, has] at h
    cases h
  | some as =>
    rw [gives, has] at h
    exact reports_define has _ (KeyedList.mem_of_find? h)

/-- Events of two properties report different fields. -/
theorem gives_disjoint (offs : Bool) {a b : PropertyEvent} (h : a.name ≠ b.name) (q : Field) :
    gives offs a q = none ∨ gives offs b q = none := by
  cases ha : gives offs a q with
  | none => exact Or.inl rfl
  | some v =>
    cases hb : gives offs b q with
    | none => exact Or.inr rfl
    | some w =>
      have hname : some a.name = some b.name :=
        (definedBy_of_gives ha).symm.trans (definedBy_of_gives hb)
      exact absurd (Option.some.inj hname) h

end Defined

/-! ### Whole runs -/

section Runs

variable {c c' : INDICamera} {is_ready : Bool}

/-- What holds in every reachable state: the pointer to the information of the sensor leads to the
vector of that name, and there is no false where none is recorded. -/
structure Good (is_ready : Bool) (c : INDICamera) : Prop where
  points : ∀ name, c.pointer .ccdinfo_prop = some name → name = bytes "CCD_INFO"
  ready : c.is_ready = is_ready
  abort : Json.tree.get c.camera_info [bytes "exposure", bytes "abort"] ≠ some (.boolean false)
  connected : is_ready = false →
    Json.tree.get c.camera_info [bytes "connected"] ≠ some (.boolean false)

theorem isField_abort : IsField [bytes "exposure", bytes "abort"] :=
  isField_member (by decide) (by decide)

/-- A value that is not reported was there before. -/
theorem Effect.get_eq_some {as : List Assignment} {info info' : Json} (h : Effect as info info')
    {q : Path} (hq : IsField q) {v : Json} (hv : Json.tree.get info' q = some v) :
    fieldValue as q = some v ∨ Json.tree.get info q = some v := by
  cases hvalue : fieldValue as q with
  | some w =>
    rw [h.given hq hvalue] at hv
    exact Or.inl hv
  | none =>
    by_cases herases : Erases as q
    · rw [h.erased hq hvalue herases] at hv
      cases hv
    · rw [h.kept hq hvalue herases] at hv
      exact Or.inr hv

theorem Recorded.good {as : List Assignment} (h : Recorded as c c') (hc : Good is_ready c) :
    Good is_ready c' := by
  have heffect : Effect as c.camera_info c'.camera_info := h.tidy.effect h.stored
  refine ⟨fun name hname => ?_, h.ready.trans hc.ready, fun habort => ?_,
    fun hready hconnected => ?_⟩
  · rcases h.pointer with hsame | hnull
    · exact hc.points name (hsame.symm.trans hname)
    · rw [hnull] at hname
      cases hname
  · rcases heffect.get_eq_some isField_abort habort with hvalue | hbefore
    · exact (h.honest _ hvalue).1 rfl
    · exact hc.abort hbefore
  · rcases heffect.get_eq_some (Or.inl rfl) hconnected with hvalue | hbefore
    · have htrue : c.is_ready = true := (h.honest _ hvalue).2 rfl
      rw [hc.ready, hready] at htrue
      exact Bool.false_ne_true htrue
    · exact hc.connected hready hbefore

/-- A silent or recorded event keeps the invariant. -/
theorem Outcome.good {is_silent : Bool} {as : List Assignment} (h : Outcome is_silent as c c')
    (hc : Good is_ready c) : Good is_ready c' := by
  rcases h with ⟨-, hrecorded⟩ | ⟨-, hrecorded, -⟩
  · exact hrecorded.good hc
  · exact hrecorded.good hc

/-- The library has the vector of the event, so the pointer leads to it. -/
theorem deref_eq (hpoints : ∀ name, c.pointer .ccdinfo_prop = some name → name = bytes "CCD_INFO")
    {nvp : INumberVectorProperty} (hnumbers : c.numbers nvp.name = some nvp) :
    ∀ info, c.deref .ccdinfo_prop = some info → nvp.name = bytes "CCD_INFO" → info = nvp := by
  intro info hinfo hname
  obtain ⟨name, hname', hvector⟩ := Option.bind_eq_some_iff.mp hinfo
  rw [hpoints name hname', ← hname, hnumbers] at hvector
  exact (Option.some.inj hvector).symm

theorem receive_eq (e : IndiEvent) (c : INDICamera) : (c.receive e).camera_info = c.camera_info ∧
    (c.receive e).is_ready = c.is_ready ∧ (c.receive e).pointer = c.pointer := by
  obtain ⟨numbers, switches, hreceive⟩ := c.toIndiDriver.receive_eq e
  simp only [receive, hreceive, and_self]

theorem Good.receive (hc : Good is_ready c) (e : IndiEvent) : Good is_ready (c.receive e) := by
  obtain ⟨hinfo, hready, hpointer⟩ := receive_eq e c
  refine ⟨?_, hready.trans hc.ready, ?_, ?_⟩
  · rw [hpointer]
    exact hc.points
  · rw [hinfo]
    exact hc.abort
  · rw [hinfo]
    exact hc.connected

theorem Recorded.of_receive {as : List Assignment} {e : IndiEvent}
    (h : Recorded as (c.receive e) c') : Recorded as c c' := by
  obtain ⟨hinfo, hready, hpointer⟩ := receive_eq e c
  refine ⟨h.tidy, ?_, h.ready.trans hready, ?_, ?_⟩
  · rw [← hinfo]
    exact h.stored
  · rw [← hpointer]
    exact h.pointer
  · rw [← hready]
    exact h.honest

theorem Outcome.of_receive {is_silent : Bool} {as : List Assignment} {e : IndiEvent}
    (h : Outcome is_silent as (c.receive e) c') : Outcome is_silent as c c' := by
  rcases h with ⟨hfalse, hrecorded⟩ | ⟨htrue, hrecorded, hplain, hvalues⟩
  · exact Or.inl ⟨hfalse, hrecorded.of_receive⟩
  · rw [(receive_eq e c).2.1] at hvalues
    exact Or.inr ⟨htrue, hrecorded.of_receive, hplain, hvalues⟩

/-- What a property event does, as its report says. -/
theorem propertyStep_outcome (offs : Bool) {e : PropertyEvent} (hc : Good is_ready c)
    (h : propertyStep c e = some c') :
    ∃ as, reports offs e = some as ∧ Outcome (silent is_ready e) as c c' := by
  have hreceived : Good is_ready (c.receive e.toIndiEvent) := hc.receive _
  cases e with
  | newNumber nvp =>
    have hnumbers : (c.receive (.newNumber nvp)).numbers nvp.name = some nvp :=
      c.toIndiDriver.receive_newNumber nvp
    obtain ⟨as, has, hrecorded⟩ := newNumber_records offs (deref_eq hreceived.points hnumbers) h
    exact ⟨as, has, Or.inl ⟨rfl, hrecorded.of_receive⟩⟩
  | newSwitch svp =>
    obtain ⟨as, has, houtcome⟩ := newSwitch_records offs h
    rw [hreceived.ready] at houtcome
    exact ⟨as, has, houtcome.of_receive⟩
  | newText tvp =>
    obtain ⟨driver, hdriver, rfl⟩ := Option.map_eq_some_iff.mp h
    obtain ⟨text, -, rfl⟩ := Option.map_eq_some_iff.mp hdriver
    have hnothing : Recorded [] (c.receive (.newText tvp)) (c.receive (.newText tvp)) :=
      recorded_nil rfl rfl (Or.inl rfl)
    exact ⟨[], rfl, Or.inl ⟨rfl, hnothing.of_receive⟩⟩

/-- The property events as events that report fields. -/
theorem propertyStep_law (offs is_ready : Bool) :
    Law propertyStep read (gives offs) (fun e => silent is_ready e = true) (erases offs)
      (Good is_ready) where
  inv hc h := by
    obtain ⟨as, -, houtcome⟩ := propertyStep_outcome offs hc h
    exact houtcome.good hc
  recorded := by
    intro c c' e q v hc h hgives hsilent
    obtain ⟨as, has, houtcome⟩ := propertyStep_outcome offs hc h
    rw [gives, has, Option.getD_some] at hgives
    rcases houtcome with ⟨-, hrecorded⟩ | ⟨htrue, -⟩
    · exact (hrecorded.tidy.effect hrecorded.stored).given q.2 hgives
    · exact absurd htrue hsilent
  missed := by
    intro c c' e q v hc h hgives hsilent
    obtain ⟨as, has, houtcome⟩ := propertyStep_outcome offs hc h
    rw [gives, has, Option.getD_some] at hgives
    rcases houtcome with ⟨hfalse, -⟩ | ⟨-, hrecorded, -, hvalues⟩
    · rw [hsilent] at hfalse
      cases hfalse
    · obtain ⟨rfl, hq⟩ := hvalues q.1 v hgives
      have hsame : read c' q = read c q :=
        (hrecorded.tidy.effect hrecorded.stored).kept q.2 rfl (by simp [Erases])
      refine ⟨hsame, ?_⟩
      rcases hq with hq | ⟨hq, hready⟩
      · rw [read, hq]
        exact hc.abort
      · rw [read, hq]
        exact hc.connected (hc.ready.symm.trans hready)
  kept := by
    intro c c' e q hc h hgives herases
    obtain ⟨as, has, houtcome⟩ := propertyStep_outcome offs hc h
    rw [gives, has, Option.getD_some] at hgives
    rw [erases, has, Option.getD_some] at herases
    rcases houtcome with ⟨-, hrecorded⟩ | ⟨-, hrecorded, -⟩
    · exact (hrecorded.tidy.effect hrecorded.stored).kept q.2 hgives herases
    · exact (hrecorded.tidy.effect hrecorded.stored).kept q.2 rfl (by simp [Erases])
  erased := by
    intro c c' e q hc h hgives herases
    obtain ⟨as, has, houtcome⟩ := propertyStep_outcome offs hc h
    rw [gives, has, Option.getD_some] at hgives
    rw [erases, has, Option.getD_some] at herases
    rcases houtcome with ⟨-, hrecorded⟩ | ⟨-, -, hplain, -⟩
    · exact (hrecorded.tidy.effect hrecorded.stored).erased q.2 hgives herases
    · -- a silent event reports the field itself
      obtain ⟨a, ha, hpre⟩ := herases
      have haq : a.1 = q.1 := eq_of_isPrefix_field (hplain a ha).1 q.2 hpre
      rw [fieldValue, flatMap_leaves_of_plain fun b hb => (hplain b hb).2,
        ← Option.not_isSome_iff_eq_none, KeyedList.find?_isSome_iff, ← haq] at hgives
      exact absurd (List.mem_map_of_mem ha) hgives

/-- A camera whose pointers are null and whose document is empty. -/
structure Fresh (c : INDICamera) : Prop where
  pointer : ∀ p, c.pointer p = none
  info : c.camera_info = .null

theorem Fresh.good (hc : Fresh c) : Good c.is_ready c := by
  refine ⟨fun name hname => ?_, rfl, ?_, fun _ => ?_⟩
  · rw [hc.pointer] at hname
    cases hname
  · rw [hc.info]
    nofun
  · rw [hc.info]
    nofun

/-- A pointer to the information of the sensor is set to the vector of that name. -/
theorem Good.point (hc : Good is_ready c) {p : CameraPointer} {name : Bytes}
    (hname : p = .ccdinfo_prop → name = bytes "CCD_INFO") : Good is_ready (c.point p name) := by
  refine ⟨fun name' hname' => ?_, hc.ready, hc.abort, hc.connected⟩
  have hpointer : (c.point p name).pointer .ccdinfo_prop =
      Function.update c.pointer p (some name) .ccdinfo_prop := rfl
  rw [hpointer] at hname'
  by_cases hp : p = .ccdinfo_prop
  · subst hp
    rw [Function.update_self] at hname'
    obtain rfl : name = name' := Option.some.inj hname'
    exact hname rfl
  · rw [Function.update_of_ne (Ne.symm hp)] at hname'
    exact hc.points name' hname'

theorem Good.point_other (hc : Good is_ready c) {p : CameraPointer} {name : Bytes}
    (hp : p ≠ .ccdinfo_prop) : Good is_ready (c.point p name) :=
  hc.point fun heq => absurd heq hp

theorem Good.record (hc : Good is_ready c) {path : Path} {s : Bytes} (hpath : IsField path)
    (h : record path (.string s) c = some c') : Good is_ready c' := by
  have hrecorded : Recorded [(path, .string s)] c c' :=
    recorded_value c h hpath rfl nofun rfl rfl (Or.inl rfl)
  exact hrecorded.good hc

theorem Good.newProperty_number (hc : Good is_ready c) {nvp : INumberVectorProperty}
    (hnumbers : c.numbers nvp.name = some nvp) (h : newProperty_number nvp c = some c') :
    Good is_ready c' := by
  unfold INDICamera.newProperty_number at h
  split at h
  next p hp =>
    have hname : p = .ccdinfo_prop → nvp.name = bytes "CCD_INFO" := by
      have htable : ∀ e ∈ forwardedNumbers, e.2 = .ccdinfo_prop → e.1 = bytes "CCD_INFO" := by
        decide
      exact htable _ (KeyedList.mem_of_find? hp)
    have hpointed : Good is_ready (c.point p nvp.name) := hc.point hname
    obtain ⟨as, -, hrecorded⟩ := newNumber_records false (deref_eq hpointed.points hnumbers) h
    exact hrecorded.good hpointed
  next =>
    obtain rfl : c = c' := Option.some.inj h
    exact hc

theorem Good.newProperty_switch (hc : Good is_ready c) {svp : ISwitchVectorProperty}
    (h : newProperty_switch svp c = some c') : Good is_ready c' := by
  unfold INDICamera.newProperty_switch at h
  split_ifs at h with hconnection
  · simp only [Option.bind_eq_bind, Option.bind_eq_some_iff, Option.pure_def,
      Option.some.injEq] at h
    obtain ⟨sw, -, driver, hdriver, rfl⟩ := h
    obtain ⟨-, hready, hpointer⟩ := IndiDriver.newProperty_CONNECTION_eq_some hdriver
    have hnothing : Recorded [] c { c with toIndiDriver := driver } := by
      refine recorded_nil ?_ ?_ ?_
      · rfl
      · exact hready
      · rw [hpointer]
        exact Or.inl (Function.update_of_ne (by decide) _ _)
    exact hnothing.good hc
  · split at h
    next p hp =>
      have hname : p = .ccdinfo_prop → svp.name = bytes "CCD_INFO" := by
        have htable : ∀ e ∈ forwardedSwitches, e.2 ≠ .ccdinfo_prop := by decide
        exact fun hinfo => absurd hinfo (htable _ (KeyedList.mem_of_find? hp))
      obtain ⟨as, -, houtcome⟩ := newSwitch_records false h
      exact houtcome.good (hc.point hname)
    next =>
      obtain rfl : c = c' := Option.some.inj h
      exact hc

theorem Good.newProperty_text (hc : Good is_ready c) {tvp : ITextVectorProperty}
    (h : newProperty_text tvp c = some c') : Good is_ready c' := by
  have hmember (sub key : Bytes) (hconnected : sub ≠ bytes "connected")
      (hdebug : sub ≠ bytes "debug") : IsField [sub, key] := isField_member hconnected hdebug
  unfold INDICamera.newProperty_text at h
  split_ifs at h with hcfa hport hdriver hactive
  · obtain rfl := Option.some.inj h
    unfold newProperty_CFA
    split
    · exact ⟨hc.points, hc.ready, hc.abort, hc.connected⟩
    · exact hc
  · simp only [newProperty_DEVICE_PORT, Option.bind_eq_bind, Option.bind_eq_some_iff] at h
    obtain ⟨text, -, port, -, hrecord⟩ := h
    have hpointed : Good is_ready (c.point .camera_port tvp.name) := hc.point_other (by decide)
    exact hpointed.record (hmember _ _ (by decide) (by decide)) hrecord
  · simp only [newProperty_DRIVER_INFO, IndiDriver.newProperty_DRIVER_INFO, Option.bind_eq_bind,
      Option.bind_eq_some_iff, Option.pure_def, Option.some.injEq] at h
    obtain ⟨driver, ⟨name, -, exec, -, version, -, interface, -, rfl⟩, c₁, h₁, c₂, h₂, c₃, h₃,
      h₄⟩ := h
    -- four strings are recorded one after the other
    have hdriver : Good is_ready { c with
        device_name := name
        indi_exec := exec
        indi_version := version
        indi_interface := interface } := ⟨hc.points, hc.ready, hc.abort, hc.connected⟩
    have hgood₁ := hdriver.record (hmember _ _ (by decide) (by decide)) h₁
    have hgood₂ := hgood₁.record (hmember _ _ (by decide) (by decide)) h₂
    have hgood₃ := hgood₂.record (hmember _ _ (by decide) (by decide)) h₃
    exact hgood₃.record (hmember _ _ (by decide) (by decide)) h₄
  · rw [newText_eq_some h]
    exact hc.point_other (by decide)
  · obtain rfl := Option.some.inj h
    exact hc

theorem Good.step {e : IndiEvent} (hc : Good is_ready c) (h : step c e = some c') :
    Good is_ready c' := by
  have hreceived : Good is_ready (c.receive e) := hc.receive e
  have hnull : (c.receive e).ClearStatus.pointer .ccdinfo_prop = none := rfl
  have hcleared : Good is_ready (c.receive e).ClearStatus := by
    have hnothing : Recorded [] (c.receive e) (c.receive e).ClearStatus := by
      refine recorded_nil ?_ ?_ (Or.inr hnull)
      · rfl
      · rfl
    exact hnothing.good hreceived
  cases e with
  | newDevice deviceName =>
    obtain rfl := Option.some.inj h
    unfold newDevice IndiDriver.newDevice
    split_ifs
    · exact hreceived.point_other (by decide)
    · exact hreceived
  | removeDevice deviceName =>
    obtain rfl := Option.some.inj h
    exact hcleared
  | newProperty property =>
    cases property with
    | INDI_NUMBER nvp =>
      exact hreceived.newProperty_number (c.toIndiDriver.receive_newProperty nvp) h
    | INDI_SWITCH svp => exact hreceived.newProperty_switch h
    | INDI_TEXT tvp => exact hreceived.newProperty_text h
    | INDI_LIGHT name =>
      obtain rfl := Option.some.inj h
      exact hreceived
    | INDI_BLOB name =>
      obtain rfl := Option.some.inj h
      unfold newProperty_blob
      split_ifs
      · exact ⟨hreceived.points, hreceived.ready, hreceived.abort, hreceived.connected⟩
      · exact hreceived
  | newSwitch svp =>
    obtain ⟨as, -, houtcome⟩ := newSwitch_records false h
    exact houtcome.good hreceived
  | newNumber nvp =>
    have hnumbers := c.toIndiDriver.receive_newNumber nvp
    obtain ⟨as, -, hrecorded⟩ := newNumber_records false (deref_eq hreceived.points hnumbers) h
    exact hrecorded.good hreceived
  | newText tvp =>
    rw [newText_eq_some h]
    exact hreceived
  | IndiServerConnected =>
    obtain rfl := Option.some.inj h
    exact ⟨hreceived.points, hreceived.ready, hreceived.abort, hreceived.connected⟩
  | IndiServerDisconnected exit_code =>
    obtain rfl := Option.some.inj h
    exact hcleared

end Runs

/-- From every reachable state: after a sequence of property events the document holds the latest
report of each field exactly when the last event that reports the field is not silent, and no later
event replaces the member the field belongs to. Two events of different properties commute exactly
when neither replaces the member of a field that the other records. -/
theorem camera_info_lossless_iff (offs : Bool) {c₀ c : INDICamera} (h₀ : Fresh c₀)
    (hc : Reachable step c₀ c) :
    (∀ events c', run propertyStep c events = some c' →
      (Lossless (gives offs) events (read c') ↔
        Kept (gives offs) (fun e => silent c.is_ready e = true) (erases offs) events)) ∧
    ∀ a b c₁ c₂, a.name ≠ b.name → run propertyStep c [a, b] = some c₁ →
      run propertyStep c [b, a] = some c₂ →
      (read c₁ = read c₂ ↔
        Apart (gives offs) (fun e => silent c.is_ready e = true) (erases offs) a b ∧
          Apart (gives offs) (fun e => silent c.is_ready e = true) (erases offs) b a) := by
  have hgood : Good c₀.is_ready c := reachable_invariant h₀.good (fun _ _ _ hs ht => hs.step ht) hc
  have hlaw := propertyStep_law offs c₀.is_ready
  rw [hgood.ready]
  constructor
  · intro events c' h
    exact hlaw.lossless_iff hgood h
  · intro a b c₁ c₂ hname hab hba
    exact hlaw.commute_iff hgood hab hba (gives_disjoint offs hname)

def gainVector : INumberVectorProperty := ⟨bytes "CCD_GAIN", [⟨bytes "GAIN", 0x4024000000000000⟩]⟩

def binningVector : INumberVectorProperty :=
  ⟨bytes "BINNING", [⟨bytes "HOR_BIN", 0x3FF0000000000000⟩, ⟨bytes "VER_BIN", 0x3FF0000000000000⟩]⟩

theorem fresh_unset : Fresh unset := ⟨fun _ => rfl, rfl⟩

/-- A gain that no other event follows is kept. -/
theorem gain_kept : ∃ c, run propertyStep unset [.newNumber gainVector] = some c ∧
    Lossless (gives true) [.newNumber gainVector] (read c) := by
  obtain ⟨c, hc⟩ : ∃ c, run propertyStep unset [.newNumber gainVector] = some c :=
    Option.isSome_iff_exists.mp (by decide +kernel)
  refine ⟨c, hc, ((camera_info_lossless_iff true fresh_unset ⟨[], rfl⟩).1 _ c hc).mpr ?_⟩
  intro e after q v ⟨⟨before, hevents⟩, _, _⟩
  -- the event is the only one
  cases before with
  | nil =>
    obtain ⟨rfl, rfl⟩ : PropertyEvent.newNumber gainVector = e ∧ [] = after := by
      simpa using hevents
    exact ⟨by decide, fun a ha => absurd ha List.not_mem_nil⟩
  | cons b before => simp at hevents

def exposureGain : Field :=
  ⟨[bytes "exposure", bytes "gain"], isField_member (by decide) (by decide)⟩

/-- A binning that follows a gain erases it, and in the other order both are kept. -/
theorem binning_erases_gain : ∃ c₁ c₂,
    run propertyStep unset [.newNumber gainVector, .newNumber binningVector] = some c₁ ∧
    run propertyStep unset [.newNumber binningVector, .newNumber gainVector] = some c₂ ∧
    ¬ Lossless (gives true) [.newNumber gainVector, .newNumber binningVector] (read c₁) ∧
    read c₁ ≠ read c₂ := by
  have hrun₁ : (run propertyStep unset [.newNumber gainVector, .newNumber binningVector]).map
      (fun c => (read c exposureGain).isSome) = some false := by decide +kernel
  have hrun₂ : (run propertyStep unset [.newNumber binningVector, .newNumber gainVector]).map
      (fun c => (read c exposureGain).isSome) = some true := by decide +kernel
  obtain ⟨c₁, hc₁, hgain₁⟩ := Option.map_eq_some_iff.mp hrun₁
  obtain ⟨c₂, hc₂, hgain₂⟩ := Option.map_eq_some_iff.mp hrun₂
  refine ⟨c₁, c₂, hc₁, hc₂, fun hlossless => ?_, fun hread => ?_⟩
  · have hlatest : Latest (gives true) [.newNumber gainVector, .newNumber binningVector]
        (.newNumber gainVector) [.newNumber binningVector] exposureGain
        (.numberFloat 0x4024000000000000) := by
      refine ⟨⟨[], rfl⟩, rfl, fun a ha => ?_⟩
      rw [List.mem_singleton.mp ha]
      rfl
    rw [hlossless _ _ _ _ hlatest] at hgain₁
    cases hgain₁
  · rw [hread, hgain₂] at hgain₁
    cases hgain₁

end INDICamera

end OpenAPT
