import OpenAPT.IndiCamera
import Mathlib.Data.List.Nodup

/-! The document `camera_info`: what the property events report about its fields, and what the
handlers record. -/
namespace OpenAPT

namespace INDICamera

/-- A field by its keys, or a member the fields are members of. -/
abbrev Path := List Bytes

/-- `camera_info[path] = value`. -/
abbrev Assignment := Path × Json

def storeAll : List Assignment → Json → Option Json
  | [], info => some info
  | a :: as, info => (Json.tree.set a.2 info a.1).bind (storeAll as)

/-- The fields an assignment gives a value. -/
def leaves : Assignment → List (Path × Json)
  | (path, .object members) => members.map fun m => (path ++ [m.1], m.2)
  | (path, value) => [(path, value)]

def fieldValue (as : List Assignment) (q : Path) : Option Json :=
  KeyedList.find? q (as.flatMap leaves)

/-- A value is assigned to the field or to what it is a member of. -/
def Erases (as : List Assignment) (q : Path) : Prop := ∃ a ∈ as, a.1 <+: q

/-- The fields are the members of the members of the document, and two members of its own. -/
def IsField (q : Path) : Prop :=
  q = [bytes "connected"] ∨ q = [bytes "debug"] ∨
    ∃ sub key, q = [sub, key] ∧ sub ≠ bytes "connected" ∧ sub ≠ bytes "debug"

/-- The assignments of one event: values to different fields, or one object that replaces a
member. -/
inductive Tidy : List Assignment → Prop
  | values {as : List Assignment} (hfield : ∀ a ∈ as, IsField a.1)
      (hplain : ∀ a ∈ as, leaves a = [a]) (hnodup : (as.map Prod.fst).Nodup) : Tidy as
  | object {sub : Bytes} {members : List (Bytes × Json)} (hconnected : sub ≠ bytes "connected")
      (hdebug : sub ≠ bytes "debug") : Tidy [([sub], .object members)]

theorem eq_of_isPrefix_field {p q : Path} (hp : IsField p) (hq : IsField q) (h : p <+: q) :
    p = q := by
  rcases hp with rfl | rfl | ⟨sub, key, rfl, -, -⟩
  · rcases hq with rfl | rfl | ⟨sub, key, rfl, hconnected, -⟩
    · rfl
    · simpa using h
    · simp only [List.cons_prefix_cons, List.nil_prefix, and_true] at h
      exact absurd h.symm hconnected
  · rcases hq with rfl | rfl | ⟨sub, key, rfl, -, hdebug⟩
    · simpa using h
    · rfl
    · simp only [List.cons_prefix_cons, List.nil_prefix, and_true] at h
      exact absurd h.symm hdebug
  · rcases hq with rfl | rfl | ⟨sub', key', rfl, -, -⟩
    · simp [List.cons_prefix_cons] at h
    · simp [List.cons_prefix_cons] at h
    · simpa [List.cons_prefix_cons] using h

theorem fresh_child (key : Bytes) : Json.tree.child Json.tree.fresh key = none := rfl

/-- What the assignments of one event do to the fields. -/
structure Effect (as : List Assignment) (info info' : Json) : Prop where
  given : ∀ {q : Path} {v : Json}, IsField q → fieldValue as q = some v →
    Json.tree.get info' q = some v
  kept : ∀ {q : Path}, IsField q → fieldValue as q = none → ¬ Erases as q →
    Json.tree.get info' q = Json.tree.get info q
  erased : ∀ {q : Path}, IsField q → fieldValue as q = none → Erases as q →
    Json.tree.get info' q = none

theorem flatMap_leaves_of_plain {as : List Assignment} (hplain : ∀ a ∈ as, leaves a = [a]) :
    as.flatMap leaves = as := by
  induction as with
  | nil => rfl
  | cons a as ih =>
    rw [List.flatMap_cons, hplain a List.mem_cons_self,
      ih fun b hb => hplain b (List.mem_cons_of_mem a hb)]
    rfl

/-- Values stored in different fields do not disturb each other. -/
theorem get_storeAll_values {as : List Assignment} {info info' : Json}
    (hfield : ∀ a ∈ as, IsField a.1) (hnodup : (as.map Prod.fst).Nodup)
    (h : storeAll as info = some info') {q : Path} (hq : IsField q) :
    Json.tree.get info' q = (KeyedList.find? q as).or (Json.tree.get info q) := by
  induction as generalizing info with
  | nil =>
    obtain rfl : info = info' := Option.some.inj h
    rfl
  | cons a as ih =>
    obtain ⟨path, value⟩ := a
    obtain ⟨mid, hmid, hrest⟩ := Option.bind_eq_some_iff.mp h
    rw [List.map_cons, List.nodup_cons] at hnodup
    have htail := ih (fun b hb => hfield b (List.mem_cons_of_mem _ hb)) hnodup.2 hrest
    have hpath : IsField path := hfield _ List.mem_cons_self
    rw [htail]
    by_cases hpq : path = q
    · -- this field is not assigned again
      subst hpq
      have hnone : KeyedList.find? path as = none := by
        rw [← Option.not_isSome_iff_eq_none, KeyedList.find?_isSome_iff]
        exact hnodup.1
      have hget : Json.tree.get mid path = some value := Json.tree.get_set hmid
      simp only [hnone, hget, Option.none_or, KeyedList.find?, ↓reduceIte, Option.some_or]
    · have hget : Json.tree.get mid q = Json.tree.get info q := by
        apply Json.tree.get_set_of_branch fresh_child hmid
        · exact fun hpre => hpq (eq_of_isPrefix_field hq hpath hpre).symm
        · exact fun hpre => hpq (eq_of_isPrefix_field hpath hq hpre)
      simp only [hget, KeyedList.find?, hpq, ↓reduceIte]

theorem find?_leaves (sub : Bytes) (members : List (Bytes × Json)) (key : Bytes) :
    KeyedList.find? [sub, key] (leaves ([sub], .object members)) = KeyedList.find? key members := by
  induction members with
  | nil => rfl
  | cons m members ih =>
    obtain ⟨name, value⟩ := m
    have hleaves : leaves ([sub], .object ((name, value) :: members)) =
        ([sub, name], value) :: leaves ([sub], .object members) := rfl
    rw [hleaves]
    by_cases hname : name = key
    · simp only [KeyedList.find?, hname, ↓reduceIte]
    · have hpath : [sub, name] ≠ [sub, key] := by simpa using hname
      simp only [KeyedList.find?, hname, hpath, ↓reduceIte, ih]

theorem find?_leaves_elsewhere {sub : Bytes} {members : List (Bytes × Json)} {q : Path}
    (h : ¬ [sub] <+: q) : KeyedList.find? q (leaves ([sub], .object members)) = none := by
  rw [← Option.not_isSome_iff_eq_none, KeyedList.find?_isSome_iff]
  intro hmem
  obtain ⟨leaf, hleaf, rfl⟩ := List.mem_map.mp hmem
  obtain ⟨m, -, rfl⟩ := List.mem_map.mp hleaf
  exact h (List.prefix_append _ _)

theorem effect_values {as : List Assignment} {info info' : Json} (hfield : ∀ a ∈ as, IsField a.1)
    (hplain : ∀ a ∈ as, leaves a = [a]) (hnodup : (as.map Prod.fst).Nodup)
    (h : storeAll as info = some info') : Effect as info info' := by
  have hvalue (q : Path) : fieldValue as q = KeyedList.find? q as := by
    rw [fieldValue, flatMap_leaves_of_plain hplain]
  have hget {q : Path} (hq : IsField q) := get_storeAll_values hfield hnodup h hq
  refine ⟨fun hq hv => ?_, fun hq hv _ => ?_, fun {q} hq hv herases => ?_⟩
  · rw [hget hq, ← hvalue, hv, Option.some_or]
  · rw [hget hq, ← hvalue, hv, Option.none_or]
  · -- no other field is a prefix of a field
    obtain ⟨a, ha, hpre⟩ := herases
    obtain rfl : a.1 = q := eq_of_isPrefix_field (hfield a ha) hq hpre
    rw [hvalue] at hv
    have hmem : a.1 ∈ as.map Prod.fst := List.mem_map_of_mem ha
    rw [← KeyedList.find?_isSome_iff, hv] at hmem
    exact absurd hmem Bool.false_ne_true

/-- The fields below a member. -/
theorem IsField.exists_key {sub : Bytes} {q : Path} (hq : IsField q)
    (hconnected : sub ≠ bytes "connected") (hdebug : sub ≠ bytes "debug") (hpre : [sub] <+: q) :
    ∃ key, q = [sub, key] := by
  rcases hq with rfl | rfl | ⟨sub', key, rfl, -, -⟩
  · exact absurd (by simpa [List.cons_prefix_cons] using hpre) hconnected
  · exact absurd (by simpa [List.cons_prefix_cons] using hpre) hdebug
  · simp only [List.cons_prefix_cons, List.nil_prefix, and_true] at hpre
    exact ⟨key, by rw [hpre]⟩

/-- A field that is not below a member is not above it either. -/
theorem IsField.not_isPrefix {sub : Bytes} {q : Path} (hq : IsField q) (hpre : ¬ [sub] <+: q) :
    ¬ q <+: [sub] := by
  intro hq'
  rcases hq with rfl | rfl | ⟨sub', key, rfl, -, -⟩
  · exact hpre (by simp_all [List.cons_prefix_cons])
  · exact hpre (by simp_all [List.cons_prefix_cons])
  · simp [List.cons_prefix_cons] at hq'

theorem get_of_object {info : Json} {sub : Bytes} {members : List (Bytes × Json)}
    (h : Json.tree.get info [sub] = some (.object members)) (key : Bytes) :
    Json.tree.get info [sub, key] = KeyedList.find? key members := by
  calc Json.tree.get info [sub, key]
    _ = Json.tree.get info ([sub] ++ [key]) := by rw [List.singleton_append]
    _ = (Json.tree.get info [sub]).bind fun j => Json.tree.get j [key] :=
        Json.tree.get_append info [sub] [key]
    _ = Json.tree.get (.object members) [key] := by rw [h, Option.bind_some]
    _ = KeyedList.find? key members := by
        cases hfind : KeyedList.find? key members <;>
          simp only [KeyedTree.get, Json.tree, Json.find?, hfind, Option.bind_none,
            Option.bind_some]

theorem effect_object {sub : Bytes} {members : List (Bytes × Json)} {info info' : Json}
    (hconnected : sub ≠ bytes "connected") (hdebug : sub ≠ bytes "debug")
    (h : Json.tree.set (.object members) info [sub] = some info') :
    Effect [([sub], .object members)] info info' := by
  have hvalue (q : Path) : fieldValue [([sub], .object members)] q =
      KeyedList.find? q (leaves ([sub], .object members)) := by
    rw [fieldValue, List.flatMap_singleton]
  have herases (q : Path) : Erases [([sub], .object members)] q ↔ [sub] <+: q := by
    simp only [Erases, List.mem_singleton, exists_eq_left]
  have hbelow (key : Bytes) : Json.tree.get info' [sub, key] = KeyedList.find? key members :=
    get_of_object (Json.tree.get_set h) key
  refine ⟨fun {q v} hq hv => ?_, fun hq hv hnot => ?_, fun {q} hq hv hmem => ?_⟩
  · rw [hvalue] at hv
    have hpre : [sub] <+: q := by
      by_contra hnot
      rw [find?_leaves_elsewhere hnot] at hv
      cases hv
    obtain ⟨key, rfl⟩ := hq.exists_key hconnected hdebug hpre
    rw [hbelow, ← hv, find?_leaves]
  · -- elsewhere nothing changed
    have hpre := mt (herases _).mpr hnot
    exact Json.tree.get_set_of_branch fresh_child h (hq.not_isPrefix hpre) hpre
  · obtain ⟨key, rfl⟩ := hq.exists_key hconnected hdebug ((herases q).mp hmem)
    rw [hbelow, ← find?_leaves sub, ← hvalue, hv]

theorem Tidy.effect {as : List Assignment} {info info' : Json} (has : Tidy as)
    (h : storeAll as info = some info') : Effect as info info' := by
  cases has with
  | values hfield hplain hnodup => exact effect_values hfield hplain hnodup h
  | object hconnected hdebug =>
    obtain ⟨info₁, hset, hrest⟩ := Option.bind_eq_some_iff.mp h
    obtain rfl : info₁ = info' := Option.some.inj hrest
    exact effect_object hconnected hdebug hset

/-! ### What the events report -/

/-- One field of the member `sub` for each of some elements. -/
def valueReports (sub : Bytes) (elements : List (Bytes × Bytes)) (nvp : INumberVectorProperty) :
    Option (List Assignment) :=
  elements.mapM fun e => (numberValue nvp e.1).map fun value => ([sub, e.2], .numberFloat value)

/-- A member that is replaced by an object with one field for each of some elements. -/
def objectReport (sub : Bytes) (elements : List (Bytes × Bytes)) (nvp : INumberVectorProperty) :
    Option (List Assignment) :=
  (elements.mapM fun e => (numberValue nvp e.1).map fun value => (e.2, Json.numberFloat value)).map
    fun members => [([sub], .object members)]

/-- The assignments for each name that `newNumber` knows. -/
def numberReports : List (Bytes × (INumberVectorProperty → Option (List Assignment))) :=
  [(bytes "CCD_EXPOSURE", fun nvp => nvp.np.head?.map fun exposure =>
      [([bytes "exposure", bytes "current"], .numberFloat exposure.value)]),
    (bytes "CCD_INFO", objectReport (bytes "frame")
      [(bytes "CCD_MAX_X", bytes "max_frame_x"), (bytes "CCD_MAX_Y", bytes "max_frame_y"),
        (bytes "CCD_BITSPERPIXEL", bytes "pixel_depth"), (bytes "CCD_PIXEL_SIZE_X", bytes "pixel_x"),
        (bytes "CCD_PIXEL_SIZE_Y", bytes "pixel_y")]),
    (bytes "BINNING", objectReport (bytes "exposure")
      [(bytes "HOR_BIN", bytes "binning_x"), (bytes "VER_BIN", bytes "binning_y")]),
    (bytes "FRAME", objectReport (bytes "frame")
      [(bytes "HEIGHT", bytes "height"), (bytes "WIDTH", bytes "width"), (bytes "X", bytes "x"),
        (bytes "Y", bytes "y")]),
    (bytes "CCD_TEMPERATURE",
      valueReports (bytes "temperature") [(bytes "CCD_TEMPERATURE_VALUE", bytes "current")]),
    (bytes "CCD_GAIN", valueReports (bytes "exposure") [(bytes "GAIN", bytes "gain")]),
    (bytes "CCD_OFFSET", valueReports (bytes "exposure") [(bytes "OFFSET", bytes "offset")]),
    (bytes "POLLING_PERIOD", valueReports (bytes "network") [(bytes "PERIOD_MS", bytes "period")]),
    (bytes "LIMITS", valueReports (bytes "limits")
      [(bytes "LIMITS_BUFFER_MAX", bytes "maxbuffer"), (bytes "LIMITS_PREVIEW_FPS", bytes "maxfps")]),
    (bytes "STREAM_DELAY", valueReports (bytes "video") [(bytes "STREAM_DELAY_TIME", bytes "delay")]),
    (bytes "STREAMING_EXPOSURE", valueReports (bytes "video")
      [(bytes "STREAMING_EXPOSURE_VALUE", bytes "exposure"),
        (bytes "STREAMING_DIVISOR_VALUE", bytes "division")]),
    (bytes "FPS", valueReports (bytes "video")
      [(bytes "EST_FPS", bytes "fps"), (bytes "AVG_FPS", bytes "avgfps")])]

/-- The abort switch is on in a vector. -/
def abortOn (svp : ISwitchVectorProperty) : Bool :=
  (IUFindSwitch svp (bytes "ABORT_EXPOSURE")).any fun sw => sw.s = .ISS_ON

def choiceReport (names : List (Bytes × Bytes)) (path : Path) (svp : ISwitchVectorProperty) :
    Option (List Assignment) :=
  (firstOn svp names).map fun choice => [(path, .string (choice.getD []))]

/-- The assignments for each name that `newSwitch` knows. `offs` says whether an abort switch that
is off reports the value false. -/
def switchReports (offs : Bool) :
    List (Bytes × (ISwitchVectorProperty → Option (List Assignment))) :=
  [(bytes "CONNECTION", fun svp => some [([bytes "connected"], .boolean svp.connectOn)]),
    (bytes "DEBUG", fun svp => (IUFindSwitch svp (bytes "ENABLE")).map fun sw =>
      [([bytes "debug"], .boolean (decide (sw.s = .ISS_ON)))]),
    (bytes "CCD_FRAME_TYPE", choiceReport frameTypes [bytes "frame", bytes "type"]),
    (bytes "CCD_TRANSFER_FORMAT", choiceReport transferFormats [bytes "frame", bytes "format"]),
    (bytes "CCD_ABORT_EXPOSURE", fun svp =>
      if abortOn svp || offs then
        some [([bytes "exposure", bytes "abort"], .boolean (abortOn svp))]
      else some []),
    (bytes "UPLOAD_MODE", choiceReport uploadModes [bytes "network", bytes "mode"]),
    (bytes "CCD_FAST_TOGGLE", fun svp =>
      (firstOn svp [(bytes "INDI_ENABLED", true), (bytes "INDI_DISABLED", false)]).join.map
        fun mode => [([bytes "frame", bytes "fast_read"], .boolean mode)]),
    (bytes "CCD_VIDEO_STREAM", fun svp =>
      (firstOn svp [(bytes "STREAM_ON", true), (bytes "STREAM_OFF", false)]).map fun choice =>
        (choice.map fun on => ([bytes "video", bytes "is_video"], Json.boolean on)).toList),
    (bytes "FLIP", fun _ => some [])]

/-- The events of the number, switch and text properties. -/
inductive PropertyEvent
  | newNumber (nvp : INumberVectorProperty)
  | newSwitch (svp : ISwitchVectorProperty)
  | newText (tvp : ITextVectorProperty)
  deriving DecidableEq

def PropertyEvent.toIndiEvent : PropertyEvent → IndiEvent
  | newNumber nvp => .newNumber nvp
  | newSwitch svp => .newSwitch svp
  | newText tvp => .newText tvp

/-- The property an event is about. -/
def PropertyEvent.name : PropertyEvent → Bytes
  | newNumber nvp => nvp.name
  | newSwitch svp => svp.name
  | newText tvp => tvp.name

def propertyStep (c : INDICamera) (e : PropertyEvent) : Option INDICamera := step c e.toIndiEvent

/-- What an event reports. Texts are only logged. -/
def reports (offs : Bool) : PropertyEvent → Option (List Assignment)
  | .newNumber nvp =>
    match KeyedList.find? nvp.name numberReports with
    | some report => report nvp
    | none => some []
  | .newSwitch svp =>
    match KeyedList.find? svp.name (switchReports offs) with
    | some report => report svp
    | none => some []
  | .newText _ => some []

abbrev Field := {q : Path // IsField q}

/-- The value of a field in the document. -/
def read (c : INDICamera) (q : Field) : Option Json := Json.tree.get c.camera_info q.1

/-- The value an event gives a field. -/
def gives (offs : Bool) (e : PropertyEvent) (q : Field) : Option Json :=
  fieldValue ((reports offs e).getD []) q.1

/-- An event assigns a value to a field, or replaces the member it belongs to. -/
def erases (offs : Bool) (e : PropertyEvent) (q : Field) : Prop :=
  Erases ((reports offs e).getD []) q.1

/-- The reports that are not recorded: that the camera is disconnected, where it was never ready,
and that the abort switch is off. -/
def silent (is_ready : Bool) : PropertyEvent → Bool
  | .newSwitch svp =>
    decide (svp.name = bytes "CONNECTION") && !svp.connectOn && !is_ready ||
      decide (svp.name = bytes "CCD_ABORT_EXPOSURE") && !abortOn svp
  | _ => false

/-! ### What the handlers record -/

/-- A handler makes the assignments `as`, and keeps what the others rely on. That the camera is not
connected is only recorded when it is ready, and a false abort never. -/
structure Recorded (as : List Assignment) (c c' : INDICamera) : Prop where
  tidy : Tidy as
  stored : storeAll as c.camera_info = some c'.camera_info
  ready : c'.is_ready = c.is_ready
  pointer : c'.pointer .ccdinfo_prop = c.pointer .ccdinfo_prop ∨ c'.pointer .ccdinfo_prop = none
  honest : ∀ q, fieldValue as q = some (.boolean false) →
    q ≠ [bytes "exposure", bytes "abort"] ∧ (q = [bytes "connected"] → c.is_ready = true)

section Records

variable {c c₁ c' : INDICamera} {as : List Assignment} {path : Path} {value : Json}

theorem record_eq_some (h : record path value c = some c') :
    ∃ info, Json.tree.set value c.camera_info path = some info ∧
      c' = { c with camera_info := info } := by
  obtain ⟨info, hinfo, rfl⟩ := Option.map_eq_some_iff.mp h
  exact ⟨info, hinfo, rfl⟩

theorem isField_member {sub key : Bytes} (hconnected : sub ≠ bytes "connected")
    (hdebug : sub ≠ bytes "debug") : IsField [sub, key] :=
  Or.inr (Or.inr ⟨sub, key, rfl, hconnected, hdebug⟩)

theorem tidy_value (hpath : IsField path) (hplain : leaves (path, value) = [(path, value)]) :
    Tidy [(path, value)] := by
  apply Tidy.values
  · intro a ha
    rwa [List.mem_singleton.mp ha]
  · intro a ha
    rwa [List.mem_singleton.mp ha]
  · simp

/-- Nothing is recorded. -/
theorem recorded_nil (hinfo : c'.camera_info = c.camera_info) (hready : c'.is_ready = c.is_ready)
    (hpointer : c'.pointer .ccdinfo_prop = c.pointer .ccdinfo_prop ∨
      c'.pointer .ccdinfo_prop = none) : Recorded [] c c' where
  tidy := Tidy.values (by simp) (by simp) (by simp)
  stored := by rw [hinfo]; rfl
  ready := hready
  pointer := hpointer
  honest := by simp [fieldValue]

/-- One field is recorded after members that nothing here looks at were set. -/
theorem recorded_value (c : INDICamera) (h : record path value c₁ = some c')
    (hpath : IsField path) (hplain : leaves (path, value) = [(path, value)])
    (hhonest : value = .boolean false → path ≠ [bytes "exposure", bytes "abort"] ∧
      (path = [bytes "connected"] → c.is_ready = true))
    (hinfo : c₁.camera_info = c.camera_info) (hready : c₁.is_ready = c.is_ready)
    (hpointer : c₁.pointer .ccdinfo_prop = c.pointer .ccdinfo_prop ∨
      c₁.pointer .ccdinfo_prop = none) : Recorded [(path, value)] c c' := by
  obtain ⟨info, hset, rfl⟩ := record_eq_some h
  rw [hinfo] at hset
  refine ⟨tidy_value hpath hplain, ?_, hready, hpointer, fun q hq => ?_⟩
  · simp only [storeAll, hset, Option.bind_some]
  · rw [fieldValue, List.flatMap_singleton, hplain] at hq
    obtain ⟨rfl, rfl⟩ : q = path ∧ Json.boolean false = value := by
      simpa using KeyedList.mem_of_find? hq
    exact hhonest rfl

/-- Numbers are never a false report. -/
theorem not_false_of_numbers (hnumbers : ∀ leaf ∈ as.flatMap leaves, ∃ n, leaf.2 = .numberFloat n)
    {q : Path} {b : Bool} (h : fieldValue as q = some (.boolean b)) : False := by
  obtain ⟨n, hn⟩ := hnumbers _ (KeyedList.mem_of_find? h)
  cases hn

theorem recorded_object {sub : Bytes} {members : List (Bytes × Json)}
    (hconnected : sub ≠ bytes "connected") (hdebug : sub ≠ bytes "debug")
    (hnumbers : ∀ m ∈ members, ∃ n, m.2 = Json.numberFloat n)
    (hinfo : c₁.camera_info = c.camera_info) (hdriver : c₁.toIndiDriver = c.toIndiDriver)
    (h : record [sub] (.object members) c₁ = some c') :
    Recorded [([sub], .object members)] c c' := by
  obtain ⟨info, hset, rfl⟩ := record_eq_some h
  rw [hinfo] at hset
  refine ⟨Tidy.object hconnected hdebug, ?_, by rw [hdriver], Or.inl (by rw [hdriver]), ?_⟩
  · simp only [storeAll, hset, Option.bind_some]
  · intro q hq
    refine (not_false_of_numbers (fun leaf hleaf => ?_) hq).elim
    rw [List.flatMap_singleton] at hleaf
    obtain ⟨m, hm, rfl⟩ := List.mem_map.mp hleaf
    exact hnumbers m hm

/-! #### Numbers -/

theorem valueReports_cons {sub : Bytes} {e : Bytes × Bytes} {elements : List (Bytes × Bytes)}
    {nvp : INumberVectorProperty} {n : UInt64} (hn : numberValue nvp e.1 = some n)
    (has : valueReports sub elements nvp = some as) :
    valueReports sub (e :: elements) nvp = some (([sub, e.2], .numberFloat n) :: as) := by
  unfold valueReports at has ⊢
  simp [List.mapM_cons, hn, has]

/-- One number for each element, under a key that depends on the element. -/
theorem mapM_numbers_spec {β : Type} {key : Bytes × Bytes → β} {elements : List (Bytes × Bytes)}
    {nvp : INumberVectorProperty} {numbers : List (β × Json)}
    (h : (elements.mapM fun e => (numberValue nvp e.1).map fun value =>
      (key e, Json.numberFloat value)) = some numbers) :
    numbers.map Prod.fst = elements.map key ∧ ∀ a ∈ numbers, ∃ n, a.2 = Json.numberFloat n := by
  induction elements generalizing numbers with
  | nil =>
    obtain rfl : [] = numbers := Option.some.inj h
    exact ⟨rfl, fun a ha => absurd ha List.not_mem_nil⟩
  | cons e elements ih =>
    simp only [List.mapM_cons, Option.bind_eq_bind, Option.bind_eq_some_iff,
      Option.map_eq_some_iff, Option.pure_def, Option.some.injEq] at h
    obtain ⟨a, ⟨n, hn, rfl⟩, rest, hrest, rfl⟩ := h
    obtain ⟨hkeys, hnumbers⟩ := ih hrest
    refine ⟨by rw [List.map_cons, List.map_cons, hkeys], fun a ha => ?_⟩
    rcases List.mem_cons.mp ha with rfl | ha
    · exact ⟨n, rfl⟩
    · exact hnumbers a ha

/-- The assignments of a value report. -/
theorem valueReports_spec {sub : Bytes} {elements : List (Bytes × Bytes)}
    {nvp : INumberVectorProperty} (h : valueReports sub elements nvp = some as) :
    (as.map Prod.fst = elements.map fun e => [sub, e.2]) ∧
      ∀ a ∈ as, ∃ n, a.2 = Json.numberFloat n :=
  mapM_numbers_spec h

theorem plain_of_numbers (hnumbers : ∀ a ∈ as, ∃ n, a.2 = Json.numberFloat n) :
    ∀ a ∈ as, leaves a = [a] := by
  intro a ha
  obtain ⟨path, value⟩ := a
  obtain ⟨n, hn⟩ := hnumbers _ ha
  dsimp only at hn
  rw [hn]
  rfl

theorem newNumber_values_stored {sub : Bytes} {elements : List (Bytes × Bytes)}
    {nvp : INumberVectorProperty} (h : newNumber_values sub elements nvp c = some c') :
    ∃ as, valueReports sub elements nvp = some as ∧
      storeAll as c.camera_info = some c'.camera_info ∧ c'.toIndiDriver = c.toIndiDriver := by
  induction elements generalizing c with
  | nil =>
    obtain rfl : c = c' := Option.some.inj h
    exact ⟨[], rfl, rfl, rfl⟩
  | cons e elements ih =>
    simp only [newNumber_values, List.foldlM_cons, Option.bind_eq_bind,
      Option.bind_eq_some_iff] at h
    obtain ⟨c₁, ⟨n, hn, hrecord⟩, hrest⟩ := h
    obtain ⟨as, has, hstored, hdriver⟩ := ih hrest
    obtain ⟨info, hset, rfl⟩ := record_eq_some hrecord
    refine ⟨_, valueReports_cons hn has, ?_, hdriver⟩
    simp only [storeAll, hset, Option.bind_some, hstored]

theorem recorded_of_valueReports {sub : Bytes} {elements : List (Bytes × Bytes)}
    {nvp : INumberVectorProperty} (hconnected : sub ≠ bytes "connected")
    (hdebug : sub ≠ bytes "debug") (hnodup : (elements.map Prod.snd).Nodup)
    (has : valueReports sub elements nvp = some as)
    (hstored : storeAll as c.camera_info = some c'.camera_info)
    (hdriver : c'.toIndiDriver = c.toIndiDriver) : Recorded as c c' := by
  obtain ⟨hpaths, hnumbers⟩ := valueReports_spec has
  have hplain : ∀ a ∈ as, leaves a = [a] := plain_of_numbers hnumbers
  refine ⟨Tidy.values ?_ hplain ?_, hstored, by rw [hdriver], Or.inl (by rw [hdriver]), ?_⟩
  · intro a ha
    have hmem : a.1 ∈ as.map Prod.fst := List.mem_map_of_mem ha
    rw [hpaths] at hmem
    obtain ⟨e, -, he⟩ := List.mem_map.mp hmem
    rw [← he]
    exact isField_member hconnected hdebug
  · rw [hpaths]
    have hinj : Function.Injective fun key : Bytes => [sub, key] := by
      intro k k' hk
      simpa using hk
    have hmap := List.Nodup.map hinj hnodup
    rwa [List.map_map] at hmap
  · intro q hq
    refine (not_false_of_numbers (fun leaf hleaf => ?_) hq).elim
    rw [flatMap_leaves_of_plain hplain] at hleaf
    exact hnumbers leaf hleaf

/-- A branch of `newNumber` makes the assignments of the report. The pointer to the information of
the sensor, where it is not null, leads to the vector of that name. -/
def NumberRecords (name : Bytes) (handler : INumberVectorProperty → INDICamera → Option INDICamera)
    (report : INumberVectorProperty → Option (List Assignment)) : Prop :=
  ∀ nvp c c', (∀ info, c.deref .ccdinfo_prop = some info → name = bytes "CCD_INFO" → info = nvp) →
    handler nvp c = some c' → ∃ as, report nvp = some as ∧ Recorded as c c'

theorem records_CCD_EXPOSURE : NumberRecords (bytes "CCD_EXPOSURE") newNumber_CCD_EXPOSURE
    fun nvp => nvp.np.head?.map fun exposure =>
      [([bytes "exposure", bytes "current"], .numberFloat exposure.value)] := by
  intro nvp c c' _ h
  simp only [newNumber_CCD_EXPOSURE, Option.bind_eq_bind, Option.bind_eq_some_iff] at h
  obtain ⟨exposure, hexposure, hrecord⟩ := h
  have hfield : IsField [bytes "exposure", bytes "current"] :=
    isField_member (by decide) (by decide)
  have hrecorded : Recorded
      [([bytes "exposure", bytes "current"], .numberFloat exposure.value)] c c' :=
    recorded_value c hrecord hfield rfl nofun rfl rfl (Or.inl rfl)
  exact ⟨_, by simp only [hexposure, Option.map_some], hrecorded⟩

theorem records_CCD_INFO : NumberRecords (bytes "CCD_INFO") newNumber_CCD_INFO
    (objectReport (bytes "frame")
      [(bytes "CCD_MAX_X", bytes "max_frame_x"), (bytes "CCD_MAX_Y", bytes "max_frame_y"),
        (bytes "CCD_BITSPERPIXEL", bytes "pixel_depth"), (bytes "CCD_PIXEL_SIZE_X", bytes "pixel_x"),
        (bytes "CCD_PIXEL_SIZE_Y", bytes "pixel_y")]) := by
  intro nvp c c' hinfo h
  simp only [newNumber_CCD_INFO, Option.bind_eq_bind, Option.bind_eq_some_iff] at h
  obtain ⟨info, hderef, pixel, -, x, hx, y, hy, mx, hmx, my, hmy, depth, hdepth, hrecord⟩ := h
  obtain rfl : info = nvp := hinfo info hderef rfl
  refine ⟨_, ?_, recorded_object ?_ ?_ ?_ ?_ ?_ hrecord⟩
  · simp [objectReport, hx, hy, hmx, hmy, hdepth]
  · decide
  · decide
  · simp
  · rfl
  · rfl

theorem records_BINNING : NumberRecords (bytes "BINNING") newNumber_BINNING
    (objectReport (bytes "exposure")
      [(bytes "HOR_BIN", bytes "binning_x"), (bytes "VER_BIN", bytes "binning_y")]) := by
  intro nvp c c' _ h
  simp only [newNumber_BINNING, Option.bind_eq_bind, Option.bind_eq_some_iff] at h
  obtain ⟨x, hx, y, hy, hrecord⟩ := h
  refine ⟨_, ?_, recorded_object ?_ ?_ ?_ ?_ ?_ hrecord⟩
  · simp [objectReport, numberValue, hx, hy]
  · decide
  · decide
  · simp
  · rfl
  · rfl

theorem records_FRAME : NumberRecords (bytes "FRAME") newNumber_FRAME
    (objectReport (bytes "frame")
      [(bytes "HEIGHT", bytes "height"), (bytes "WIDTH", bytes "width"), (bytes "X", bytes "x"),
        (bytes "Y", bytes "y")]) := by
  intro nvp c c' _ h
  simp only [newNumber_FRAME, Option.bind_eq_bind, Option.bind_eq_some_iff] at h
  obtain ⟨x, hx, y, hy, width, hwidth, height, hheight, hrecord⟩ := h
  refine ⟨_, ?_, recorded_object ?_ ?_ ?_ ?_ ?_ hrecord⟩
  · simp [objectReport, numberValue, hx, hy, hwidth, hheight]
  · decide
  · decide
  · simp
  · rfl
  · rfl

/-- The branches that set a member of the camera and record it. -/
theorem records_member (name : Bytes) {sub element key : Bytes}
    (set : UInt64 → INDICamera → INDICamera)
    (hset : ∀ n c, (set n c).camera_info = c.camera_info ∧ (set n c).toIndiDriver = c.toIndiDriver)
    (hconnected : sub ≠ bytes "connected") (hdebug : sub ≠ bytes "debug") :
    NumberRecords name (fun nvp c => do
      let n ← numberValue nvp element
      record [sub, key] (.numberFloat n) (set n c)) (valueReports sub [(element, key)]) := by
  intro nvp c c' _ h
  simp only [Option.bind_eq_bind, Option.bind_eq_some_iff] at h
  obtain ⟨n, hn, hrecord⟩ := h
  obtain ⟨hinfo, hdriver⟩ := hset n c
  refine ⟨_, valueReports_cons hn rfl, ?_⟩
  exact recorded_value c hrecord (isField_member hconnected hdebug) rfl nofun hinfo
    (by rw [hdriver]) (Or.inl (by rw [hdriver]))

/-- The branches that only record values. -/
theorem records_values (name : Bytes) {sub : Bytes} {elements : List (Bytes × Bytes)}
    (hconnected : sub ≠ bytes "connected") (hdebug : sub ≠ bytes "debug")
    (hnodup : (elements.map Prod.snd).Nodup) :
    NumberRecords name (newNumber_values sub elements) (valueReports sub elements) := by
  intro nvp c c' _ h
  obtain ⟨as, has, hstored, hdriver⟩ := newNumber_values_stored h
  exact ⟨as, has, recorded_of_valueReports hconnected hdebug hnodup has hstored hdriver⟩

theorem numberHandlers_record : List.Forall₂ (fun e f => e.1 = f.1 ∧ NumberRecords e.1 e.2 f.2)
    numberHandlers numberReports := by
  refine .cons ⟨rfl, records_CCD_EXPOSURE⟩ (.cons ⟨rfl, records_CCD_INFO⟩
    (.cons ⟨rfl, records_BINNING⟩ (.cons ⟨rfl, records_FRAME⟩ ?_)))
  refine .cons ⟨rfl, records_member _ (fun n c => { c with current_temperature := n })
    (fun _ _ => ⟨rfl, rfl⟩) (by decide) (by decide)⟩ ?_
  refine .cons ⟨rfl, records_member _ (fun n c => { c with gain := n })
    (fun _ _ => ⟨rfl, rfl⟩) (by decide) (by decide)⟩ ?_
  refine .cons ⟨rfl, records_member _ (fun n c => { c with offset := n })
    (fun _ _ => ⟨rfl, rfl⟩) (by decide) (by decide)⟩ ?_
  -- the others record their values one after the other
  iterate 5
    refine .cons ⟨rfl, records_values _ (by decide) (by decide) (by decide)⟩ ?_
  exact .nil

/-- `newNumber` makes the assignments that its event reports. -/
theorem newNumber_records (offs : Bool) {nvp : INumberVectorProperty}
    (hinfo : ∀ info, c.deref .ccdinfo_prop = some info → nvp.name = bytes "CCD_INFO" → info = nvp)
    (h : newNumber nvp c = some c') :
    ∃ as, reports offs (.newNumber nvp) = some as ∧ Recorded as c c' := by
  rcases KeyedList.find?_of_forall₂ numberHandlers_record nvp.name with
    ⟨hhandler, hreport⟩ | ⟨handler, report, hhandler, hreport, hrecords⟩
  · rw [newNumber, hhandler] at h
    obtain rfl : c = c' := Option.some.inj h
    exact ⟨[], by simp only [reports, hreport], recorded_nil rfl rfl (Or.inl rfl)⟩
  · rw [newNumber, hhandler] at h
    obtain ⟨as, has, hrecorded⟩ := hrecords nvp c c' hinfo h
    exact ⟨as, by simp only [reports, hreport, has], hrecorded⟩

/-! #### Switches -/

/-- A branch makes the assignments `as` of its report, or it is silent: then it makes none, and the
report was that something is false. -/
def Outcome (is_silent : Bool) (as : List Assignment) (c c' : INDICamera) : Prop :=
  (is_silent = false ∧ Recorded as c c') ∨
    (is_silent = true ∧ Recorded [] c c' ∧ (∀ a ∈ as, IsField a.1 ∧ leaves a = [a]) ∧
      ∀ q v, fieldValue as q = some v → v = .boolean false ∧
        (q = [bytes "exposure", bytes "abort"] ∨ q = [bytes "connected"] ∧ c.is_ready = false))

def SwitchRecords (name : Bytes) (handler : ISwitchVectorProperty → INDICamera → Option INDICamera)
    (report : ISwitchVectorProperty → Option (List Assignment)) : Prop :=
  ∀ svp c c', svp.name = name → handler svp c = some c' →
    ∃ as, report svp = some as ∧ Outcome (silent c.is_ready (.newSwitch svp)) as c c'

theorem fieldValue_value_eq_some {q : Path} {v : Json} {b : Bool}
    (h : fieldValue [(path, .boolean b)] q = some v) : q = path ∧ v = .boolean b := by
  simpa [leaves] using KeyedList.mem_of_find? h

theorem records_CONNECTION : SwitchRecords (bytes "CONNECTION") newSwitch_CONNECTION
    fun svp => some [([bytes "connected"], .boolean svp.connectOn)] := by
  intro svp c c' hname h
  simp only [newSwitch_CONNECTION, Option.bind_eq_bind, Option.bind_eq_some_iff] at h
  obtain ⟨sw, hsw, h⟩ := h
  have hon : svp.connectOn = decide (sw.s = .ISS_ON) := connectOn_of_find hsw
  have habort : (bytes "CONNECTION" = bytes "CCD_ABORT_EXPOSURE") = False := by
    rw [eq_iff_iff, iff_false]
    decide
  refine ⟨_, rfl, ?_⟩
  split_ifs at h with hs hready
  · -- the camera is connected
    refine Or.inl ⟨by simp [silent, hname, hon, hs, habort], ?_⟩
    rw [hon, decide_eq_true hs]
    exact recorded_value c h (Or.inl rfl) rfl nofun rfl rfl (Or.inl rfl)
  · refine Or.inl ⟨by simp [silent, hname, hready, habort], ?_⟩
    rw [hon, decide_eq_false hs]
    refine recorded_value c h (Or.inl rfl) rfl ?_ rfl rfl (Or.inr rfl)
    intro _
    exact ⟨by simp, fun _ => hready⟩
  · -- the flag is not set, and nothing is recorded
    obtain rfl : c = c' := Option.some.inj h
    have hnot : c.is_ready = false := by simpa using hready
    refine Or.inr ⟨by simp [silent, hname, hon, hs, hnot], recorded_nil rfl rfl (Or.inl rfl),
      by simp [leaves, IsField], ?_⟩
    intro q v hv
    obtain ⟨rfl, rfl⟩ := fieldValue_value_eq_some hv
    exact ⟨by rw [hon, decide_eq_false hs], Or.inr ⟨rfl, hnot⟩⟩

theorem records_CCD_ABORT_EXPOSURE (offs : Bool) :
    SwitchRecords (bytes "CCD_ABORT_EXPOSURE") newSwitch_CCD_ABORT_EXPOSURE fun svp =>
      if abortOn svp || offs then
        some [([bytes "exposure", bytes "abort"], .boolean (abortOn svp))]
      else some [] := by
  intro svp c c' hname h
  simp only [newSwitch_CCD_ABORT_EXPOSURE, Option.bind_eq_bind, Option.bind_eq_some_iff] at h
  obtain ⟨sw, hsw, h⟩ := h
  have hon : abortOn svp = decide (sw.s = .ISS_ON) := by rw [abortOn, hsw, Option.any_some]
  have hconnection : (bytes "CCD_ABORT_EXPOSURE" = bytes "CONNECTION") = False := by
    rw [eq_iff_iff, iff_false]
    decide
  have hfield : IsField [bytes "exposure", bytes "abort"] := isField_member (by decide) (by decide)
  split_ifs at h with hs
  · refine ⟨[([bytes "exposure", bytes "abort"], .boolean true)], by simp [hon, hs],
      Or.inl ⟨by simp [silent, hname, hon, hs, hconnection], ?_⟩⟩
    exact recorded_value c h hfield rfl nofun rfl rfl (Or.inl rfl)
  · obtain rfl : c = c' := Option.some.inj h
    have hsilent : silent c.is_ready (.newSwitch svp) = true := by simp [silent, hname, hon, hs]
    have hnothing : Recorded [] c c := recorded_nil rfl rfl (Or.inl rfl)
    cases offs with
    | false =>
      refine ⟨[], by simp [hon, hs], Or.inr ⟨hsilent, hnothing, by simp, ?_⟩⟩
      intro q v hv
      cases hv
    | true =>
      refine ⟨[([bytes "exposure", bytes "abort"], .boolean false)], by simp [hon, hs],
        Or.inr ⟨hsilent, hnothing, by simp [leaves, hfield], ?_⟩⟩
      intro q v hv
      obtain ⟨rfl, rfl⟩ := fieldValue_value_eq_some hv
      exact ⟨rfl, Or.inl rfl⟩

/-- Only the connection and the abort switch can be silent. -/
theorem switchRecords_of_recorded {name : Bytes}
    {handler : ISwitchVectorProperty → INDICamera → Option INDICamera}
    {report : ISwitchVectorProperty → Option (List Assignment)}
    (hconnection : name ≠ bytes "CONNECTION") (habort : name ≠ bytes "CCD_ABORT_EXPOSURE")
    (h : ∀ svp c c', handler svp c = some c' → ∃ as, report svp = some as ∧ Recorded as c c') :
    SwitchRecords name handler report := by
  intro svp c c' hname hhandler
  obtain ⟨as, has, hrecorded⟩ := h svp c c' hhandler
  exact ⟨as, has, Or.inl ⟨by simp [silent, hname, hconnection, habort], hrecorded⟩⟩

theorem recorded_DEBUG {svp : ISwitchVectorProperty} (h : newSwitch_DEBUG svp c = some c') :
    ∃ as, ((IUFindSwitch svp (bytes "ENABLE")).map fun sw =>
      [([bytes "debug"], Json.boolean (decide (sw.s = .ISS_ON)))]) = some as ∧ Recorded as c c' := by
  simp only [newSwitch_DEBUG, Option.bind_eq_bind, Option.bind_eq_some_iff] at h
  obtain ⟨sw, hsw, h⟩ := h
  refine ⟨[([bytes "debug"], .boolean (decide (sw.s = .ISS_ON)))],
    by rw [hsw, Option.map_some], ?_⟩
  refine recorded_value c h (Or.inr (Or.inl rfl)) rfl ?_ rfl rfl (Or.inl rfl)
  intro _
  exact ⟨by simp, fun hpath => absurd hpath (by decide)⟩

theorem recorded_choice {names : List (Bytes × Bytes)} {svp : ISwitchVectorProperty}
    (hpath : IsField path) (h : newSwitch_choice names path svp c = some c') :
    ∃ as, choiceReport names path svp = some as ∧ Recorded as c c' := by
  simp only [newSwitch_choice, Option.bind_eq_bind, Option.bind_eq_some_iff] at h
  obtain ⟨choice, hchoice, h⟩ := h
  refine ⟨[(path, .string (choice.getD []))], by rw [choiceReport, hchoice, Option.map_some], ?_⟩
  exact recorded_value c h hpath rfl nofun rfl rfl (Or.inl rfl)

theorem recorded_CCD_FAST_TOGGLE {svp : ISwitchVectorProperty}
    (h : newSwitch_CCD_FAST_TOGGLE svp c = some c') :
    ∃ as, ((firstOn svp [(bytes "INDI_ENABLED", true), (bytes "INDI_DISABLED", false)]).join.map
      fun mode => [([bytes "frame", bytes "fast_read"], Json.boolean mode)]) = some as ∧
      Recorded as c c' := by
  simp only [newSwitch_CCD_FAST_TOGGLE, Option.bind_eq_bind, Option.bind_eq_some_iff] at h
  obtain ⟨choice, hchoice, mode, rfl, h⟩ := h
  refine ⟨[([bytes "frame", bytes "fast_read"], .boolean mode)],
    by rw [hchoice, Option.join_some, Option.map_some], ?_⟩
  refine recorded_value c h (isField_member (by decide) (by decide)) rfl ?_ rfl rfl (Or.inl rfl)
  intro _
  exact ⟨by decide, fun hpath => absurd hpath (by decide)⟩

theorem recorded_CCD_VIDEO_STREAM {svp : ISwitchVectorProperty}
    (h : newSwitch_CCD_VIDEO_STREAM svp c = some c') :
    ∃ as, ((firstOn svp [(bytes "STREAM_ON", true), (bytes "STREAM_OFF", false)]).map fun choice =>
      (choice.map fun on => ([bytes "video", bytes "is_video"], Json.boolean on)).toList) =
        some as ∧ Recorded as c c' := by
  simp only [newSwitch_CCD_VIDEO_STREAM, Option.bind_eq_bind, Option.bind_eq_some_iff] at h
  obtain ⟨choice, hchoice, h⟩ := h
  cases choice with
  | none =>
    obtain rfl : c = c' := Option.some.inj h
    exact ⟨[], by rw [hchoice]; rfl, recorded_nil rfl rfl (Or.inl rfl)⟩
  | some on =>
    refine ⟨[([bytes "video", bytes "is_video"], .boolean on)], by rw [hchoice]; rfl, ?_⟩
    refine recorded_value c h (isField_member (by decide) (by decide)) rfl ?_ rfl rfl (Or.inl rfl)
    intro _
    exact ⟨by decide, fun hpath => absurd hpath (by decide)⟩

theorem switchHandlers_record (offs : Bool) :
    List.Forall₂ (fun e f => e.1 = f.1 ∧ SwitchRecords e.1 e.2 f.2) switchHandlers
      (switchReports offs) := by
  have hchoice {name : Bytes} {names : List (Bytes × Bytes)} {sub key : Bytes}
      (hconnection : name ≠ bytes "CONNECTION") (habort : name ≠ bytes "CCD_ABORT_EXPOSURE")
      (hconnected : sub ≠ bytes "connected") (hdebug : sub ≠ bytes "debug") :
      SwitchRecords name (newSwitch_choice names [sub, key]) (choiceReport names [sub, key]) :=
    switchRecords_of_recorded hconnection habort fun _ _ _ =>
      recorded_choice (isField_member hconnected hdebug)
  refine .cons ⟨rfl, records_CONNECTION⟩ (.cons ⟨rfl, ?_⟩ (.cons ⟨rfl, ?_⟩ (.cons ⟨rfl, ?_⟩
    (.cons ⟨rfl, records_CCD_ABORT_EXPOSURE offs⟩ (.cons ⟨rfl, ?_⟩ (.cons ⟨rfl, ?_⟩
      (.cons ⟨rfl, ?_⟩ (.cons ⟨rfl, ?_⟩ .nil))))))))
  · exact switchRecords_of_recorded (by decide) (by decide) fun _ _ _ => recorded_DEBUG
  · exact hchoice (by decide) (by decide) (by decide) (by decide)
  · exact hchoice (by decide) (by decide) (by decide) (by decide)
  · exact hchoice (by decide) (by decide) (by decide) (by decide)
  · exact switchRecords_of_recorded (by decide) (by decide) fun _ _ _ => recorded_CCD_FAST_TOGGLE
  · exact switchRecords_of_recorded (by decide) (by decide) fun _ _ _ => recorded_CCD_VIDEO_STREAM
  · apply switchRecords_of_recorded (by decide) (by decide)
    intro svp c c' h
    obtain rfl : c = c' := Option.some.inj h
    exact ⟨[], rfl, recorded_nil rfl rfl (Or.inl rfl)⟩

/-- `newSwitch` makes the assignments that its event reports, or it is silent. -/
theorem newSwitch_records (offs : Bool) {svp : ISwitchVectorProperty}
    (h : newSwitch svp c = some c') : ∃ as, reports offs (.newSwitch svp) = some as ∧
      Outcome (silent c.is_ready (.newSwitch svp)) as c c' := by
  rcases KeyedList.find?_of_forall₂ (switchHandlers_record offs) svp.name with
    ⟨hhandler, hreport⟩ | ⟨handler, report, hhandler, hreport, hrecords⟩
  · rw [newSwitch, hhandler] at h
    obtain rfl : c = c' := Option.some.inj h
    have hname (name : Bytes) (hmem : name ∈ switchHandlers.map Prod.fst) : svp.name ≠ name := by
      rintro rfl
      rw [← KeyedList.find?_isSome_iff, hhandler] at hmem
      exact Bool.false_ne_true hmem
    have hconnection : svp.name ≠ bytes "CONNECTION" := hname _ (by decide)
    have habort : svp.name ≠ bytes "CCD_ABORT_EXPOSURE" := hname _ (by decide)
    refine ⟨[], by simp only [reports, hreport], Or.inl ⟨?_, recorded_nil rfl rfl (Or.inl rfl)⟩⟩
    simp [silent, hconnection, habort]
  · rw [newSwitch, hhandler] at h
    obtain ⟨as, has, houtcome⟩ := hrecords svp c c' rfl h
    exact ⟨as, by simp only [reports, hreport, has], houtcome⟩

end Records

end INDICamera

end OpenAPT
