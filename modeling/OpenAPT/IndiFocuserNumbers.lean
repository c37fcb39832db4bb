import OpenAPT.IndiFocuser

/-! The number properties that `INDIFocuser::newProperty` dispatches on. All of them are read at the
element of the absolute position. -/
namespace OpenAPT

/-- A number property of the dispatch that has a member for its value. -/
inductive FocuserNumber
  | FOCUS_SPEED
  | ABS_FOCUS_POSITION
  | DELAY
  | FOCUS_TEMPERATURE
  | FOCUS_MAX
  deriving DecidableEq

/-- The value of such a member, the one of a `double` as its bits. -/
inductive FocuserValue
  | double (bits : UInt64)
  | int (n : Int32)
  deriving DecidableEq

namespace FocuserNumber

def name : FocuserNumber → Bytes
  | FOCUS_SPEED => bytes "FOCUS_SPEED"
  | ABS_FOCUS_POSITION => bytes "ABS_FOCUS_POSITION"
  | DELAY => bytes "DELAY"
  | FOCUS_TEMPERATURE => bytes "FOCUS_TEMPERATURE"
  | FOCUS_MAX => bytes "FOCUS_MAX"

def pointer : FocuserNumber → FocuserPointer
  | FOCUS_SPEED => .speed_prop
  | ABS_FOCUS_POSITION => .absolute_position_prop
  | DELAY => .delay_prop
  | FOCUS_TEMPERATURE => .temperature_prop
  | FOCUS_MAX => .max_position_prop

def field (n : FocuserNumber) (f : INDIFocuser) : FocuserValue :=
  match n with
  | FOCUS_SPEED => .double f.current_speed
  | ABS_FOCUS_POSITION => .int f.current_position
  | DELAY => .int f.delay
  | FOCUS_TEMPERATURE => .double f.current_temperature
  | FOCUS_MAX => .int f.max_position

/-- A `double` assigned to the member. An `int` takes only what is in its range. -/
def assigned (n : FocuserNumber) (bits : UInt64) : Option FocuserValue :=
  match n with
  | FOCUS_SPEED | FOCUS_TEMPERATURE => some (.double bits)
  | ABS_FOCUS_POSITION | DELAY | FOCUS_MAX => (toInt32 bits).map .int

/-- The state holds the vector `name` and the value `bits` for the property. -/
def Holds (n : FocuserNumber) (name : Bytes) (bits : UInt64) (f : INDIFocuser) : Prop :=
  f.pointer n.pointer = some name ∧ n.assigned bits = some (n.field f)

/-- If the vector has the element, `newProperty` is defined, and stores the vector and the value of
the element. -/
def Records (n : FocuserNumber) (nvp : INumberVectorProperty) (element : Bytes)
    (f : INDIFocuser) : Prop :=
  ∀ bits, numberValue nvp element = some bits →
    ∃ f', f.newProperty (.INDI_NUMBER nvp) = some f' ∧ n.Holds nvp.name bits f'

/-- The vector also has an element of the absolute position, which is worth the same to the member,
or it has none and the state holds the value of its own element already. -/
def SameValue (n : FocuserNumber) (nvp : INumberVectorProperty) (element : Bytes)
    (f : INDIFocuser) : Prop :=
  ∀ bits, numberValue nvp element = some bits →
    match numberValue nvp (bytes "FOCUS_ABSOLUTE_POSITION") with
    | some x => (n.assigned x).isSome ∧ n.assigned x = n.assigned bits
    | none => n.Holds nvp.name bits f

end FocuserNumber

namespace INDIFocuser

open FocuserNumber

variable {n : FocuserNumber} {nvp : INumberVectorProperty} {f : INDIFocuser}

theorem newProperty_of_name (hname : nvp.name = indi_focuser_cmd ++ n.name) :
    f.newProperty (.INDI_NUMBER nvp) = newProperty_number nvp f := by
  refine if_neg ?_
  show nvp.name ≠ []
  rw [hname]
  cases n <;> decide

/-- Without an element of the absolute position nothing happens. -/
theorem newProperty_number_none
    (h : numberValue nvp (bytes "FOCUS_ABSOLUTE_POSITION") = none) :
    newProperty_number nvp f = some f := by
  simp only [newProperty_number, h]

/-- The member gets the value of the absolute position. -/
theorem newProperty_number_some (hname : nvp.name = indi_focuser_cmd ++ n.name) {x : UInt64}
    (h : numberValue nvp (bytes "FOCUS_ABSOLUTE_POSITION") = some x) :
    (∀ value, n.assigned x = some value → ∃ f', newProperty_number nvp f = some f' ∧
      f'.pointer n.pointer = some nvp.name ∧ n.field f' = value) ∧
    (n.assigned x = none → newProperty_number nvp f = none) := by
  have hpoint (p : FocuserPointer) (name : Bytes) : (f.point p name).pointer p = some name := by
    show Function.update f.pointer p (some name) p = some name
    rw [Function.update_self]
  unfold newProperty_number
  rw [h, hname]
  cases n with
  | FOCUS_SPEED | FOCUS_TEMPERATURE =>
    refine ⟨fun value hvalue => ?_, nofun⟩
    obtain rfl := Option.some.inj hvalue
    exact ⟨_, rfl, hpoint _ _, rfl⟩
  | ABS_FOCUS_POSITION | DELAY | FOCUS_MAX =>
    refine ⟨fun value hvalue => ?_, fun hnone => ?_⟩
    · obtain ⟨i, hi, rfl⟩ := Option.map_eq_some_iff.mp hvalue
      exact ⟨_, congrArg (Option.bind · _) hi, hpoint _ _, rfl⟩
    · exact congrArg (Option.bind · _) (Option.map_eq_none_iff.mp hnone)

/-- An own element is recorded exactly if the vector has the absolute position with the same value
besides, or if it has none and all is recorded already. -/
theorem records_iff (n : FocuserNumber) (nvp : INumberVectorProperty) (element : Bytes)
    (f : INDIFocuser) (hname : nvp.name = indi_focuser_cmd ++ n.name) :
    n.Records nvp element f ↔ n.SameValue nvp element f := by
  unfold Records SameValue
  rw [newProperty_of_name hname]
  refine forall₂_congr fun bits _ => ?_
  cases hposition : numberValue nvp (bytes "FOCUS_ABSOLUTE_POSITION") with
  | none =>
    -- the state is left as it is
    rw [newProperty_number_none hposition]
    constructor
    · rintro ⟨f', hf', hholds⟩
      obtain rfl := Option.some.inj hf'
      exact hholds
    · intro hholds
      exact ⟨f, rfl, hholds⟩
  | some x =>
    -- what is stored is the absolute position and not the element
    obtain ⟨hstored, hundefined⟩ := newProperty_number_some (f := f) hname hposition
    dsimp only
    cases hassigned : n.assigned x with
    | none =>
      rw [hundefined hassigned]
      exact iff_of_false nofun fun h => Bool.noConfusion h.1
    | some value =>
      obtain ⟨f', hf', hpointer, rfl⟩ := hstored value hassigned
      rw [hf']
      constructor
      · rintro ⟨f'', hf'', -, hvalue⟩
        obtain rfl := Option.some.inj hf''
        exact ⟨rfl, hvalue.symm⟩
      · rintro ⟨-, hvalue⟩
        exact ⟨f', rfl, hpointer, hvalue.symm⟩

/-- The property of the speed, with the value `3`. -/
def focusSpeed : INumberVectorProperty :=
  ⟨bytes "FOCUS_SPEED", [⟨bytes "FOCUS_SPEED_VALUE", 0x4008000000000000⟩]⟩

theorem records_focusSpeed :
    FOCUS_SPEED.Records focusSpeed (bytes "FOCUS_SPEED_VALUE") unset ↔
      FOCUS_SPEED.SameValue focusSpeed (bytes "FOCUS_SPEED_VALUE") unset :=
  records_iff FOCUS_SPEED focusSpeed (bytes "FOCUS_SPEED_VALUE") unset rfl

/-- The speed is not even remembered as a property. -/
theorem not_records_focusSpeed :
    focusSpeed.name = indi_focuser_cmd ++ FOCUS_SPEED.name ∧
      ¬FOCUS_SPEED.Records focusSpeed (bytes "FOCUS_SPEED_VALUE") unset := by
  refine ⟨rfl, fun h => ?_⟩
  obtain ⟨f', hf', hpointer, -⟩ := h 0x4008000000000000 rfl
  have hsame : unset.newProperty (.INDI_NUMBER focusSpeed) = some unset := rfl
  obtain rfl := Option.some.inj (hsame.symm.trans hf')
  cases hpointer

end INDIFocuser

end OpenAPT
