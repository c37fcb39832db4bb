import OpenAPT.Bytes

/-! `OpenAPT::Property::IMessage`. -/
namespace OpenAPT

/-- What a `std::any` holds: a value of one of the types `IMessage` asks for, or of another type. -/
inductive StdAny
  | unset
  | int (i : Int32)
  | double (bits : UInt64)
  | bool (b : Bool)
  | string (s : Bytes)
  | other (type : Bytes)
  deriving DecidableEq

structure IMessage where
  device_name : Bytes
  device_uuid : Bytes
  message_uuid : Bytes
  name : Bytes
  value : StdAny
  deriving DecidableEq

end OpenAPT
