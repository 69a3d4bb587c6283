import Courier.Utf8

/-!
What can go wrong between two ends of the wire.

A `WireError` is a refusal that the caller is told about and can go on after; `WireError.message` is its text. A
`Fault` is what ends an operation early: a refusal, or a `panic`, the stop of a program that was about to act outside
its own bounds. No message follows a panic.
-/

namespace Courier

/-- the refusals of this library, one constructor a cause -/
inductive WireError where
  | invalidLength (kind : String) (len : Int)
  | unsupportedType (tag : UInt8)
  | typeMismatch (expected found : String)
  | unknownMessageType (type : Int16)
  | capacityOverflow (required : Nat)
  | bufferUnderflow (position needed limit : Nat)
  | malformedVarint
  | invalidUtf8 (flaw : Utf8.Flaw)
  | frameNotFinalized
  | writeSuspended (depth : Nat)
  | suspendedInCollection (type : Int16)
  | registration (text : String)
  | config
  | packEncode
  | packDecode
  deriving DecidableEq

/-- the text of a refusal -/
def WireError.message : WireError → String
  | .invalidLength kind len => "Read invalid " ++ kind ++ " length: " ++ toString len
  | .unsupportedType tag => "Unsupported item type tag: " ++ toString tag.toNat
  | .typeMismatch expected found => "Type mismatch: expected " ++ expected ++ ", found " ++ found
  | .unknownMessageType type => "Unknown message type: " ++ toString type.toInt
  | .capacityOverflow required => "Buffer capacity overflow: " ++ toString required ++ " bytes required"
  | .bufferUnderflow position needed limit =>
    "Buffer underflow: need " ++ toString needed ++ " bytes at position " ++ toString position
      ++ ", limit is " ++ toString limit
  | .malformedVarint => "Malformed varint: too many continuation bytes"
  | .invalidUtf8 flaw => "Invalid UTF-8 string: " ++ flaw.message
  | .frameNotFinalized => "Frame is not finalized"
  | .writeSuspended depth =>
    "Write suspended at depth " ++ toString depth ++ ", finish or reset it before reading"
  | .suspendedInCollection type =>
    "Message of type " ++ toString type.toInt ++ " suspended inside a collection"
  | .registration text => "Registration error: " ++ text
  | .config => "Config error"
  | .packEncode => "MsgPack encode error"
  | .packDecode => "MsgPack decode error"

/-- what ends an operation before its result -/
inductive Fault where
  | error (e : WireError)
  | panic
  deriving DecidableEq

end Courier
