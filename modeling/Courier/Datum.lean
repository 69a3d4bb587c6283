import Courier.BitSet
import Courier.Fixed
import Courier.ItemType

/-!
Plain data: every kind of item that holds no message.

A `Datum` carries its kind with it. Floats are equal when their bits are, so that equality agrees with hashing and
with what travels.
-/

namespace Courier

/-- a 128-bit identifier, as its two halves -/
structure Uuid where
  most : UInt64
  least : UInt64
  deriving DecidableEq

/-- an identifier with a local number -/
structure ExtendedUuid where
  globalId : Uuid
  localId : Int64
  deriving DecidableEq

inductive Datum where
  | byte (v : UInt8)
  | short (v : Int16)
  | int (v : Int32)
  | long (v : Int64)
  | float (v : Single)
  | double (v : Double)
  | char (v : UInt16)
  | boolean (v : Bool)
  | byteArray (vs : Bytes)
  | shortArray (vs : List Int16)
  | intArray (vs : List Int32)
  | longArray (vs : List Int64)
  | floatArray (vs : List Single)
  | doubleArray (vs : List Double)
  | charArray (vs : List UInt16)
  | booleanArray (vs : List Bool)
  | string (v : String)
  | bitSet (v : BitSet)
  | uuid (v : Uuid)
  | extendedUuid (v : ExtendedUuid)
  deriving DecidableEq

namespace Datum

/-- the kind of a datum -/
def itemType : Datum → ItemType
  | .byte _ => .byte
  | .short _ => .short
  | .int _ => .int
  | .long _ => .long
  | .float _ => .float
  | .double _ => .double
  | .char _ => .char
  | .boolean _ => .boolean
  | .byteArray _ => .byteArray
  | .shortArray _ => .shortArray
  | .intArray _ => .intArray
  | .longArray _ => .longArray
  | .floatArray _ => .floatArray
  | .doubleArray _ => .doubleArray
  | .charArray _ => .charArray
  | .booleanArray _ => .booleanArray
  | .string _ => .string
  | .bitSet _ => .bitSet
  | .uuid _ => .uuid
  | .extendedUuid _ => .extendedUuid

/-- the number that a datum of an integral kind is -/
def toInt? : Datum → Option Int
  | .byte v => some v.toNat
  | .short v => some v.toInt
  | .int v => some v.toInt
  | .long v => some v.toInt
  | .char v => some v.toNat
  | _ => none

/-- the text that a datum is -/
def text? : Datum → Option String
  | .string s => some s
  | _ => none

end Datum

end Courier
