import Courier.Error

/-!
The sizes and markers that every message shares, and the rules for lengths.

A length travels as a signed 32-bit number: `-1` marks an absent value, any other negative number is refused. A
buffer that has to hold `n` bytes grows to the next power of two, and never beyond `maxBufferSize`.
-/

namespace Courier

/-- length that marks an absent array or collection -/
def nullLength : Int32 := -1

/-- direct type that marks an absent message -/
def nullMessageType : Int16 := -32768

/-- bytes of a direct type -/
def directTypeSize : Nat := 2

/-- bytes of a length or a count -/
def lengthPrefixSize : Nat := 4

/-- most bytes that a varint of 32 bits takes -/
def maxVarint32 : Nat := 5

/-- most bytes that a varint of 64 bits takes -/
def maxVarint64 : Nat := 10

/-- scratch bytes that a write session starts with unless told otherwise -/
def defaultBufferSize : Nat := 4096

/-- nesting levels that are allocated up front unless told otherwise -/
def defaultStateDepth : Nat := 16

/-- size up to which a scratch buffer is kept for the next session unless told otherwise -/
def defaultMaxCachedBuffer : Nat := 16777216

/-- largest size of a scratch buffer -/
def maxBufferSize : Nat := 2147483647

/-- largest number of the machine that sizes and positions are kept in -/
def maxSize : Nat := 18446744073709551615

/-- the least power of two that is at least `n` -/
def powerOfTwoFrom (n : Nat) : Nat :=
  if n ≤ 1 then 1 else 1 <<< ((n - 1).log2 + 1)

/-- the size that a buffer grows to when `required` bytes have to fit -/
def capacityFor (required : Nat) : Except WireError Nat :=
  if required ≤ maxBufferSize then .ok (min (powerOfTwoFrom required) maxBufferSize)
  else .error (.capacityOverflow (min required maxSize))

/-- what a length off the wire says: absent, or that many elements of `kind` -/
def decodeLength (kind : String) (len : Int32) : Except WireError (Option Nat) :=
  if len = nullLength then .ok none
  else if len < 0 then .error (.invalidLength kind len.toInt)
  else .ok (some len.toInt.toNat)

/-- a length as it travels -/
def encodeLength (len : Nat) : Except WireError Int32 :=
  if len ≤ 2147483647 then .ok (Int32.ofNat len) else .error (.capacityOverflow len)

/-- the order in which the bytes of a fixed-width number travel -/
inductive ByteOrder where
  | little
  | big
  deriving DecidableEq

/-- whether numbers are turned end for end on their way: those of memory start with the lowest byte -/
def ByteOrder.swap : ByteOrder → Bool
  | .little => false
  | .big => true

end Courier
