import Courier.Error

/-!
The kinds of item that a container declares for its elements.

Tags are stable and may be stored. From tag 8 on an item may be absent. `minEncodedLength` is the least number of
bytes that an item of a kind takes.
-/

namespace Courier

inductive ItemType where
  | byte
  | short
  | int
  | long
  | float
  | double
  | char
  | boolean
  | byteArray
  | shortArray
  | intArray
  | longArray
  | floatArray
  | doubleArray
  | charArray
  | booleanArray
  | string
  | bitSet
  | uuid
  | extendedUuid
  | message
  deriving DecidableEq

namespace ItemType

/-- all kinds, in the order of their tags -/
def all : List ItemType :=
  [.byte, .short, .int, .long, .float, .double, .char, .boolean, .byteArray, .shortArray, .intArray, .longArray,
    .floatArray, .doubleArray, .charArray, .booleanArray, .string, .bitSet, .uuid, .extendedUuid, .message]

def tag : ItemType → UInt8
  | .byte => 0
  | .short => 1
  | .int => 2
  | .long => 3
  | .float => 4
  | .double => 5
  | .char => 6
  | .boolean => 7
  | .byteArray => 8
  | .shortArray => 9
  | .intArray => 10
  | .longArray => 11
  | .floatArray => 12
  | .doubleArray => 13
  | .charArray => 14
  | .booleanArray => 15
  | .string => 16
  | .bitSet => 17
  | .uuid => 18
  | .extendedUuid => 19
  | .message => 20

def name : ItemType → String
  | .byte => "byte"
  | .short => "short"
  | .int => "int"
  | .long => "long"
  | .float => "float"
  | .double => "double"
  | .char => "char"
  | .boolean => "boolean"
  | .byteArray => "byte array"
  | .shortArray => "short array"
  | .intArray => "int array"
  | .longArray => "long array"
  | .floatArray => "float array"
  | .doubleArray => "double array"
  | .charArray => "char array"
  | .booleanArray => "boolean array"
  | .string => "string"
  | .bitSet => "bit set"
  | .uuid => "uuid"
  | .extendedUuid => "extended uuid"
  | .message => "message"

/-- least number of bytes of an item -/
def minEncodedLength : ItemType → Nat
  | .byte | .boolean | .int | .long | .uuid | .extendedUuid => 1
  | .short | .char | .message => 2
  | .float => 4
  | .double => 8
  | _ => 4

/-- whether an item of this kind may be absent -/
def isNullable (t : ItemType) : Bool :=
  ItemType.byteArray.tag ≤ t.tag

/-- the kind with this tag -/
def ofTag (n : UInt8) : Except WireError ItemType :=
  match all[n.toNat]? with
  | some t => .ok t
  | none => .error (.unsupportedType n)

theorem ofTag_tag (t : ItemType) : ofTag t.tag = .ok t := by
  cases t <;> rfl

end ItemType

end Courier
