import Courier.Blueprint
import Courier.Config
import Courier.Frame
import Courier.Nesting

/-!
A read session: typed data come out of the window of a frame.

No read looks past the limit. A length off the wire is checked against the bytes that are left and against the largest
length of the session before anything is taken on its word. A read that is refused for want of bytes leaves the
position alone, except that the four bytes of a length stay consumed.

An opaque object is decoded behind a narrowed limit, and whatever its decoder did, the session goes on right behind
the object.
-/

namespace Courier

structure Reader where
  frame : Frame
  nesting : Nesting
  factory : Factory
  order : ByteOrder
  maxLength : Nat

/-- what a session does; a refusal keeps what was done before it -/
abbrev Reading := EStateM Fault Reader

namespace Reader

/-- current offset in the frame -/
def position (r : Reader) : Nat :=
  r.frame.position

/-- bytes left before the limit -/
def remaining (r : Reader) : Nat :=
  r.frame.remaining

def depth (r : Reader) : Nat :=
  r.nesting.depth

def onNesting (r : Reader) (f : Nesting → Nesting) : Reader :=
  { r with nesting := f r.nesting }

def refuse {α : Type} (e : WireError) : Reading α :=
  throw (.error e)

def ofExcept {α : Type} : Except WireError α → Reading α
  | .ok a => pure a
  | .error e => refuse e

/-- consumes `n` bytes -/
def take (n : Nat) : Reading Bytes := fun r =>
  if r.frame.available < n then .error (.error (r.frame.underflow n)) r
  else match r.frame.slice? n with
    | some bs => .ok bs { r with frame := r.frame.setPosition (r.position + n) }
    | none => .error .panic r

/-- a number of fixed width -/
def takeFixed (α : Type) [Fixed α] : Reading α := do
  let bs ← take (Fixed.size α)
  let r ← get
  match Fixed.readFixed bs r.order.swap with
  | some v => return v
  | none => throw .panic

/-- a length, checked to leave room for that many elements of `elementSize` bytes each -/
def readLength (kind : String) (elementSize : Nat) : Reading (Option Nat) := do
  let raw ← takeFixed Int32
  match ← ofExcept (decodeLength kind raw) with
  | none => return none
  | some len =>
    let r ← get
    if r.maxLength < len then refuse (.invalidLength kind len)
    else if r.remaining < len * elementSize then refuse (r.frame.underflow (len * elementSize))
    else return some len

/-- numbers of fixed width, their count in front -/
def takeArray (α : Type) [Fixed α] : Reading (Option (List α)) := do
  match ← readLength (Fixed.name α) (Fixed.size α) with
  | none => return none
  | some len =>
    let bs ← take (len * Fixed.size α)
    let r ← get
    match Fixed.decodeSlice bs len r.order.swap with
    | some vs => return some vs
    | none => throw .panic

/-- a read of the frame itself -/
def onFrame {α : Type} (read : Frame → Except WireError (α × Frame)) : Reading α := fun r =>
  match read r.frame with
  | .ok (a, frame) => .ok a { r with frame := frame }
  | .error e => .error (.error e) r

/-! ## Scalars -/

def readByte : Reading UInt8 :=
  onFrame Frame.readByte

def readInt : Reading Int32 :=
  onFrame Frame.readInt

def readLong : Reading Int64 :=
  onFrame Frame.readLong

def readShort : Reading Int16 :=
  takeFixed Int16

def readIntFixed : Reading Int32 :=
  takeFixed Int32

def readLongFixed : Reading Int64 :=
  takeFixed Int64

def readFloat : Reading Single :=
  takeFixed Single

def readDouble : Reading Double :=
  takeFixed Double

def readChar : Reading UInt16 :=
  takeFixed UInt16

/-- any byte but zero is true -/
def readBoolean : Reading Bool := do
  return (← readByte) != 0

/-! ## Arrays and composites -/

def readByteArray : Reading (Option Bytes) := do
  match ← readLength "byte array" 1 with
  | none => return none
  | some len => return some (← take len)

def readBooleanArray : Reading (Option (List Bool)) := do
  match ← readLength "boolean array" 1 with
  | none => return none
  | some len =>
    match decodeBools (← take len) len with
    | some vs => return some vs
    | none => throw .panic

def readString : Reading (Option String) := do
  match ← readLength "string" 1 with
  | none => return none
  | some len =>
    let bs ← take len
    match Utf8.decode? bs with
    | some s => return some s
    | none => refuse (.invalidUtf8 ((Utf8.flaw? bs).getD ⟨bs.length, none⟩))

def readBitSet : Reading (Option BitSet) := do
  match ← takeArray UInt64 with
  | none => return none
  | some ws => return some (.ofWords ws)

/-- the two halves of an identifier -/
def readHalves : Reading Uuid := do
  let most ← readLong
  let least ← readLong
  return ⟨most.toUInt64, least.toUInt64⟩

def readUuid : Reading (Option Uuid) := do
  if ← readBoolean then return none
  else return some (← readHalves)

def readExtendedUuid : Reading (Option ExtendedUuid) := do
  if ← readBoolean then return none
  else
    let globalId ← readHalves
    return some ⟨globalId, ← readLong⟩

/-- a datum of the given kind, or nothing where it is absent; a message is no datum -/
def readDatum : ItemType → Reading (Option Datum)
  | .byte => return some (.byte (← readByte))
  | .short => return some (.short (← readShort))
  | .int => return some (.int (← readInt))
  | .long => return some (.long (← readLong))
  | .float => return some (.float (← readFloat))
  | .double => return some (.double (← readDouble))
  | .char => return some (.char (← readChar))
  | .boolean => return some (.boolean (← readBoolean))
  | .byteArray => return (← readByteArray).map .byteArray
  | .shortArray => return (← takeArray Int16).map .shortArray
  | .intArray => return (← takeArray Int32).map .intArray
  | .longArray => return (← takeArray Int64).map .longArray
  | .floatArray => return (← takeArray Single).map .floatArray
  | .doubleArray => return (← takeArray Double).map .doubleArray
  | .charArray => return (← takeArray UInt16).map .charArray
  | .booleanArray => return (← readBooleanArray).map .booleanArray
  | .string => return (← readString).map .string
  | .bitSet => return (← readBitSet).map .bitSet
  | .uuid => return (← readUuid).map .uuid
  | .extendedUuid => return (← readExtendedUuid).map .extendedUuid
  | .message => return none

/-! ## Opaque objects -/

/-- up to `n` bytes, as many as the window shows -/
def readUpTo (n : Nat) : Reading Bytes := fun r =>
  let bs := r.frame.peek n
  .ok bs { r with frame := r.frame.setPosition (r.position + bs.length) }

/-- a decoder fed from the window; nothing where it fails -/
def drive {α : Type} : Decoder α → Reading (Option α)
  | .done a => return some a
  | .fail => return none
  | .read n next => fun r =>
    match readUpTo n r with
    | .ok bs r => drive (next bs) r
    | .error f r => .error f r

/-- the window up to `limit`, which has to lie within the data -/
def setLimit (limit : Nat) : Reading Unit := fun r =>
  match r.frame.setLimit limit with
  | some frame => .ok () { r with frame := frame }
  | none => .error .panic r

def setPosition (n : Nat) : Reading Unit :=
  modify fun r => { r with frame := r.frame.setPosition n }

/-- an object with its size in front, read by the given decoder -/
def readObjectWith {α : Type} (d : Decoder α) : Reading α := do
  match ← readLength "object" 1 with
  | none => refuse (.invalidLength "object" (-1))
  | some size =>
    let r ← get
    let stop := r.position + size
    setLimit stop
    let result ← drive d
    setLimit r.frame.limit
    setPosition stop
    match result with
    | some a => return a
    | none => refuse .packDecode

def readObject (shape : Pack.Shape) : Reading Pack :=
  readObjectWith (Pack.decoder shape)

/-- how a session is told -/
def debugText (r : Reader) : String :=
  "MessageReader \x7b position: " ++ toString r.position ++ ", limit: " ++ toString r.frame.limit
    ++ ", depth: " ++ toString r.depth ++ ", swap: " ++ toString r.order.swap ++ ", .. \x7d"

end Reader

end Courier
