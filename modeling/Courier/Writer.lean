import Courier.Config
import Courier.Frame
import Courier.Message
import Courier.Nesting
import Courier.Scratch

/-!
A write session: typed data go into a scratch buffer that grows.

The session writes at the position of its frame, into a scratch buffer. Room is made before anything is written: where
the bytes do not fit, the buffer grows to the next power of two that holds them, new bytes being zero. Every refusal
marks the session failed. A session that writes outside its buffer would stop; that never happens, because room is made
first.

Whole numbers of the varint kinds ask for the room of the longest form and take what they need. Texts and arrays have
their length in front, an absent one only the length `-1`; an absent identifier is the byte one.
-/

namespace Courier

structure Writer where
  frame : Frame
  scratch : Scratch
  nesting : Nesting
  order : ByteOrder
  failed : Bool

/-- what a session does; a refusal keeps what was done before it -/
abbrev Writing := EStateM Fault Writer

namespace Writer

/-- bytes written so far -/
def position (w : Writer) : Nat :=
  w.frame.position

def capacity (w : Writer) : Nat :=
  w.scratch.capacity

/-- marks the session failed and refuses -/
def refuse {α : Type} (e : WireError) : Writing α :=
  fun w => .error (.error e) { w with failed := true }

/-- the result, or its refusal, which marks the session failed -/
def ofExcept {α : Type} : Except WireError α → Writing α
  | .ok a => pure a
  | .error e => refuse e

/-- makes room for `n` more bytes and answers where they go -/
def reserve (n : Nat) : Writing Nat := fun w =>
  if w.position + n ≤ w.capacity then .ok w.position w
  else match capacityFor (w.position + n) with
    | .ok size => .ok w.position { w with scratch := w.scratch.enlarge size }
    | .error e => refuse e w

/-- writes `bs` over the scratch buffer from `off` on -/
def splice (off : Nat) (bs : Bytes) : Writing Unit := fun w =>
  if off + bs.length ≤ w.capacity then .ok () { w with scratch := w.scratch.overwrite off bs }
  else .error .panic w

/-- moves the position -/
def advance (n : Nat) : Writing Unit := fun w =>
  .ok () { w with frame := w.frame.setPosition (w.position + n) }

/-- makes room for `room` bytes, writes `bs` and moves behind them -/
def put (room : Nat) (bs : Bytes) : Writing Unit := do
  let off ← reserve room
  splice off bs
  advance bs.length

/-- bytes as they are -/
def putBytes (bs : Bytes) : Writing Unit :=
  put bs.length bs

/-- a number of fixed width -/
def putFixed {α : Type} [Fixed α] (v : α) : Writing Unit := do
  let w ← get
  put (Fixed.size α) (Fixed.bytes w.order.swap v)

/-- a length or a count -/
def putLength (n : Nat) : Writing Unit := do
  let len ← ofExcept (encodeLength n)
  putFixed len

/-- the length of what is absent -/
def putAbsentLength : Writing Unit :=
  putFixed nullLength

/-- numbers of fixed width, their count in front -/
def putArray {α : Type} [Fixed α] (vs : List α) : Writing Unit := do
  putLength vs.length
  let w ← get
  put (vs.length * Fixed.size α) (Fixed.run w.order.swap vs)

/-! ## Scalars -/

def writeByte (v : UInt8) : Writing Unit :=
  putBytes [v]

def writeShort (v : Int16) : Writing Unit :=
  putFixed v

def writeInt (v : Int32) : Writing Unit :=
  put maxVarint32 (Varint.encode32 v)

def writeLong (v : Int64) : Writing Unit :=
  put maxVarint64 (Varint.encode64 v)

def writeIntFixed (v : Int32) : Writing Unit :=
  putFixed v

def writeLongFixed (v : Int64) : Writing Unit :=
  putFixed v

def writeFloat (v : Single) : Writing Unit :=
  putFixed v

def writeDouble (v : Double) : Writing Unit :=
  putFixed v

def writeChar (v : UInt16) : Writing Unit :=
  putFixed v

def writeBoolean (v : Bool) : Writing Unit :=
  writeByte (if v then 1 else 0)

/-- the direct type in front of a message -/
def writeHeader (type : Int16) : Writing Unit :=
  writeShort type

/-! ## Arrays and composites -/

def writeByteArray (vs : Bytes) : Writing Unit := do
  putLength vs.length
  putBytes vs

/-- `len` bytes of `vs` from `offset` on, as a byte array -/
def writeByteArrayPart (vs : Bytes) (offset len : Nat) : Writing Unit :=
  match vs.slice offset (offset + len) with
  | some part => writeByteArray part
  | none => refuse (.invalidLength "byte array range" (Int64.ofNat len).toInt)

def writeBooleanArray (vs : List Bool) : Writing Unit := do
  putLength vs.length
  put vs.length (boolBytes vs)

def writeString (s : String) : Writing Unit :=
  writeByteArray (Utf8.encode s)

def writeUuid (v : Uuid) : Writing Unit := do
  writeByte 0
  writeLong v.most.toInt64
  writeLong v.least.toInt64

def writeExtendedUuid (v : ExtendedUuid) : Writing Unit := do
  writeUuid v.globalId
  writeLong v.localId

/-- a datum of any kind -/
def writeDatum : Datum → Writing Unit
  | .byte v => writeByte v
  | .short v => writeShort v
  | .int v => writeInt v
  | .long v => writeLong v
  | .float v => writeFloat v
  | .double v => writeDouble v
  | .char v => writeChar v
  | .boolean v => writeBoolean v
  | .byteArray vs => writeByteArray vs
  | .shortArray vs => putArray vs
  | .intArray vs => putArray vs
  | .longArray vs => putArray vs
  | .floatArray vs => putArray vs
  | .doubleArray vs => putArray vs
  | .charArray vs => putArray vs
  | .booleanArray vs => writeBooleanArray vs
  | .string s => writeString s
  | .bitSet s => putArray s.words
  | .uuid v => writeUuid v
  | .extendedUuid v => writeExtendedUuid v

/-- the mark of an absent item of a nullable kind -/
def writeAbsent : ItemType → Writing Unit
  | .uuid | .extendedUuid => writeByte 1
  | .message => writeShort nullMessageType
  | _ => putAbsentLength

/-! ## Opaque objects -/

/-- pieces of output, one behind the other -/
def putPieces : List Bytes → Writing Unit
  | [] => pure ()
  | p :: ps => do
    putBytes p
    putPieces ps

/-- a refusal under way becomes the given one -/
def recast {α : Type} (e : WireError) (act : Writing α) : Writing α := fun w =>
  match act w with
  | .ok a w => .ok a w
  | .error (.error _) w => .error (.error e) w
  | .error .panic w => .error .panic w

/-- what an emission hands out, its size in front: the size is filled in once everything is out -/
def writeEmission (e : Emission) : Writing Unit := do
  let start ← reserve lengthPrefixSize
  advance lengthPrefixSize
  recast .packEncode (putPieces e.pieces)
  if !e.complete then refuse .packEncode
  let w ← get
  let size ← ofExcept (encodeLength (w.position - start - lengthPrefixSize))
  splice start (Fixed.bytes w.order.swap size)

def writeObject (p : Pack) : Writing Unit :=
  writeEmission p.emission

/-! ## The level at hand -/

/-- the number of the field to be written next -/
def cursor (w : Writer) : Nat :=
  w.nesting.cursor

def headerWritten (w : Writer) : Bool :=
  w.nesting.headerWritten

def depth (w : Writer) : Nat :=
  w.nesting.depth

def onNesting (w : Writer) (f : Nesting → Nesting) : Writer :=
  { w with nesting := f w.nesting }

/-- how a session is told -/
def debugText (w : Writer) : String :=
  "MessageWriter \x7b position: " ++ toString w.position ++ ", capacity: " ++ toString w.capacity
    ++ ", depth: " ++ toString w.depth ++ ", swap: " ++ toString w.order.swap
    ++ ", failed: " ++ toString w.failed ++ ", .. \x7d"

end Writer

end Courier
