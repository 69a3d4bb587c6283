import Courier.Decoder
import Courier.Pack

/-!
Reading MessagePack documents.

A reader asks for a document of some `Shape`. A free shape (`any`) takes every document except extension values. The
others are the shapes of typed records: numbers of any width are taken when the value fits, a float takes whole numbers
and narrower floats, a text also takes a blob of well-formed UTF-8, a list of numbers also takes a blob as a list of
bytes, and a record is a map with all its fields once each, whose other keys are skipped, or an array of its fields in
order. Whatever follows the document is left alone. Values nest at most `maxDepth - 1` deep.
-/

namespace Courier.Pack

/-- what a reader expects -/
inductive Shape where
  /-- any document -/
  | any
  /-- a record of an author, a priority and tags -/
  | note
  | boolean
  | byte
  | long
  | double
  | text
  /-- a long or nothing -/
  | optionalLong
  | longs
  /-- a text and an unsigned number of 32 bits -/
  | pair
  deriving DecidableEq

/-- containers inside containers are followed this far, less one -/
def maxDepth : Nat := 1024

/-- the head of a document: a whole small one, or what follows and how much of it -/
inductive Head where
  | nil
  | bool (b : Bool)
  | unsigned (n : Nat)
  | signed (v : Int)
  | float32 (v : Single)
  | float64 (v : Double)
  | str (n : Nat)
  | bin (n : Nat)
  | array (n : Nat)
  | map (n : Nat)
  | ext (n : Nat)
  | reserved
  deriving DecidableEq

/-- a number of `n` bytes, highest first -/
def number (n : Nat) : Decoder Nat := do
  let bs ← Decoder.exactly n
  return Bytes.undigits bs.reverse

/-- a signed number of `n` bytes, highest first -/
def signedNumber (n : Nat) : Decoder Int := do
  let v ← number n
  return if 2 * v < Bytes.span n then (v : Int) else (v : Int) - Bytes.span n

/-- the head that a first byte opens -/
def headOf (b : Nat) : Decoder Head :=
  if b < 0x80 then return .unsigned b
  else if b < 0x90 then return .map (b - 0x80)
  else if b < 0xA0 then return .array (b - 0x90)
  else if b < 0xC0 then return .str (b - 0xA0)
  else if 0xE0 ≤ b then return .signed ((b : Int) - 256)
  else match b - 0xC0 with
    | 0x00 => return .nil
    | 0x01 => return .reserved
    | 0x02 => return .bool false
    | 0x03 => return .bool true
    | 0x04 => return .bin (← number 1)
    | 0x05 => return .bin (← number 2)
    | 0x06 => return .bin (← number 4)
    | 0x07 => return .ext (← number 1)
    | 0x08 => return .ext (← number 2)
    | 0x09 => return .ext (← number 4)
    | 0x0A => return .float32 ⟨UInt32.ofNat (← number 4)⟩
    | 0x0B => return .float64 ⟨UInt64.ofNat (← number 8)⟩
    | 0x0C => return .unsigned (← number 1)
    | 0x0D => return .unsigned (← number 2)
    | 0x0E => return .unsigned (← number 4)
    | 0x0F => return .unsigned (← number 8)
    | 0x10 => return .signed (← signedNumber 1)
    | 0x11 => return .signed (← signedNumber 2)
    | 0x12 => return .signed (← signedNumber 4)
    | 0x13 => return .signed (← signedNumber 8)
    | 0x14 => return .ext 1
    | 0x15 => return .ext 2
    | 0x16 => return .ext 4
    | 0x17 => return .ext 8
    | 0x18 => return .ext 16
    | 0x19 => return .str (← number 1)
    | 0x1A => return .str (← number 2)
    | 0x1B => return .str (← number 4)
    | 0x1C => return .array (← number 2)
    | 0x1D => return .array (← number 4)
    | 0x1E => return .map (← number 2)
    | _ => return .map (← number 4)

/-- the head of the next document -/
def head : Decoder Head := do
  headOf (← number 1)

/-- a text, or a blob where the bytes are not UTF-8 -/
def ofTextBytes (bs : Bytes) : Pack :=
  match Utf8.decode? bs with
  | some s => .str s
  | none => .bin bs

/-- any document whose containers nest less than `depth` deep -/
def document : Nat → Decoder Pack
  | 0 => .fail
  | depth + 1 => do
    match ← head with
    | .nil => return .nil
    | .bool b => return .bool b
    | .unsigned n => return .int n
    | .signed v => return .int v
    | .float32 v => return .float32 v
    | .float64 v => return .float64 v
    | .str n => return ofTextBytes (← Decoder.exactly n)
    | .bin n => return .bin (← Decoder.exactly n)
    | .array n =>
      if depth = 0 then .fail
      else return .array (← Decoder.times n (document depth))
    | .map n =>
      if depth = 0 then .fail
      else return .map (← Decoder.times n do return (← document depth, ← document depth))
    | .ext _ | .reserved => .fail

/-- passes over a document of any kind, extension values included -/
def skip : Nat → Decoder Unit
  | 0 => .fail
  | depth + 1 => do
    match ← head with
    | .str n | .bin n => do let _ ← Decoder.exactly n
    | .array n =>
      if depth = 0 then .fail
      else do let _ ← Decoder.times n (skip depth)
    | .map n =>
      if depth = 0 then .fail
      else do let _ ← Decoder.times (2 * n) (skip depth)
    | .ext n =>
      if depth = 0 then .fail
      else do let _ ← Decoder.exactly (n + 1)
    | .reserved => .fail
    | _ => return ()

/-- a whole number from `lo` to `hi`, of any width on the wire -/
def wholeOf (lo hi : Int) : Head → Decoder Int
  | .unsigned n => if (n : Int) ≤ hi then return n else .fail
  | .signed v => if lo ≤ v ∧ v ≤ hi then return v else .fail
  | _ => .fail

/-- the whole numbers of a long -/
def longOf : Head → Decoder Int :=
  wholeOf (-0x8000000000000000) 0x7FFFFFFFFFFFFFFF

/-- a text, which may also come as a blob -/
def textOf : Head → Decoder String
  | .str n | .bin n => do
    match Utf8.decode? (← Decoder.exactly n) with
    | some s => return s
    | none => .fail
  | _ => .fail

/-- a float, which may also come as a whole number or a narrower float -/
def doubleOf : Head → Decoder Double
  | .unsigned n => return .ofInt n
  | .signed v => return .ofInt v
  | .float32 v => return .ofSingle v
  | .float64 v => return v
  | _ => .fail

/-- the tags of a note -/
def tagsOf : Head → Decoder (List String)
  | .array n => Decoder.times n do textOf (← head)
  | .bin n => if n = 0 then return [] else .fail
  | _ => .fail

/-- the fields of a note, as far as they have come -/
structure Note where
  author : Option String
  priority : Option Int
  tags : Option (List String)

/-- which field of a note a key names: by its name or by its number, and nothing for any other key -/
def noteKey : Head → Decoder (Option Nat)
  | .str n | .bin n => do
    let bs ← Decoder.exactly n
    return if bs = Utf8.encode "author" then some 0
      else if bs = Utf8.encode "priority" then some 1
      else if bs = Utf8.encode "tags" then some 2
      else none
  | .unsigned n => return if n ≤ 2 then some n else none
  | _ => .fail

/-- the next entry of a note; a field that comes twice is refused -/
def noteEntry (so : Note) : Decoder Note := do
  match ← noteKey (← head) with
  | some 0 => if so.author.isSome then .fail else return { so with author := some (← textOf (← head)) }
  | some 1 => if so.priority.isSome then .fail else return { so with priority := some (← wholeOf 0 255 (← head)) }
  | some 2 => if so.tags.isSome then .fail else return { so with tags := some (← tagsOf (← head)) }
  | _ => do
    skip (maxDepth - 1)
    return so

/-- the entries of a note -/
def noteEntries : Nat → Note → Decoder Note
  | 0, so => return so
  | n + 1, so => do noteEntries n (← noteEntry so)

/-- the document of a note -/
def noteDocument (author : String) (priority : Int) (tags : List String) : Pack :=
  .map [(.str "author", .str author), (.str "priority", .int priority), (.str "tags", .array (tags.map .str))]

/-- a note -/
def noteOf : Head → Decoder Pack
  | .map n => do
    match ← noteEntries n ⟨none, none, none⟩ with
    | ⟨some author, some priority, some tags⟩ => return noteDocument author priority tags
    | _ => .fail
  | .array 3 => do
    let author ← textOf (← head)
    let priority ← wholeOf 0 255 (← head)
    let tags ← tagsOf (← head)
    return noteDocument author priority tags
  | _ => .fail

/-- a list of longs, which may also come as a blob -/
def longsOf : Head → Decoder Pack
  | .array n => return .array (← Decoder.times n do return .int (← longOf (← head)))
  | .bin n => return .array ((← Decoder.exactly n).map fun b => .int b.toNat)
  | _ => .fail

/-- the decoder of a shape -/
def decoder : Shape → Decoder Pack
  | .any => document maxDepth
  | .note => do noteOf (← head)
  | .boolean => do
    match ← head with
    | .bool b => return .bool b
    | _ => .fail
  | .byte => return .int (← wholeOf 0 255 (← head))
  | .long => return .int (← longOf (← head))
  | .double => return .float64 (← doubleOf (← head))
  | .text => return .str (← textOf (← head))
  | .optionalLong => do
    match ← head with
    | .nil => return .nil
    | h => return .int (← longOf h)
  | .longs => do longsOf (← head)
  | .pair => do
    match ← head with
    | .array 2 => do
      let s ← textOf (← head)
      let n ← wholeOf 0 0xFFFFFFFF (← head)
      return .array [.str s, .int n]
    | _ => .fail

/-- a document of the given shape at the start of `bs`, and what follows it -/
def decodeFrom (shape : Shape) (bs : Bytes) : Except WireError (Pack × Bytes) :=
  match (decoder shape).run bs with
  | (some p, rest) => .ok (p, rest)
  | (none, _) => .error .packDecode

/-- a document of the given shape at the start of `bs` -/
def decode (shape : Shape) (bs : Bytes) : Except WireError Pack :=
  (decodeFrom shape bs).map Prod.fst

end Courier.Pack
