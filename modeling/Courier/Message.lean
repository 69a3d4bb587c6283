import Courier.Datum
import Courier.Pack.Shape

/-!
Messages, their fields, and the values that containers hold.

A message is a kind and a list of fields. The two stock kinds have fixed fields: a leaf holds a long and a text, a
node an int and a message. A record holds whatever fields it is given. A field that is a message may suspend: each
call on a message writes as much as it can, up to the number of actions that `pauses` grants to that call (no bound
once the list has run out), and says whether it came to the end. Values hold messages too, but those are written in
one go.

Messages are compared by kind and fields, values by kind and payload; how often a message pauses does not count, nor
does the order in which a map that is not linked shows its entries.
-/

namespace Courier

/-- what sort of message it is -/
inductive MessageKind where
  | leaf
  | node
  | record (type : Int16)
  deriving DecidableEq

/-- the direct type that stands in front of a message -/
def MessageKind.type : MessageKind → Int16
  | .leaf => 1
  | .node => 2
  | .record type => type

/-- how a run of items is written; the bytes are the same -/
inductive Listing where
  | array
  | list
  | collection
  deriving DecidableEq

/-- what a message notes while it is read, without taking bytes -/
inductive Note where
  | number (n : Nat)
  | text (s : String)
  /-- the direct type of a message and how many messages follow one another along its last fields -/
  | summary (type : Int16) (levels : Nat)
  deriving DecidableEq

mutual

inductive Message where
  | mk (kind : MessageKind) (fields : List Field) (pauses : List Nat)

inductive Field where
  /-- a datum of its own kind -/
  | data (d : Datum)
  /-- no datum where one of a nullable kind could stand -/
  | absent (type : ItemType)
  /-- an item that has to be of the given kind -/
  | item (type : ItemType) (v : Value)
  | fixedInt (v : Int32)
  | fixedLong (v : Int64)
  /-- a part of some bytes, as a byte array -/
  | range (bs : Bytes) (offset len : Nat)
  /-- bytes with nothing around them -/
  | raw (bs : Bytes)
  | object (shape : Pack.Shape) (p : Pack)
  | items (way : Listing) (type : ItemType) (vs : List Value)
  | map (keyType valueType : ItemType) (linked : Bool) (es : List (Value × Value))
  /-- no container where one could stand -/
  | nothing
  | message (m : Option Message)
  /-- takes no bytes -/
  | note (n : Note)
  /-- a message on the level at hand, which its end clears -/
  | root (m : Message)
  /-- takes no bytes and has the field behind it passed over -/
  | advance
  /-- takes no bytes and has the header of its message count as written -/
  | markHeader
  /-- never comes to its end -/
  | stall
  /-- refuses -/
  | fail (e : WireError)

inductive Value where
  | null
  | data (d : Datum)
  | message (m : Message)

end

namespace Message

def kind : Message → MessageKind
  | .mk kind _ _ => kind

def fields : Message → List Field
  | .mk _ fields _ => fields

/-- the direct type of a message -/
def type (m : Message) : Int16 :=
  m.kind.type

/-- a leaf -/
def leaf (id : Int64) (name : Option String) : Message :=
  .mk .leaf [.data (.long id), match name with | some s => .data (.string s) | none => .absent .string] []

/-- a node -/
def node (value : Int32) (child : Option Message) : Message :=
  .mk .node [.data (.int value), .message child] []

/-- a record that never pauses -/
def record (type : Int16) (fields : List Field) : Message :=
  .mk (.record type) fields []

end Message

mutual

/-- equality of messages -/
def Message.same : Message → Message → Bool
  | .mk k fs _, .mk l gs _ => k == l && Field.sameAll fs gs
termination_by structural m => m

/-- equality of fields -/
def Field.same : Field → Field → Bool
  | .data d, .data e => d == e
  | .absent t, .absent u => t == u
  | .item t v, .item u w => t == u && v.same w
  | .fixedInt v, .fixedInt w => v == w
  | .fixedLong v, .fixedLong w => v == w
  | .range bs o n, .range cs p m => bs == cs && o == p && n == m
  | .raw bs, .raw cs => bs == cs
  | .object s p, .object t q => s == t && p.same q
  | .items way t vs, .items way' u ws => way == way' && t == u && Value.sameAll vs ws
  | .map a b l es, .map c d m fs =>
    a == c && b == d && l == m &&
      (if l then Value.sameEntries es fs
      else Value.entriesAmong es fs && fs.all fun (k, v) => Value.holdsEntry es k v)
  | .nothing, .nothing => true
  | .message none, .message none => true
  | .message (some m), .message (some n) => m.same n
  | .note a, .note b => a == b
  | .root m, .root n => m.same n
  | .advance, .advance => true
  | .markHeader, .markHeader => true
  | .stall, .stall => true
  | .fail d, .fail e => d == e
  | _, _ => false
termination_by structural f => f

/-- equality of fields in a row -/
def Field.sameAll : List Field → List Field → Bool
  | [], [] => true
  | f :: fs, g :: gs => f.same g && Field.sameAll fs gs
  | _, _ => false
termination_by structural fs => fs

/-- equality of values -/
def Value.same : Value → Value → Bool
  | .null, .null => true
  | .data d, .data e => d == e
  | .message m, .message n => m.same n
  | _, _ => false
termination_by structural v => v

/-- equality of values in a row -/
def Value.sameAll : List Value → List Value → Bool
  | [], [] => true
  | v :: vs, w :: ws => v.same w && Value.sameAll vs ws
  | _, _ => false
termination_by structural vs => vs

/-- equality of entries in a row -/
def Value.sameEntries : List (Value × Value) → List (Value × Value) → Bool
  | [], [] => true
  | (k, v) :: es, (l, w) :: fs => k.same l && v.same w && Value.sameEntries es fs
  | _, _ => false
termination_by structural es => es

/-- whether every one of some entries stands among others -/
def Value.entriesAmong : List (Value × Value) → List (Value × Value) → Bool
  | [], _ => true
  | (k, v) :: es, fs => (fs.any fun (l, w) => k.same l && v.same w) && Value.entriesAmong es fs
termination_by structural es => es

/-- whether an entry stands among some -/
def Value.holdsEntry : List (Value × Value) → Value → Value → Bool
  | [], _, _ => false
  | (k, v) :: es, l, w => (k.same l && v.same w) || Value.holdsEntry es l w
termination_by structural es => es

end

namespace Value

/-- equality of values under a comparison of messages that is handed over -/
def sameUnder (eqm : Message → Message → Bool) : Value → Value → Bool
  | .null, .null => true
  | .data d, .data e => d == e
  | .message m, .message n => eqm m n
  | _, _ => false

/-- the kind of a value, unless it is null -/
def itemType? : Value → Option ItemType
  | .null => none
  | .data d => some d.itemType
  | .message _ => some .message

/-- how the kind of a value is told -/
def kindName (v : Value) : String :=
  match v.itemType? with
  | some t => t.name
  | none => "null"

def isNull : Value → Bool
  | .null => true
  | _ => false

/-- the text that a value is -/
def text? : Value → Option String
  | .data d => d.text?
  | _ => none

/-- the number that a value is -/
def toInt? : Value → Option Int
  | .data d => d.toInt?
  | _ => none

/-- the message that a value is -/
def message? : Value → Option Message
  | .message m => some m
  | _ => none

end Value

mutual

/-- number of messages along the last fields of a message, itself included -/
def Message.spine : Message → Nat
  | .mk _ fs _ => 1 + Field.spine fs
termination_by structural m => m

/-- number of messages that begin at the last of these fields -/
def Field.spine : List Field → Nat
  | [] => 0
  | [.message (some m)] => m.spine
  | _ :: fs => Field.spine fs
termination_by structural fs => fs

end

end Courier
