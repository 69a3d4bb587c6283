import Courier.Reader
import Courier.ValueMap

/-!
Reading messages.

A message begins with its direct type, which the factory turns into a blueprint; then the fields of the blueprint are
read in order. A message stands at a `Place`: a nested one is read one level down, a root on the level at hand, which
it clears when it is done; that is a stop anywhere but on the outermost level.

Everything that may hold a message takes the reader of messages at a place as an argument. That reader is `follow n`,
which follows messages at most `n` deep; since each takes two bytes at least, the number of bytes that are left is a
bound that no message reaches, and `readMessage` and `readRoot` start with it.
-/

namespace Courier

/-- where a message stands -/
inductive Place where
  /-- one level down -/
  | nested
  /-- on the level at hand -/
  | root
  deriving DecidableEq

end Courier

namespace Courier.Reader

/-- a type header, and the blueprint that answers to it; nothing where the message is absent -/
def readBlueprint : Reading (Option Blueprint) := do
  let type ← readShort
  if type = nullMessageType then return none
  else
    let r ← get
    match r.factory type with
    | some b => return some b
    | none => refuse (.unknownMessageType type)

variable (messageAt : Place → Reading (Option Message))

/-- one item of the given kind -/
def itemWith (t : ItemType) : Reading Value := do
  if t = .message then
    match ← messageAt .nested with
    | some m => return .message m
    | none => return .null
  else
    match ← readDatum t with
    | some d => return .data d
    | none => return .null

/-- `n` items of the given kind -/
def itemsWith (t : ItemType) : Nat → Reading (List Value)
  | 0 => return []
  | n + 1 => do
    let v ← itemWith messageAt t
    let vs ← itemsWith t n
    return v :: vs

/-- `n` entries put into a map one by one -/
def entriesWith (kt vt : ItemType) : Nat → ValueMap → Reading ValueMap
  | 0, m => return m
  | n + 1, m => do
    let k ← itemWith messageAt kt
    let v ← itemWith messageAt vt
    entriesWith kt vt n (m.insert k v).2

/-- a run of items with their count in front -/
def listingWith (kind : String) (t : ItemType) : Reading (Option (List Value)) := do
  match ← readLength kind 1 with
  | none => return none
  | some n => return some (← itemsWith messageAt t n)

/-- a map with the count of its entries in front -/
def mapWith (kt vt : ItemType) (linked : Bool) : Reading (Option ValueMap) := do
  match ← readLength "map" 2 with
  | none => return none
  | some n => return some (← entriesWith messageAt kt vt n (.empty linked))

/-- how a run of items is called in a refusal -/
def listingName : Listing → String
  | .array => "object array"
  | .list | .collection => "collection"

/-- what a probe finds -/
def probe : Probe → Reading Note
  | .position => return .number (← get).position
  | .remaining => return .number (← get).remaining
  | .depth => return .number (← get).depth
  | .debug => return .text (← get).debugText

/-- up to `n` bytes put into a buffer of that size, which has to be one that an allocation can hold -/
def readInto (n : Nat) : Reading Bytes :=
  if n ≤ maxAllocation then readUpTo n else throw .panic

/-- one field of the given kind -/
def fieldWith : FieldKind → Reading Field
  | .data t => do
    match ← readDatum t with
    | some d => return .data d
    | none => return .absent t
  | .item t => return .item t (← itemWith messageAt t)
  | .fixedInt => return .fixedInt (← readIntFixed)
  | .fixedLong => return .fixedLong (← readLongFixed)
  | .raw n => return .raw (← readInto n)
  | .object shape => return .object shape (← readObject shape)
  | .items way t => do
    match ← listingWith messageAt (listingName way) t with
    | some vs => return .items way t vs
    | none => return .nothing
  | .map kt vt linked => do
    match ← mapWith messageAt kt vt linked with
    | some m => return .map kt vt linked m.entries
    | none => return .nothing
  | .message => return .message (← messageAt .nested)
  | .root => return .message (← messageAt .root)
  | .rootSummary => do
    match ← messageAt .root with
    | some m => return .note (.summary m.type m.spine)
    | none => return .message none
  | .probe p => return .note (← probe p)
  | .fail e => refuse e

/-- the fields of these kinds, in order -/
def fieldsWith : List FieldKind → Reading (List Field)
  | [] => return []
  | k :: ks => do
    let f ← fieldWith messageAt k
    let fs ← fieldsWith ks
    return f :: fs

/-- the message of a blueprint whose header has been read -/
def bodyWith (b : Blueprint) : Reading Message :=
  return .mk b.kind (← fieldsWith messageAt b.schema) []

/-- one level down for the time of an act, and back up after it; the level is cleared if the act succeeded -/
def below {α : Type} (act : Reading α) : Reading α := fun r =>
  match act (r.onNesting .forward) with
  | .ok a r => if r.depth = 0 then .error .panic r else .ok a (r.onNesting (·.retreat true))
  | .error .panic r => .error .panic r
  | .error f r => if r.depth = 0 then .error .panic r else .error f (r.onNesting (·.retreat false))

/-- an act on the level at hand, which is cleared once the act has succeeded -/
def onLevel {α : Type} (act : Reading α) : Reading α := fun r =>
  match act r with
  | .ok a r => if r.depth = 0 then .ok a (r.onNesting .wipe) else .error .panic r
  | .error f r => .error f r

/-- a message at a place, whose own messages are followed less than `n` deep -/
def follow : Nat → Place → Reading (Option Message)
  | 0, _ => throw .panic
  | n + 1, place => do
    match ← readBlueprint with
    | none => return none
    | some b =>
      match place with
      | .nested => return some (← below (bodyWith (follow n) b))
      | .root => return some (← onLevel (bodyWith (follow n) b))

/-- a bound that messages in messages do not reach: each takes two bytes of those that are left -/
def nestingBound (r : Reader) : Nat :=
  r.remaining + 1

/-- a message at a place -/
def readAt (place : Place) : Reading (Option Message) := fun r =>
  follow r.nestingBound place r

/-- a nested message -/
def readMessage : Reading (Option Message) :=
  readAt .nested

/-- the outermost message -/
def readRoot : Reading (Option Message) :=
  readAt .root

def readItem (t : ItemType) : Reading Value :=
  itemWith readAt t

def readObjectArray (t : ItemType) : Reading (Option (List Value)) :=
  listingWith readAt (listingName .array) t

def readCollection (t : ItemType) : Reading (Option (List Value)) :=
  listingWith readAt (listingName .collection) t

def readMap (kt vt : ItemType) (linked : Bool) : Reading (Option ValueMap) :=
  mapWith readAt kt vt linked

/-- a field of any kind: what can be asked of a read session -/
def readField (k : FieldKind) : Reading Field :=
  fieldWith readAt k

/-- one act of a session, with the field or its refusal; `none` is a stop -/
def run (k : FieldKind) (r : Reader) : Option (Except WireError Field) × Reader :=
  match readField k r with
  | .ok f r => (some (.ok f), r)
  | .error (.error e) r => (some (.error e), r)
  | .error .panic r => (none, r)

end Courier.Reader
