import Courier.Message

/-!
How a message is read: the kinds of its fields in order, and the registry that knows them by direct type.

A direct type may be registered once, and the one that marks an absent message not at all. A factory is anything that
answers a direct type with a blueprint; a registry is one, and so is a plain list, whose first entry counts.
-/

namespace Courier

/-- what a message can note about the read at hand -/
inductive Probe where
  | position
  | remaining
  | depth
  | debug
  deriving DecidableEq

/-- how a field is read -/
inductive FieldKind where
  | data (type : ItemType)
  | item (type : ItemType)
  | fixedInt
  | fixedLong
  | raw (n : Nat)
  | object (shape : Pack.Shape)
  | items (way : Listing) (type : ItemType)
  | map (keyType valueType : ItemType) (linked : Bool)
  | message
  /-- a message on the level at hand, which has to be the outermost one -/
  | root
  /-- such a message, of which only a summary is kept -/
  | rootSummary
  | probe (p : Probe)
  | fail (e : WireError)
  deriving DecidableEq

/-- the makings of a message that is about to be read -/
inductive Blueprint where
  | leaf
  | node
  | record (type : Int16) (schema : List FieldKind)
  deriving DecidableEq

namespace Blueprint

def kind : Blueprint → MessageKind
  | .leaf => .leaf
  | .node => .node
  | .record type _ => .record type

/-- the fields to be read, in order -/
def schema : Blueprint → List FieldKind
  | .leaf => [.data .long, .data .string]
  | .node => [.data .int, .message]
  | .record _ schema => schema

/-- the message before anything has been read -/
def blank : Blueprint → Message
  | .leaf => .leaf 0 none
  | .node => .node 0 none
  | .record type _ => .record type []

end Blueprint

/-- makes messages by direct type -/
abbrev Factory := Int16 → Option Blueprint

/-- the factory of a list, in which the first entry of a type counts -/
def Factory.ofList (es : List (Int16 × Blueprint)) : Factory :=
  fun type => (es.find? fun e => e.1 == type).map Prod.snd

structure Registry where
  entries : List (Int16 × Blueprint)
  deriving DecidableEq

namespace Registry

def empty : Registry :=
  ⟨[]⟩

def contains (r : Registry) (type : Int16) : Bool :=
  r.entries.any fun e => e.1 == type

def size (r : Registry) : Nat :=
  r.entries.length

/-- the registry with one more type -/
def register (r : Registry) (type : Int16) (b : Blueprint) : Except WireError Registry :=
  if type = nullMessageType then
    .error (.registration ("direct type " ++ toString type.toInt ++ " is reserved for absent messages"))
  else if r.contains type then
    .error (.registration ("direct type " ++ toString type.toInt ++ " is already registered"))
  else .ok ⟨r.entries ++ [(type, b)]⟩

/-- the registry of these types, registered in order -/
def ofList : List (Int16 × Blueprint) → Except WireError Registry :=
  fun es => es.foldlM (fun r e => r.register e.1 e.2) empty

/-- the registered types, in ascending order -/
def types (r : Registry) : List Int16 :=
  (r.entries.map Prod.fst).mergeSort fun a b => a ≤ b

def factory (r : Registry) : Factory :=
  .ofList r.entries

end Registry

end Courier
