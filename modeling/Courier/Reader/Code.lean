import Courier.Reader.Message

/-!
Messages given by what they do while they are read.

A blueprint is a fixed list of fields, and the first refusal is the end of it. A message may do more than that: which
read comes next may hang on what was read before and on how the session stands, and a refusal may be passed on, answered
by another one or ignored. A `ReadCode` is such a message, act by act; each act goes on with what the last one has come
to, and with the session behind it. Opaque objects are taken up by any decoder.

A factory of codes answers a direct type with the code of its message. `messageCoded` reads messages with such a
factory, as `readAt` does with blueprints, and containers take it for the messages in them. A code may also bring its
own factory for a nested message, as one does that answers a type differently from time to time.
-/

namespace Courier

/-- what a message does while it is read, with its answer -/
inductive ReadCode : Type → Type 1 where
  /-- the end: an answer or a refusal -/
  | finish {α : Type} (result : Except WireError α) : ReadCode α
  | field {α : Type} (k : FieldKind) (next : Except WireError Field → Reader → ReadCode α) : ReadCode α
  /-- an opaque object, taken up by a decoder -/
  | object {α β : Type} (d : Decoder β) (next : Except WireError β → Reader → ReadCode α) : ReadCode α
  /-- a nested message, with the direct types it may have and the code that goes with each -/
  | nested {α : Type} (known : Int16 → Bool) (body : Int16 → ReadCode Message)
      (next : Except WireError (Option Message) → Reader → ReadCode α) : ReadCode α

/-- makes codes of messages by direct type -/
abbrev CodeFactory := Int16 → Option (ReadCode Message)

namespace Reader

variable {α β : Type}

/-- goes on with what an act has come to, unless it was a stop -/
def onto (act : Reading α) (next : Except WireError α → Reader → Reading β) : Reading β := fun r =>
  match act r with
  | .ok a s => next (.ok a) s s
  | .error (.error e) s => next (.error e) s s
  | .error .panic s => .error .panic s

/-- a message at a place, whose direct type tells what reads it -/
def readWith (bodies : Int16 → Option (Reading α)) (place : Place) : Reading (Option α) := do
  let type ← readShort
  if type = nullMessageType then return none
  else match bodies type with
    | none => refuse (.unknownMessageType type)
    | some body =>
      match place with
      | .nested => return some (← below body)
      | .root => return some (← onLevel body)

end Reader

open Reader

/-- a message with that code on the level at hand, once its header has been read -/
def ReadCode.run (messageAt : Place → Reading (Option Message)) : {α : Type} → ReadCode α → Reading α
  | _, .finish result => ofExcept result
  | _, .field k next => onto (fieldWith messageAt k) fun a s => (next a s).run messageAt
  | _, .object d next => onto (readObjectWith d) fun a s => (next a s).run messageAt
  | _, .nested known body next =>
    onto (readWith (fun type => if known type then some ((body type).run messageAt) else none) .nested) fun a s =>
      (next a s).run messageAt

namespace Reader

/-- a message at a place, whose own messages are followed less than `n` deep; what reads the body of a message is told
by its direct type and by what reads the messages in it -/
def followWith (bodies : (Place → Reading (Option Message)) → Int16 → Option (Reading Message)) :
    Nat → Place → Reading (Option Message)
  | 0, _ => throw .panic
  | n + 1, place => readWith (bodies (followWith bodies n)) place

/-- what reads the body of a message whose code a factory knows -/
def codeBodies (codes : CodeFactory) (messageAt : Place → Reading (Option Message)) (type : Int16) :
    Option (Reading Message) :=
  (codes type).map (·.run messageAt)

/-- a message at a place, by a factory of codes -/
def messageCoded (codes : CodeFactory) (place : Place) : Reading (Option Message) := fun r =>
  followWith (codeBodies codes) r.nestingBound place r

/-- what a session does that reads messages by a factory of codes -/
def runCoded {α : Type} (codes : CodeFactory) (c : ReadCode α) : Reading α :=
  c.run (messageCoded codes)

end Reader

/-- the code that reads the fields of these kinds, behind those that were read before -/
def ReadCode.ofKinds (kind : MessageKind) : List FieldKind → List Field → ReadCode Message
  | [], fs => .finish (.ok (.mk kind fs []))
  | k :: ks, fs => .field k fun
    | .ok f, _ => ofKinds kind ks (fs ++ [f])
    | .error e, _ => .finish (.error e)

/-- the code of a message that is made by a blueprint -/
def Blueprint.code (b : Blueprint) : ReadCode Message :=
  .ofKinds b.kind b.schema []

/-- the codes of the messages that a factory makes -/
def Factory.codes (factory : Factory) : CodeFactory :=
  fun type => (factory type).map Blueprint.code

end Courier
