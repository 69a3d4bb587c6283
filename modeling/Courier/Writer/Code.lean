import Courier.Writer.Message

/-!
Messages given by what they do when they are called.

A message of fields writes one field after the other and passes every refusal on. A message may do more than that: what
it writes next may hang on how the session stands, and it may go on where a part of it was refused. A `WriteCode` is
such a message, act by act; each act goes on with what the last one has come to, and with the session behind it. An act
that touches no level is written down as a `Layout`: room made, bytes put, a refusal, or an opaque object.

A list of messages given by their codes is a code as well: its count, and the messages one by one.
-/

namespace Courier

/-- what an act does to the buffer, in order -/
inductive Layout where
  | done
  | refuse (e : WireError)
  /-- room made ahead -/
  | reserve (room : Nat) (next : Layout)
  | put (room : Nat) (bs : Bytes) (fits : bs.length ≤ room) (next : Layout)
  /-- an opaque object, its size in front -/
  | object (e : Emission)

def Layout.run : Layout → Writing Unit
  | done => pure ()
  | refuse e => Writer.refuse e
  | reserve room next => do
    let _ ← Writer.reserve room
    next.run
  | put room bs _ next => do
    Writer.put room bs
    next.run
  | object e => Writer.writeEmission e

/-- goes on with what a call has come to, unless it was a stop -/
def Sent.onto {α : Type} (s : Sent α) (next : Except WireError Bool → Writer → Sent Unit) : Sent Unit :=
  match s.result with
  | .ok b => next (.ok b) s.writer
  | .error (.error e) => next (.error e) s.writer
  | .error .panic => ⟨.error .panic, s.writer, ()⟩

open Writer

/-- what a message does when it is called, act by act -/
inductive WriteCode where
  /-- the end: finished, interrupted or refused -/
  | finish (result : Except WireError Bool)
  /-- anything that touches no level -/
  | act (l : Layout) (next : Except WireError Bool → Writer → WriteCode)
  /-- a field, such as a message of fields, a container or a move of the cursor -/
  | field (f : Field) (next : Except WireError Bool → Writer → WriteCode)
  /-- a nested message, given by its code -/
  | nested (body : WriteCode) (next : Except WireError Bool → Writer → WriteCode)
  /-- an outermost message, given by its code -/
  | root (body : WriteCode) (next : Except WireError Bool → Writer → WriteCode)

/-- a call on a message with that code, on the level at hand -/
def WriteCode.run : WriteCode → Writer → Sent Unit
  | .finish result, w => ⟨result.mapError .error, w, ()⟩
  | .act l next, w => (sent () l.run w).onto fun r v => (next r v).run v
  | .field f next, w => (f.write w).onto fun r v => (next r v).run v
  | .nested body next, w => (leave (body.run (enter w))).onto fun r v => (next r v).run v
  | .root body next, w => (settle (body.run w)).onto fun r v => (next r v).run v

/-- a call on a nested message with that code -/
def Writer.writeCoded (c : WriteCode) (w : Writer) : Sent Unit :=
  leave (c.run (enter w))

end Courier
