import Courier.Reader.Code
import Courier.Scenario
import Courier.Writer.Code

/-!
A thread at work with messages of any code.

A `Turn` is a step of a desk, or a session of messages that are given by their codes: a write session does what its code
does, a read session reads with a factory of codes. `Desk.turn` gives the report of a turn and the desk behind it, or
nothing where the turn stops the program; `Desk.turns` takes turns until one stops.
-/

namespace Courier

/-- what is done at a desk -/
inductive Turn : Type 1 where
  | step (s : Step)
  | write (handler : Nat) (frame : String) (code : WriteCode) (ending : Ending)
  | read (handler : Nat) (frame : String) (codes : CodeFactory) (code : ReadCode Message) (ending : Ending)

/-- what a turn answers -/
inductive Report where
  | answer (a : Answer)
  | written (result : Except WireError Bool) (size : Option Nat) (frame : Frame) (handler : Handler)
  | refused (e : WireError) (handler : Handler)
  | received (result : Except WireError Message) (frame : Frame) (handler : Handler)

/-- what a call has come to, unless it was a stop -/
def Sent.told {α : Type} (s : Sent α) : Option (Except WireError Bool) :=
  match s.result with
  | .ok b => some (.ok b)
  | .error (.error e) => some (.error e)
  | .error .panic => none

/-- what an act of a read session has come to, and the session behind it, unless it was a stop -/
def Reader.told {α : Type} : EStateM.Result Fault Reader α → Option (Except WireError α × Reader)
  | .ok a r => some (.ok a, r)
  | .error (.error e) r => some (.error e, r)
  | .error .panic _ => none

namespace Desk

/-- the report of a turn and the desk behind it; `none` is a stop -/
def turn (d : Desk) : Turn → Option (Report × Desk)
  | .step s => (d.step s).map fun (a, d) => (.answer a, d)
  | .write handler frame code ending => do
    let b ← d.bench handler frame
    let (w, b) := b.openWrite
    let s := code.run w
    let result ← s.told
    let (size, b) ← match ending with
      | .close => (b.closeWrite s.writer).map fun (n, b) => (some n, b)
      | .drop => some (none, b.dropWrite s.writer)
    return (.written result size b.frame b.handler, d.putBack handler frame b)
  | .read handler frame codes code ending => do
    let b ← d.bench handler frame
    match b.openRead with
    | .error e => return (.refused e b.handler, d.putBack handler frame b)
    | .ok r => do
      let (result, r) ← Reader.told (Reader.runCoded codes code r)
      let b := match ending with
        | .close => b.closeRead r
        | .drop => b.dropRead r
      return (.received result b.frame b.handler, d.putBack handler frame b)

/-- turns in order, each with its report and the desk behind it, up to one that stops -/
def turns (d : Desk) : List Turn → List (Option (Report × Desk))
  | [] => []
  | t :: ts =>
    match d.turn t with
    | some (a, e) => some (a, e) :: turns e ts
    | none => [none]

end Desk

end Courier
