import Courier.Writer

/-!
Writing messages, in one go or in several.

One call on a message writes its header unless that is out, then its fields from the one that the cursor of its level
names, moving the cursor behind each. The call may be granted a number of actions; where they run out, or where a
nested message suspends, the call ends without an error and reports that the message is not finished. The level keeps
its progress, so that a later call goes on exactly there. `Sent.left` is the message as it stands for later calls, with
what has been granted to this one gone.

A root among the fields of a message is written on the level of that message and clears it when it is finished. Where
that moves the cursor back, the fields come round again: `rounds` goes over them until the cursor is behind the last. A
call that is granted any number of actions and keeps going round counts as endless, which is a stop.

The items of a container are written in one go: one that suspends is refused.
-/

namespace Courier

/-- what a call on a message, or on some of its fields, comes to -/
structure Sent (α : Type) where
  /-- whether it came to its end -/
  result : Except Fault Bool
  writer : Writer
  left : α

namespace Writer

/-- an act that always comes to its end, as a call -/
def sent {α : Type} (left : α) (act : Writing Unit) (w : Writer) : Sent α :=
  match act w with
  | .ok () w => ⟨.ok true, w, left⟩
  | .error f w => ⟨.error f, w, left⟩

/-- actions that a call may still take; no number means no bound -/
abbrev Grant := Option Nat

/-- a grant with one action taken from it -/
def spend : Grant → Option Grant
  | none => some none
  | some 0 => none
  | some (n + 1) => some (some n)

/-- writes the header of a message unless it is out; nothing where the grant does not allow it -/
def openMessage (type : Int16) (grant : Grant) : Writing (Option Grant) := do
  let w ← get
  if w.headerWritten then return some grant
  else match spend grant with
    | none => return none
    | some grant => do
      writeHeader type
      modify fun w => w.onNesting .markHeader
      return some grant

/-- goes down one level -/
def enter (w : Writer) : Writer :=
  w.onNesting .forward

/-- goes back up after a call on a nested message, whose level is cleared if it finished; a refusal marks the session
failed -/
def leave {α : Type} : Sent α → Sent α
  | ⟨result, w, left⟩ =>
    let finished := match result with
      | .ok b => b
      | .error _ => false
    if w.depth = 0 then ⟨.error .panic, w, left⟩
    else
      let w := w.onNesting (·.retreat finished)
      match result with
      | .error (.error _) => ⟨result, { w with failed := true }, left⟩
      | _ => ⟨result, w, left⟩

/-- the end of a call on the outermost message; its level is cleared if it finished, a refusal marks the session
failed -/
def settle {α : Type} : Sent α → Sent α
  | ⟨.ok true, w, left⟩ =>
    if w.depth = 0 then ⟨.ok true, w.onNesting .wipe, left⟩ else ⟨.error .panic, w, left⟩
  | ⟨.error (.error e), w, left⟩ => ⟨.error (.error e), { w with failed := true }, left⟩
  | s => s

/-- goes over `n` fields time after time until the cursor is behind the last of them, `k` more times at most -/
def rounds {α : Type} (n : Nat) (pass : Grant → Writer → Sent (Grant × α)) (k : Nat) (s : Sent (Grant × α)) :
    Sent (Grant × α) :=
  match s.result with
  | .ok true =>
    if s.writer.cursor < n then
      match k with
      | 0 => { s with result := .error .panic }
      | k + 1 => rounds n pass k (pass s.left.1 s.writer)
    else s
  | _ => s

/-- rounds after which a call without a bound counts as endless -/
def endless : Nat := 4096

/-- how many rounds after the first a call may take: where there is a bound, each of them takes an action -/
def Grant.rounds : Grant → Nat
  | none => endless
  | some n => n + 1

/-- a call on an item of a container, which has to come to its end -/
def whole {α : Type} (type : Int16) (s : Sent α) : EStateM.Result Fault Writer Unit :=
  match s.result with
  | .ok true => .ok () s.writer
  | .ok false => refuse (.suspendedInCollection type) s.writer
  | .error f => .error f s.writer

end Writer

open Writer

mutual

/-- one call on a message -/
def Message.write : Message → Writer → Sent Message
  | .mk kind fields pauses, w =>
    let left := fun fs => Message.mk kind fs pauses.tail
    match openMessage kind.type pauses.head? w with
    | .error f w => ⟨.error f, w, left fields⟩
    | .ok none w => ⟨.ok false, w, left fields⟩
    | .ok (some grant) w =>
      let pass := fun grant w => Field.writeAll 0 grant fields w
      let s := rounds fields.length pass grant.rounds (pass grant w)
      ⟨s.result, s.writer, left s.left.2⟩
termination_by structural m => m

/-- the fields from number `k` on, as far as the cursor has not passed them and the grant allows; what is left is the
rest of the grant and the fields -/
def Field.writeAll : Nat → Grant → List Field → Writer → Sent (Grant × List Field)
  | _, grant, [], w => ⟨.ok true, w, grant, []⟩
  | k, grant, f :: fs, w =>
    if w.cursor = k then
      match spend grant with
      | none => ⟨.ok false, w, grant, f :: fs⟩
      | some grant =>
        match f.write w with
        | ⟨.ok true, w, f⟩ =>
          let t := Field.writeAll (k + 1) grant fs (w.onNesting .increment)
          ⟨t.result, t.writer, t.left.1, f :: t.left.2⟩
        | ⟨result, w, f⟩ => ⟨result, w, grant, f :: fs⟩
    else
      let t := Field.writeAll (k + 1) grant fs w
      ⟨t.result, t.writer, t.left.1, f :: t.left.2⟩
termination_by structural _ _ fs => fs

/-- one field -/
def Field.write : Field → Writer → Sent Field
  | .data d, w => sent (.data d) (writeDatum d) w
  | .absent t, w => sent (.absent t) (writeAbsent t) w
  | .item t v, w => sent (.item t v) (v.write t) w
  | .fixedInt v, w => sent (.fixedInt v) (writeIntFixed v) w
  | .fixedLong v, w => sent (.fixedLong v) (writeLongFixed v) w
  | .range bs offset len, w => sent (.range bs offset len) (writeByteArrayPart bs offset len) w
  | .raw bs, w => sent (.raw bs) (putBytes bs) w
  | .object shape p, w => sent (.object shape p) (writeObject p) w
  | .items way t vs, w =>
    sent (.items way t vs)
      (do
        if way = .list then
          let _ ← reserve (vs.length * t.minEncodedLength + lengthPrefixSize)
        putLength vs.length
        Value.writeAll t vs) w
  | .map kt vt linked es, w =>
    sent (.map kt vt linked es)
      (do
        putLength es.length
        Value.writeEntries kt vt es) w
  | .nothing, w => sent .nothing putAbsentLength w
  | .message none, w => sent (.message none) (writeShort nullMessageType) w
  | .message (some m), w =>
    let s := leave (m.write (enter w))
    ⟨s.result, s.writer, .message (some s.left)⟩
  | .note n, w => ⟨.ok true, w, .note n⟩
  | .root m, w =>
    let s := settle (m.write w)
    ⟨s.result.map fun _ => true, s.writer, .root m⟩
  | .advance, w => ⟨.ok true, w.onNesting .increment, .advance⟩
  | .markHeader, w => ⟨.ok true, w.onNesting .markHeader, .markHeader⟩
  | .stall, w => ⟨.ok false, w, .stall⟩
  | .fail e, w => ⟨.error (.error e), w, .fail e⟩
termination_by structural f => f

/-- a value as an item of the given kind -/
def Value.write (t : ItemType) : Value → Writing Unit
  | .null => if t.isNullable then writeAbsent t else refuse (.typeMismatch t.name "null")
  | .data d => if d.itemType = t then writeDatum d else refuse (.typeMismatch t.name d.itemType.name)
  | .message m =>
    if t = .message then fun w => whole m.type (leave (m.write (enter w)))
    else refuse (.typeMismatch t.name ItemType.message.name)
termination_by structural v => v

/-- values in a row -/
def Value.writeAll (t : ItemType) : List Value → Writing Unit
  | [] => pure ()
  | v :: vs => do
    v.write t
    Value.writeAll t vs
termination_by structural vs => vs

/-- entries in a row, each key in front of its value -/
def Value.writeEntries (kt vt : ItemType) : List (Value × Value) → Writing Unit
  | [] => pure ()
  | (k, v) :: es => do
    k.write kt
    v.write vt
    Value.writeEntries kt vt es
termination_by structural es => es

end

namespace Writer

/-- a call on a nested message -/
def writeMessage (m : Message) (w : Writer) : Sent Message :=
  leave (m.write (enter w))

/-- a call on the outermost message; its level is cleared once it is finished -/
def writeRoot (m : Message) (w : Writer) : Sent Message :=
  settle (m.write w)

end Writer

/-- what can be asked of a write session; a root asked for by itself tells whether it is finished -/
inductive WriteOp where
  | field (f : Field)
  | root (m : Message)
  | debug

/-- what such an act answers -/
inductive WriteReply where
  | done
  | finished (b : Bool)
  | text (s : String)
  | error (e : WireError)
  deriving DecidableEq

namespace WriteReply

/-- the reply of a call on a message; `none` is a stop -/
def ofCall : Except Fault Bool → Option WriteReply
  | .ok b => some (.finished b)
  | .error (.error e) => some (.error e)
  | .error .panic => none

/-- the reply of an act that answers nothing but refusals -/
def ofAct : Except Fault Bool → Option WriteReply
  | .ok _ => some .done
  | .error (.error e) => some (.error e)
  | .error .panic => none

end WriteReply

namespace WriteOp

/-- one act of a session, with its reply; `none` is a stop -/
def run (op : WriteOp) (w : Writer) : Option WriteReply × Writer :=
  match op with
  | .field f =>
    let s := f.write w
    match f with
    | .message _ => (WriteReply.ofCall s.result, s.writer)
    | _ => (WriteReply.ofAct s.result, s.writer)
  | .root m =>
    let s := w.writeRoot m
    (WriteReply.ofCall s.result, s.writer)
  | .debug => (some (.text w.debugText), w)

end WriteOp

end Courier
