import Courier.Proofs.Layout
import Courier.Writer.Message

/-!
What a call on a message puts out, wherever it stands.

A `Dispatch` is what a call comes to where there is room enough: its result, what it puts out, the levels after it, and
what is left of the message. It depends on the message, the byte order and the levels, and on nothing else of the
session: neither on what was written before nor on the buffer. The functions of this module follow the calls of a
session step by step, with an endless row of levels for the nesting and with outputs for the buffer.
-/

namespace Courier

open Writer

structure Dispatch (α : Type) where
  result : Except Fault Bool
  out : Output
  levels : Levels
  /-- whether a refusal was marked on the way -/
  failed : Bool
  left : α

namespace Dispatch

variable {α β : Type}

/-- nothing done, and the call ends with `result` -/
def stay (left : α) (result : Except Fault Bool) (s : Levels) : Dispatch α :=
  ⟨result, .nothing, s, false, left⟩

/-- an act that touches no level -/
def ofLayout (left : α) (order : ByteOrder) (l : Layout) (s : Levels) : Dispatch α :=
  match l.result with
  | .ok () => ⟨.ok true, l.output order, s, false, left⟩
  | .error e => ⟨.error (.error e), l.output order, s, true, left⟩

/-- the same dispatch with something else left -/
def map (f : α → β) (d : Dispatch α) : Dispatch β :=
  { d with left := f d.left }

/-- the same dispatch behind another output -/
def behind (d : Dispatch α) (o : Output) (failed : Bool) : Dispatch α :=
  { d with out := o ++ d.out, failed := failed || d.failed }

/-- goes on with `next` once the call has come to its end -/
def bind (d : Dispatch α) (next : α → Levels → Dispatch β) (stop : α → β) : Dispatch β :=
  match d.result with
  | .ok true => (next d.left d.levels).behind d.out d.failed
  | _ => d.map stop

/-- one level up behind a call on a nested message -/
def leave (d : Dispatch α) : Dispatch α :=
  if d.levels.depth = 0 then { d with result := .error .panic }
  else match d.result with
    | .ok finished => { d with levels := d.levels.retreat finished }
    | .error (.error _) => { d with levels := d.levels.retreat false, failed := true }
    | .error .panic => { d with levels := d.levels.retreat false }

/-- the end of a call on the outermost message -/
def settle (d : Dispatch α) : Dispatch α :=
  match d.result with
  | .ok true => if d.levels.depth = 0 then { d with levels := d.levels.wipe } else { d with result := .error .panic }
  | .ok false => d
  | .error (.error _) => { d with failed := true }
  | .error .panic => d

/-- goes over `n` fields time after time -/
def rounds (n : Nat) (pass : Grant → Levels → Dispatch (Grant × α)) : Nat → Dispatch (Grant × α) → Dispatch (Grant × α)
  | 0, d => match d.result with
    | .ok true => if d.levels.cursor < n then { d with result := .error .panic } else d
    | _ => d
  | k + 1, d => match d.result with
    | .ok true =>
      if d.levels.cursor < n then rounds n pass k ((pass d.left.1 d.levels).behind d.out d.failed) else d
    | _ => d

/-- a call on an item of a container -/
def whole (type : Int16) (d : Dispatch α) : Dispatch Unit :=
  match d.result with
  | .ok false => { d with result := .error (.error (.suspendedInCollection type)), failed := true, left := () }
  | _ => d.map fun _ => ()

end Dispatch

open Dispatch

mutual

/-- one call on a message -/
def Message.dispatch (order : ByteOrder) : Message → Levels → Dispatch Message
  | .mk kind fields pauses, s =>
    let left := fun fs => Message.mk kind fs pauses.tail
    let pass := fun grant s => Field.dispatchAll order 0 grant fields s
    let go := fun (grant : Grant) o s =>
      (rounds fields.length pass grant.rounds ((pass grant s).behind o false)).map fun t => left t.2
    if s.headerWritten then go pauses.head? .nothing s
    else match spend pauses.head? with
      | none => stay (left fields) (.ok false) s
      | some grant => go grant ((Layout.fixed order kind.type .done).output order) s.markHeader
termination_by structural m => m

/-- the fields from number `k` on -/
def Field.dispatchAll (order : ByteOrder) : Nat → Grant → List Field → Levels → Dispatch (Grant × List Field)
  | _, grant, [], s => stay (grant, []) (.ok true) s
  | k, grant, f :: fs, s =>
    if s.cursor = k then
      match spend grant with
      | none => stay (grant, f :: fs) (.ok false) s
      | some grant =>
        (f.dispatch order s).bind
          (fun f s =>
            (Field.dispatchAll order (k + 1) grant fs s.increment).map fun t => (t.1, f :: t.2))
          fun f => (grant, f :: fs)
    else
      (Field.dispatchAll order (k + 1) grant fs s).map fun t => (t.1, f :: t.2)
termination_by structural _ _ fs => fs

/-- one field -/
def Field.dispatch (order : ByteOrder) : Field → Levels → Dispatch Field
  | .data d, s => ofLayout (.data d) order (d.layout order) s
  | .absent t, s => ofLayout (.absent t) order (t.absentLayout order) s
  | .item t v, s => (v.dispatch order t s).map fun _ => .item t v
  | .fixedInt v, s => ofLayout (.fixedInt v) order (.fixed order v .done) s
  | .fixedLong v, s => ofLayout (.fixedLong v) order (.fixed order v .done) s
  | .range bs offset len, s => ofLayout (.range bs offset len) order (.part order bs offset len) s
  | .raw bs, s => ofLayout (.raw bs) order (.bytes bs .done) s
  | .object shape p, s => ofLayout (.object shape p) order (.object p.emission) s
  | .items way t vs, s =>
    ((ofLayout () order (.counted order way t vs.length) s).bind (fun _ => Value.dispatchAll order t vs) id).map fun _ => .items way t vs
  | .map kt vt linked es, s =>
    ((ofLayout () order (.count order es.length .done) s).bind
      (fun _ => Value.dispatchEntries order kt vt es) id).map fun _ => .map kt vt linked es
  | .nothing, s => ofLayout .nothing order (.fixed order nullLength .done) s
  | .message none, s => ofLayout (.message none) order (.fixed order nullMessageType .done) s
  | .message (some m), s =>
    (m.dispatch order s.forward).leave.map fun m => .message (some m)
  | .note n, s => stay (.note n) (.ok true) s
  | .root m, s =>
    let d := (m.dispatch order s).settle
    { d with result := d.result.map fun _ => true, left := .root m }
  | .advance, s => stay .advance (.ok true) s.increment
  | .markHeader, s => stay .markHeader (.ok true) s.markHeader
  | .stall, s => stay .stall (.ok false) s
  | .fail e, s => stay (.fail e) (.error (.error e)) s
termination_by structural f => f

/-- a value as an item of the given kind -/
def Value.dispatch (order : ByteOrder) (t : ItemType) : Value → Levels → Dispatch Unit
  | .null, s => ofLayout () order (if t.isNullable then t.absentLayout order else .refuse (.typeMismatch t.name "null")) s
  | .data d, s =>
    ofLayout () order (if d.itemType = t then d.layout order else .refuse (.typeMismatch t.name d.itemType.name)) s
  | .message m, s =>
    if t = .message then ((m.dispatch order s.forward).leave).whole m.type
    else ofLayout () order (.refuse (.typeMismatch t.name ItemType.message.name)) s
termination_by structural v => v

/-- values in a row -/
def Value.dispatchAll (order : ByteOrder) (t : ItemType) : List Value → Levels → Dispatch Unit
  | [], s => stay () (.ok true) s
  | v :: vs, s => (v.dispatch order t s).bind (fun _ => Value.dispatchAll order t vs) id
termination_by structural vs => vs

/-- entries in a row, each key in front of its value -/
def Value.dispatchEntries (order : ByteOrder) (kt vt : ItemType) : List (Value × Value) → Levels → Dispatch Unit
  | [], s => stay () (.ok true) s
  | (k, v) :: es, s =>
    (k.dispatch order kt s).bind
      (fun _ s => (v.dispatch order vt s).bind (fun _ => Value.dispatchEntries order kt vt es) id) id
termination_by structural es => es

end

namespace Dispatch

/-- a call on the outermost message -/
def root (order : ByteOrder) (m : Message) (s : Levels) : Dispatch Message :=
  (m.dispatch order s).settle

variable {α : Type}

theorem out_leave (d : Dispatch α) : d.leave.out = d.out := by
  unfold leave
  split
  · rfl
  · split <;> rfl

theorem out_settle (d : Dispatch α) : d.settle.out = d.out := by
  unfold settle
  split
  · split <;> rfl
  all_goals rfl

theorem out_whole (d : Dispatch α) (type : Int16) : (d.whole type).out = d.out := by
  unfold whole
  split <;> rfl

end Dispatch

end Courier
