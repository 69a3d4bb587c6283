import Courier.Proofs.Calls
import Courier.Proofs.Segments

/-!
What happens while a message is written, moment by moment.

A call on a message calls other messages, begins containers and sets about putting out segments. `Message.moments` lists
all of this in the order in which it happens, each `Moment` with the session that it happens in. It follows the calls of
the session step by step, and goes on only where they do: nothing is listed behind a call that was refused or suspended,
and a field is passed over where the cursor passes over it.

A moment also tells what lies around it: the direct type of the item of the innermost container that it belongs to, and
nothing where there is no container around it. What is begun by a message of its own counts as outside until the item
that the message belongs to is known; `Moment.below` adds that.
-/

namespace Courier

open Writer

/-- what is done at a moment -/
inductive Deed where
  /-- a message is called -/
  | call (m : Message)
  /-- a container is begun: a single item, a run of items or a map -/
  | container (f : Field)
  /-- segments are to be put out -/
  | put (segs : List Segment)

structure Moment where
  deed : Deed
  /-- the session as it is then -/
  session : Writer
  /-- the direct type of the item around it -/
  item : Option Int16

namespace Moment

/-- the same moment within an item, unless it lies within one further in -/
def below (type : Int16) (x : Moment) : Moment :=
  { x with item := some (x.item.getD type) }

/-- the segments that are to be put out -/
def segments (x : Moment) : List Segment :=
  match x.deed with
  | .put segs => segs
  | _ => []

/-- all segments that are to be put out, in order -/
def puts (xs : List Moment) : List Segment :=
  xs.flatMap segments

end Moment

namespace Sent

variable {α : Type}

/-- the moments behind a call, if it has come to its end -/
def onward (s : Sent α) (next : Writer → List Moment) : List Moment :=
  match s.result with
  | .ok true => next s.writer
  | _ => []

theorem onward_of_done {s : Sent α} (h : s.result = .ok true) (next : Writer → List Moment) :
    s.onward next = next s.writer := by
  simp only [onward, h]

theorem onward_of_ne {s : Sent α} (h : s.result ≠ .ok true) (next : Writer → List Moment) : s.onward next = [] := by
  unfold onward
  split
  · contradiction
  · rfl

/-- the moments of the rounds behind a first one -/
def laps (n : Nat) (pass : Grant → Writer → Sent (Grant × α)) (moments : Grant → Writer → List Moment) :
    Nat → Sent (Grant × α) → List Moment
  | 0, _ => []
  | k + 1, s => s.onward fun w =>
    if w.cursor < n then moments s.left.1 w ++ laps n pass moments k (pass s.left.1 w) else []

end Sent

/-- what a field is spelled with that holds neither a message nor a value -/
def Field.segments : Field → List Segment
  | .data d => d.segments
  | .absent t => t.absentSegments
  | .fixedInt v => [.of v]
  | .fixedLong v => [.of v]
  | .range bs offset len => Segment.part bs offset len
  | .raw bs => [.plain bs]
  | .object _ p => Segment.object p.emission.pieces.flatten
  | .nothing => [.of nullLength]
  | .message none => [.of nullMessageType]
  | _ => []

mutual

/-- what happens during one call on a message -/
def Message.moments : Message → Writer → List Moment
  | .mk kind fields pauses, w =>
    let pass := fun grant w => Field.momentsAll 0 grant fields w
    let go := fun (grant : Grant) w =>
      pass grant w ++
        (Field.writeAll 0 grant fields w).laps fields.length (fun grant w => Field.writeAll 0 grant fields w) pass
          grant.rounds
    ⟨.call (.mk kind fields pauses), w, none⟩ ::
      if w.headerWritten then go pauses.head? w
      else match spend pauses.head? with
        | none => []
        | some grant => ⟨.put [.of kind.type], w, none⟩ :: (header kind.type w).onward (go grant)
termination_by structural m => m

/-- what happens during a pass over the fields from number `k` on -/
def Field.momentsAll : Nat → Grant → List Field → Writer → List Moment
  | _, _, [], _ => []
  | k, grant, f :: fs, w =>
    if w.cursor = k then
      match spend grant with
      | none => []
      | some grant =>
        f.moments w ++ (f.write w).onward fun v => Field.momentsAll (k + 1) grant fs (v.onNesting .increment)
    else Field.momentsAll (k + 1) grant fs w
termination_by structural _ _ fs => fs

/-- what happens during a field -/
def Field.moments : Field → Writer → List Moment
  | .item t v, w => ⟨.container (.item t v), w, none⟩ :: v.moments t w
  | .items way t vs, w =>
    ⟨.container (.items way t vs), w, none⟩ :: ⟨.put (Segment.counted vs.length []), w, none⟩ ::
      (sent () (writeCount way t vs.length) w).onward fun v => Value.momentsAll t vs v
  | .map kt vt linked es, w =>
    ⟨.container (.map kt vt linked es), w, none⟩ :: ⟨.put (Segment.counted es.length []), w, none⟩ ::
      (sent () (putLength es.length) w).onward fun v => Value.momentsEntries kt vt es v
  | .message (some m), w => m.moments (enter w)
  | .root m, w => m.moments w
  | f, w => [⟨.put f.segments, w, none⟩]
termination_by structural f => f

/-- what happens during an item of the given kind -/
def Value.moments (t : ItemType) : Value → Writer → List Moment
  | .null, w => if t.isNullable then [⟨.put t.absentSegments, w, none⟩] else []
  | .data d, w => if d.itemType = t then [⟨.put d.segments, w, none⟩] else []
  | .message m, w => if t = .message then (m.moments (enter w)).map (.below m.type) else []
termination_by structural v => v

/-- what happens during items in a row -/
def Value.momentsAll (t : ItemType) : List Value → Writer → List Moment
  | [], _ => []
  | v :: vs, w => v.moments t w ++ (sent () (v.write t) w).onward fun u => Value.momentsAll t vs u
termination_by structural vs => vs

/-- what happens during entries in a row -/
def Value.momentsEntries (kt vt : ItemType) : List (Value × Value) → Writer → List Moment
  | [], _ => []
  | (k, v) :: es, w =>
    k.moments kt w ++ (sent () (k.write kt) w).onward fun u =>
      v.moments vt u ++ (sent () (v.write vt) u).onward fun u' => Value.momentsEntries kt vt es u'
termination_by structural es => es

end

/-- what happens while the fields of a message are gone over, time after time -/
def Writer.passMoments (fields : List Field) (grant : Grant) (w : Writer) : List Moment :=
  Field.momentsAll 0 grant fields w ++
    (Field.writeAll 0 grant fields w).laps fields.length (fun grant w => Field.writeAll 0 grant fields w)
      (fun grant w => Field.momentsAll 0 grant fields w) grant.rounds

/-- what happens during one call on a message behind the call itself -/
def Message.onward : Message → Writer → List Moment
  | .mk kind fields pauses, w =>
    if w.headerWritten then passMoments fields pauses.head? w
    else match spend pauses.head? with
      | none => []
      | some grant => ⟨.put [.of kind.type], w, none⟩ :: (header kind.type w).onward (passMoments fields grant)

theorem Message.moments_eq (m : Message) (w : Writer) : m.moments w = ⟨.call m, w, none⟩ :: m.onward w := by
  obtain ⟨kind, fields, pauses⟩ := m
  rw [Message.moments]
  rfl

/-- a field that holds neither a message nor a value sets about putting out its segments, and that is all -/
theorem Field.moments_plain {f : Field} (hf : f.isPlain = true) (w : Writer) :
    f.moments w = [⟨.put f.segments, w, none⟩] := by
  cases f with
  | message m =>
    cases m with
    | none => rfl
    | some m => cases hf
  | item | items | map | root => cases hf
  | _ => rfl

end Courier
