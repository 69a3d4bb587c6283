import Courier.Handler

/-!
A thread at work: several handlers, named frames, messages kept for later calls, and the steps taken with them.

`Desk` is the state of the thread. `Step` is what is done with it: write and read sessions, each a list of acts that go
on after a refusal, a trial of damaged copies of a frame, and what is done to handlers and frames from outside. `step`
gives the answer of a step and the desk after it, or nothing where the step stops the program; `run` takes steps until
one stops.

A message that is kept by name is the same message in all the calls on it, so that what earlier calls were granted is
gone in later ones.
-/

namespace Courier

structure Desk where
  handlers : List Handler
  /-- the cache of the thread -/
  shared : BufferCache
  frames : List (String × Frame)
  /-- messages kept by name -/
  drafts : List (String × Message)

/-- an act of a write session -/
inductive WriteAct where
  | op (op : WriteOp)
  /-- a call on the outermost message of that name -/
  | rootDraft (name : String)
  /-- a call on the nested message of that name -/
  | messageDraft (name : String)

/-- how a session ends -/
inductive Ending where
  | close
  | drop
  deriving DecidableEq

/-- how a copy of a frame is damaged at an offset -/
inductive Damage where
  /-- everything from there on is missing -/
  | cut
  /-- the byte there is changed in these bits -/
  | flip (mask : UInt8)
  deriving DecidableEq

inductive Step where
  | write (handler : Nat) (frame : String) (acts : List WriteAct) (ending : Ending)
  | read (handler : Nat) (frame : String) (kinds : List FieldKind) (ending : Ending)
  | damage (handler : Nat) (frame : String) (kinds : List FieldKind) (damage : Damage) (stride : Nat)
  | reset (handler : Nat)
  | config (handler : Nat)
  | debug (handler : Nat)
  | join (frame : String) (sources : List String)
  | frame (frame : String) (acts : List FrameAct)

/-- an act of a write session, and how the session stands after it -/
structure Written where
  reply : WriteReply
  position : Nat
  capacity : Nat
  depth : Nat
  cursor : Nat
  headerWritten : Bool
  failed : Bool
  deriving DecidableEq

/-- a reply of a session that now stands so -/
def Written.of (reply : WriteReply) (w : Writer) : Written :=
  ⟨reply, w.position, w.capacity, w.depth, w.cursor, w.headerWritten, w.failed⟩

/-- an act of a read session, and how the session stands after it -/
structure Received where
  reply : Except WireError Field
  position : Nat
  remaining : Nat
  depth : Nat

/-- a reply of a session that now stands so -/
def Received.of (reply : Except WireError Field) (r : Reader) : Received :=
  ⟨reply, r.position, r.remaining, r.depth⟩

/-- a read of a damaged copy -/
inductive Trial where
  /-- the session could not be opened -/
  | closed (e : WireError)
  /-- the fields, or the refusal that reading ended with, and the position then -/
  | read (fields : Except WireError (List Field)) (position : Nat)

inductive Answer where
  | written (acts : List Written) (size : Option Nat) (frame : Frame) (handler : Handler)
  | refused (e : WireError) (handler : Handler)
  | received (acts : List Received) (frame : Frame) (handler : Handler)
  | trials (ts : List Trial)
  | handler (h : Handler)
  | config (c : Config)
  | text (s : String)
  | frame (f : Frame)

namespace Desk

/-- what stands under a name -/
def lookUp {α : Type} (es : List (String × α)) (name : String) : Option α :=
  (es.find? fun e => e.1 == name).map Prod.snd

/-- the same list with `a` under that name -/
def store {α : Type} (es : List (String × α)) (name : String) (a : α) : List (String × α) :=
  match es with
  | [] => [(name, a)]
  | e :: es => if e.1 == name then (name, a) :: es else e :: store es name a

/-- the frame of that name, an empty one on its first use -/
def frameNamed (d : Desk) (name : String) : Frame :=
  (lookUp d.frames name).getD .empty

/-- what a session with that handler and that frame works on -/
def bench (d : Desk) (handler : Nat) (frame : String) : Option Bench :=
  d.handlers[handler]?.map fun h => ⟨h, d.shared, d.frameNamed frame⟩

/-- the desk with a bench put back -/
def putBack (d : Desk) (handler : Nat) (frame : String) (b : Bench) : Desk :=
  { d with
    handlers := d.handlers.set handler b.handler
    shared := b.shared
    frames := store d.frames frame b.frame }

/-- one act of a write session; `none` is a stop -/
def writeAct (w : Writer) (drafts : List (String × Message)) :
    WriteAct → Option WriteReply × Writer × List (String × Message)
  | .op op =>
    let (reply, w) := op.run w
    (reply, w, drafts)
  | .rootDraft name =>
    match lookUp drafts name with
    | some m =>
      let s := w.writeRoot m
      (WriteReply.ofCall s.result, s.writer, store drafts name s.left)
    | none => (none, w, drafts)
  | .messageDraft name =>
    match lookUp drafts name with
    | some m =>
      let s := w.writeMessage m
      (WriteReply.ofCall s.result, s.writer, store drafts name s.left)
    | none => (none, w, drafts)

/-- the acts of a write session in order; `none` where one of them stops -/
def writeActs (w : Writer) (drafts : List (String × Message)) :
    List WriteAct → Option (List Written × Writer × List (String × Message))
  | [] => some ([], w, drafts)
  | a :: acts =>
    match writeAct w drafts a with
    | (some reply, w, drafts) =>
      let here := Written.of reply w
      (writeActs w drafts acts).map fun (ws, last, drafts) => (here :: ws, last, drafts)
    | (none, _, _) => none

/-- the acts of a read session in order; `none` where one of them stops -/
def readKinds (r : Reader) : List FieldKind → Option (List Received × Reader)
  | [] => some ([], r)
  | k :: ks =>
    match r.run k with
    | (some reply, r) =>
      let here := Received.of reply r
      (readKinds r ks).map fun (rs, last) => (here :: rs, last)
    | (none, _) => none

/-- the acts of a read session up to the first refusal; `none` where one of them stops -/
def tryKinds (r : Reader) : List FieldKind → Option (Except WireError (List Field) × Reader)
  | [] => some (.ok [], r)
  | k :: ks =>
    match r.run k with
    | (some (.ok f), r) => (tryKinds r ks).map fun (fs, last) => (fs.map (f :: ·), last)
    | (some (.error e), r) => some (.error e, r)
    | (none, _) => none

/-- a copy of a frame, damaged at offset `i` -/
def damaged (f : Frame) (i : Nat) : Damage → Frame
  | .cut => f.truncate i
  | .flip mask => .ofCells (f.cells.modify i (· ^^^ mask))

/-- reads of copies damaged at each of the offsets, and the bench after them; `none` where one of them stops -/
def trials (b : Bench) (f : Frame) (kinds : List FieldKind) (damage : Damage) :
    List Nat → Option (List Trial × Bench)
  | [] => some ([], b)
  | i :: is =>
    let copy := { b with frame := damaged f i damage }
    match copy.openRead with
    | .error e => (trials b f kinds damage is).map fun (ts, b) => (.closed e :: ts, b)
    | .ok r =>
      match tryKinds r kinds with
      | none => none
      | some (fields, r) =>
        (trials (copy.dropRead r) f kinds damage is).map fun (ts, b) =>
          (.read fields r.position :: ts, b)

/-- the offsets below `n` in strides of `stride` -/
def offsets (n stride : Nat) : List Nat :=
  (List.range n).filter fun i => i % stride = 0

/-- acts on a frame in order; `none` where one of them stops -/
def frameActs (f : Frame) : List FrameAct → Option Frame
  | [] => some f
  | a :: acts =>
    match a.run f with
    | some (_, f) => frameActs f acts
    | none => none

/-- the answer of a step and the desk after it; `none` is a stop -/
def step (d : Desk) : Step → Option (Answer × Desk)
  | .write handler frame acts ending => do
    let b ← d.bench handler frame
    let (w, b) := b.openWrite
    let (ws, w, drafts) ← writeActs w d.drafts acts
    let (size, b) ← match ending with
      | .close => (b.closeWrite w).map fun (n, b) => (some n, b)
      | .drop => some (none, b.dropWrite w)
    return (.written ws size b.frame b.handler, { d.putBack handler frame b with drafts := drafts })
  | .read handler frame kinds ending => do
    let b ← d.bench handler frame
    match b.openRead with
    | .error e => return (.refused e b.handler, d.putBack handler frame b)
    | .ok r => do
      let (rs, r) ← readKinds r kinds
      let b := match ending with
        | .close => b.closeRead r
        | .drop => b.dropRead r
      return (.received rs b.frame b.handler, d.putBack handler frame b)
  | .damage handler frame kinds damage stride => do
    let b ← d.bench handler frame
    let f := b.frame
    let (ts, b) ← trials b f kinds damage (offsets f.extent stride)
    return (.trials ts, d.putBack handler frame { b with frame := f })
  | .reset handler => do
    let h ← d.handlers[handler]?
    return (.handler h.reset, { d with handlers := d.handlers.set handler h.reset })
  | .config handler => do
    let h ← d.handlers[handler]?
    return (.config h.config, d)
  | .debug handler => do
    let h ← d.handlers[handler]?
    return (.text h.debugText, d)
  | .join frame sources =>
    let f := Frame.ofBytes (sources.flatMap fun name => (d.frameNamed name).data)
    some (.frame f, { d with frames := store d.frames frame f })
  | .frame frame acts => do
    let f ← frameActs (d.frameNamed frame) acts
    return (.frame f, { d with frames := store d.frames frame f })

/-- steps in order, each with its answer and the desk after it, up to one that stops -/
def run (d : Desk) : List Step → List (Option (Answer × Desk))
  | [] => []
  | s :: ss =>
    match d.step s with
    | some (a, e) => some (a, e) :: run e ss
    | none => [none]

end Desk

end Courier
