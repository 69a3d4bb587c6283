import Courier.Proofs.Local
import Courier.Proofs.Session

/-!
Several sessions at once on one thread.

A step of a `Desk` is a whole session. Here the sessions of several handlers may be open at the same time, and what is
done with them comes event by event in any order: a session is opened, acts are made one at a time, the session is
ended. A handler has one session at most, and the cache of the thread is whatever the others have left it. An open write
session keeps a log of the encodings of its acts; nothing reads the log but the answer that ends the session.

What an act comes to is the dispatch of an operation: `WriteAct.op?` finds the message that an act names, and
`Desk.exists_acts` says that the act carries the dispatch of that operation.

`does_of_step`: all that an event can come to.
`WriteOp.encoding_local`: what an operation puts out depends on the levels it uses only.
`after_write`, `after_read`: the events of one session in a row come to the step of the desk.
-/

namespace Courier

open Writer

/-! ## Operations -/

namespace WriteOp

/-- what an operation comes to, worked out from the byte order and the levels -/
def dispatch (order : ByteOrder) : WriteOp → Levels → Dispatch WriteOp
  | .field f, s => (f.dispatch order s).map .field
  | .root m, s => (Dispatch.root order m s).map .root
  | .debug, s => .stay .debug (.ok true) s

/-- the bytes that an operation puts out -/
def encoding (order : ByteOrder) (op : WriteOp) (s : Levels) : Bytes :=
  (op.dispatch order s).out.bytes

/-- whether an operation uses the level that is so many below the one at hand -/
def uses : WriteOp → Nat → Prop
  | .field f => f.uses
  | .root m => m.uses
  | .debug => fun _ => False

/-- the reply of an operation that came to this -/
def answer : WriteOp → Except Fault Bool → Option WriteReply
  | .field (.message _), r => WriteReply.ofCall r
  | .root _, r => WriteReply.ofCall r
  | _, r => WriteReply.ofAct r

/-- **What an operation puts out depends on its arguments, the byte order and the levels it uses.** -/
theorem encoding_local (order : ByteOrder) (op : WriteOp) {s t : Levels} (h : Levels.AgreeOn op.uses s t) :
    op.encoding order s = op.encoding order t := by
  cases op with
  | field f => exact congrArg Output.bytes (f.local order f.uses (fun _ hn => hn) s t h).out
  | root m => exact congrArg Output.bytes (m.local order m.uses (fun _ hn => hn) s t h).settle.out
  | debug => rfl

theorem answer_eq_none (op : WriteOp) : op.answer (.error .panic) = none := by
  cases op with
  | field f => cases f <;> rfl
  | root m => rfl
  | debug => rfl

end WriteOp

namespace WriteAct

/-- whether an act reports how large the buffer is -/
def tellsCapacity : WriteAct → Bool
  | .op .debug => true
  | _ => false

theorem eq_debug {a : WriteAct} (h : a.tellsCapacity = true) : a = .op .debug := by
  unfold tellsCapacity at h
  split at h
  · rfl
  · cases h

/-- the operation that an act is, with the message that it names -/
def op? (drafts : List (String × Message)) : WriteAct → Option WriteOp
  | .op o => some o
  | .rootDraft name => (Desk.lookUp drafts name).map WriteOp.root
  | .messageDraft name => (Desk.lookUp drafts name).map fun m => WriteOp.field (.message (some m))

/-- the messages kept after an act, once its operation is left like this -/
def keep (drafts : List (String × Message)) : WriteAct → WriteOp → List (String × Message)
  | .rootDraft name, .root m => Desk.store drafts name m
  | .messageDraft name, .field (.message (some m)) => Desk.store drafts name m
  | _, _ => drafts

/-- the bytes that an act puts out -/
def encoding (order : ByteOrder) (drafts : List (String × Message)) (s : Levels) (a : WriteAct) : Bytes :=
  match a.op? drafts with
  | some o => o.encoding order s
  | none => []

end WriteAct

namespace Desk

/-- what an act comes to, when it is known which operation it is -/
structure Acts (w : Writer) (drafts : List (String × Message)) (a : WriteAct) (op : WriteOp) (s : Sent WriteOp) :
    Prop where
  act : writeAct w drafts a = (op.answer s.result, s.writer, a.keep drafts s.left)
  carries : Carries w s (op.dispatch w.order w.nesting.view)

/-- an act that names a message that is not kept is a stop -/
theorem writeAct_stop {drafts : List (String × Message)} {a : WriteAct} (h : a.op? drafts = none) (w : Writer) :
    (writeAct w drafts a).1 = none := by
  cases a with
  | op o => cases h
  | rootDraft name | messageDraft name =>
    have hm := Option.map_eq_none_iff.1 h
    simp only [writeAct, hm]

/-- any other act carries the dispatch of its operation -/
theorem exists_acts {w : Writer} (hw : w.Inside) {drafts : List (String × Message)} {a : WriteAct}
    (ha : a.tellsCapacity = false) {op : WriteOp} (hop : a.op? drafts = some op) : ∃ s, Acts w drafts a op s := by
  have hroot : ∀ m, Carries w ((w.writeRoot m).map WriteOp.root) ((WriteOp.root m).dispatch w.order w.nesting.view) :=
    fun m => (carries_writeRoot m hw).map _
  have hfield : ∀ f : Field,
      Carries w ((f.write w).map WriteOp.field) ((WriteOp.field f).dispatch w.order w.nesting.view) :=
    fun f => (f.carries hw).map _
  cases a with
  | op o =>
    obtain rfl : o = op := Option.some.inj hop
    cases o with
    | debug => cases ha
    | root m => exact ⟨_, rfl, hroot m⟩
    | field f => exact ⟨_, by cases f <;> rfl, hfield f⟩
  | rootDraft name =>
    obtain ⟨m, hm, rfl⟩ := Option.map_eq_some_iff.1 hop
    refine ⟨_, ?_, hroot m⟩
    simp only [writeAct, hm]
    rfl
  | messageDraft name =>
    obtain ⟨m, hm, rfl⟩ := Option.map_eq_some_iff.1 hop
    refine ⟨_, ?_, hfield (.message (some m))⟩
    simp only [writeAct, hm, Field.write]
    rfl

/-- an act that is answered is an operation -/
theorem exists_op {w v : Writer} {drafts later : List (String × Message)} {a : WriteAct} {reply : WriteReply}
    (h : writeAct w drafts a = (some reply, v, later)) : ∃ op, a.op? drafts = some op := by
  cases hop : a.op? drafts with
  | some op => exact ⟨op, rfl⟩
  | none =>
    have hstop := writeAct_stop hop w
    rw [h] at hstop
    cases hstop

/-- the desk with other messages kept -/
def keeping (d : Desk) (drafts : List (String × Message)) : Desk :=
  { d with drafts := drafts }

theorem store_store {α : Type} (es : List (String × α)) (name : String) (a b : α) :
    store (store es name a) name b = store es name b := by
  induction es with
  | nil => simp [store]
  | cons e es ih =>
    rw [store, store]
    split
    · simp [store]
    · rename_i h
      rw [store, if_neg h, ih]

theorem putBack_putBack (d : Desk) (i : Nat) (f : String) (b c : Bench) :
    (d.putBack i f b).putBack i f c = d.putBack i f c := by
  simp only [putBack, List.set_set, store_store]

/-- the handler of a bench -/
theorem handler_of_bench {d : Desk} {i : Nat} {f : String} {b : Bench} (hb : d.bench i f = some b) :
    d.handlers[i]? = some b.handler := by
  obtain ⟨h, hh, rfl⟩ := Option.map_eq_some_iff.1 hb
  exact hh

theorem bench_of_handler {d : Desk} {i : Nat} {h : Handler} (hh : d.handlers[i]? = some h) (f : String) :
    d.bench i f = some ⟨h, d.shared, d.frameNamed f⟩ := by
  rw [bench, hh]
  rfl

/-- a bench that has been put back is there again -/
theorem bench_putBack {d : Desk} {i : Nat} {f : String} {b : Bench} (hb : d.bench i f = some b) (c : Bench) :
    (d.putBack i f c).bench i f = some c := by
  have hlt := (List.getElem?_eq_some_iff.1 (handler_of_bench hb)).1
  simp only [bench, putBack, frameNamed, List.getElem?_set_self hlt, lookUp_store_self, Option.map_some,
    Option.getD_some]

/-- a bench that is put back as it was taken changes neither handlers nor frames -/
theorem putBack_bench {d : Desk} {i : Nat} {f : String} {b : Bench} (hb : d.bench i f = some b) :
    (d.putBack i f b).handlers = d.handlers ∧ ∀ g, (d.putBack i f b).frameNamed g = d.frameNamed g := by
  obtain ⟨h, hh, rfl⟩ := Option.map_eq_some_iff.1 hb
  obtain ⟨hlt, rfl⟩ := List.getElem?_eq_some_iff.1 hh
  refine ⟨List.set_getElem_self hlt, fun g => ?_⟩
  change (lookUp (store d.frames f (d.frameNamed f)) g).getD .empty = _
  by_cases hg : g = f
  · rw [hg, lookUp_store_self, Option.getD_some]
  · rw [lookUp_store_of_ne _ _ hg]
    rfl

end Desk

/-- the end of a write session; `none` is a stop -/
def Bench.endWrite (b : Bench) (w : Writer) : Ending → Option (Option Nat × Bench)
  | .close => (b.closeWrite w).map fun x => (some x.1, x.2)
  | .drop => some (none, b.dropWrite w)

theorem Bench.endWrite_eq (b : Bench) {w : Writer} (hw : w.Inside) (ending : Ending) :
    b.endWrite w ending = some (Desk.finish b w ending) := by
  cases ending with
  | drop => rfl
  | close =>
    simp only [endWrite, closeWrite_eq b hw, Option.map_some, Desk.finish]
    split <;> rfl

/-! ## Events -/

/-- an open session, with the frame it was opened on -/
inductive Session where
  | write (frame : String) (w : Writer) (encodings : List Bytes)
  | read (frame : String) (r : Reader)

/-- a thread with the session that each of its handlers has open -/
structure Workshop where
  desk : Desk
  sessions : Nat → Option Session

inductive Event where
  | openWrite (handler : Nat) (frame : String)
  | write (handler : Nat) (act : WriteAct)
  | endWrite (handler : Nat) (ending : Ending)
  | openRead (handler : Nat) (frame : String)
  | read (handler : Nat) (kind : FieldKind)
  | endRead (handler : Nat) (ending : Ending)
  | reset (handler : Nat)
  /-- an act on a frame from outside a session -/
  | frame (frame : String) (act : FrameAct)

/-- the handler that an event is about -/
def Event.handler? : Event → Option Nat
  | .openWrite i _ | .write i _ | .endWrite i _ | .openRead i _ | .read i _ | .endRead i _ | .reset i => some i
  | .frame .. => none

/-- whether an event reports how large a buffer is -/
def Event.tellsCapacity : Event → Bool
  | .write _ a => a.tellsCapacity
  | _ => false

/-- what an event is answered -/
inductive Effect where
  | opened
  | refused (e : WireError)
  | written (reply : WriteReply) (position depth cursor : Nat) (headerWritten failed : Bool)
  | received (r : Received)
  /-- the end of a write session, with the number of bytes that closing it answers -/
  | ended (size : Option Nat) (frame : Frame) (encodings : List Bytes)
  /-- the end of a read session -/
  | done (frame : Frame)
  | reset
  | frame (reply : FrameReply) (frame : Frame)

/-- the reply of an act of a write session -/
def Effect.reply? : Effect → Option WriteReply
  | .written reply .. => some reply
  | _ => none

/-- a reply of a write session that now stands so -/
def Effect.ofWrite (reply : WriteReply) (w : Writer) : Effect :=
  .written reply w.position w.depth w.cursor w.headerWritten w.failed

namespace Workshop

/-- a desk with no session open -/
def start (d : Desk) : Workshop :=
  ⟨d, fun _ => none⟩

/-- the workshop with another session of a handler -/
def hold (k : Workshop) (i : Nat) (s : Option Session) : Workshop :=
  { k with sessions := Function.update k.sessions i s }

/-- a bench put back, and what its handler then has open -/
def putBack (k : Workshop) (i : Nat) (f : String) (b : Bench) (s : Option Session) : Workshop :=
  ⟨k.desk.putBack i f b, Function.update k.sessions i s⟩

def openWrite (k : Workshop) (i : Nat) (f : String) : Option (Effect × Workshop) :=
  (k.desk.bench i f).map fun b => (.opened, k.putBack i f b.openWrite.2 (some (.write f b.openWrite.1 [])))

/-- an act of an open write session -/
def write (k : Workshop) (i : Nat) (f : String) (w : Writer) (log : List Bytes) (a : WriteAct) :
    Option (Effect × Workshop) :=
  let (reply, v, drafts) := Desk.writeAct w k.desk.drafts a
  let encoding := a.encoding w.order k.desk.drafts w.nesting.view
  reply.map fun reply =>
    (.ofWrite reply v, ⟨k.desk.keeping drafts, Function.update k.sessions i (some (.write f v (log ++ [encoding])))⟩)

def endWrite (k : Workshop) (i : Nat) (f : String) (w : Writer) (log : List Bytes) (ending : Ending) :
    Option (Effect × Workshop) :=
  (k.desk.bench i f).bind fun b => (b.endWrite w ending).map fun x =>
    (.ended x.1 x.2.frame log, k.putBack i f x.2 none)

def openRead (k : Workshop) (i : Nat) (f : String) : Option (Effect × Workshop) :=
  (k.desk.bench i f).map fun b =>
    match b.openRead with
    | .ok r => (.opened, k.hold i (some (.read f r)))
    | .error e => (.refused e, k.putBack i f b none)

/-- an act of an open read session -/
def read (k : Workshop) (i : Nat) (f : String) (r : Reader) (kind : FieldKind) : Option (Effect × Workshop) :=
  let (reply, s) := r.run kind
  reply.map fun reply => (.received (.of reply s), k.hold i (some (.read f s)))

def endRead (k : Workshop) (i : Nat) (f : String) (r : Reader) (ending : Ending) : Option (Effect × Workshop) :=
  (k.desk.bench i f).map fun b =>
    (.done (Desk.finishRead b r ending).frame, k.putBack i f (Desk.finishRead b r ending) none)

def reset (k : Workshop) (i : Nat) : Option (Effect × Workshop) :=
  k.desk.handlers[i]?.map fun h =>
    (.reset, { k with desk := { k.desk with handlers := k.desk.handlers.set i h.reset } })

def frame (k : Workshop) (f : String) (a : FrameAct) : Option (Effect × Workshop) :=
  (a.run (k.desk.frameNamed f)).map fun x =>
    (.frame x.1 x.2, { k with desk := { k.desk with frames := Desk.store k.desk.frames f x.2 } })

/-- the answer of an event and the workshop after it; `none` is a stop, or an event out of place -/
def step (k : Workshop) : Event → Option (Effect × Workshop)
  | .openWrite i f =>
    match k.sessions i with
    | none => k.openWrite i f
    | some _ => none
  | .write i a =>
    match k.sessions i with
    | some (.write f w log) => k.write i f w log a
    | _ => none
  | .endWrite i ending =>
    match k.sessions i with
    | some (.write f w log) => k.endWrite i f w log ending
    | _ => none
  | .openRead i f =>
    match k.sessions i with
    | none => k.openRead i f
    | some _ => none
  | .read i kind =>
    match k.sessions i with
    | some (.read f r) => k.read i f r kind
    | _ => none
  | .endRead i ending =>
    match k.sessions i with
    | some (.read f r) => k.endRead i f r ending
    | _ => none
  | .reset i =>
    match k.sessions i with
    | none => k.reset i
    | some _ => none
  | .frame f a => k.frame f a

/-- all that an event can come to -/
inductive Does (k : Workshop) : Event → Effect → Workshop → Prop
  | openWrite {i : Nat} {f : String} {b : Bench} (free : k.sessions i = none) (bench : k.desk.bench i f = some b) :
    Does k (.openWrite i f) .opened (k.putBack i f b.openWrite.2 (some (.write f b.openWrite.1 [])))
  | write {i : Nat} {a : WriteAct} {f : String} {w v : Writer} {log : List Bytes} {reply : WriteReply}
    {drafts : List (String × Message)} (session : k.sessions i = some (.write f w log))
    (act : Desk.writeAct w k.desk.drafts a = (some reply, v, drafts)) :
    Does k (.write i a) (.ofWrite reply v) ⟨k.desk.keeping drafts, Function.update k.sessions i
      (some (.write f v (log ++ [a.encoding w.order k.desk.drafts w.nesting.view])))⟩
  | endWrite {i : Nat} {ending : Ending} {f : String} {w : Writer} {log : List Bytes} {b c : Bench} {size : Option Nat}
    (session : k.sessions i = some (.write f w log)) (bench : k.desk.bench i f = some b)
    (closed : b.endWrite w ending = some (size, c)) :
    Does k (.endWrite i ending) (.ended size c.frame log) (k.putBack i f c none)
  | openRead {i : Nat} {f : String} {b : Bench} {r : Reader} (free : k.sessions i = none)
    (bench : k.desk.bench i f = some b) (opened : b.openRead = .ok r) :
    Does k (.openRead i f) .opened (k.hold i (some (.read f r)))
  | refused {i : Nat} {f : String} {b : Bench} {e : WireError} (free : k.sessions i = none)
    (bench : k.desk.bench i f = some b) (refused : b.openRead = .error e) :
    Does k (.openRead i f) (.refused e) (k.putBack i f b none)
  | read {i : Nat} {kind : FieldKind} {f : String} {r s : Reader} {reply : Except WireError Field}
    (session : k.sessions i = some (.read f r)) (act : r.run kind = (some reply, s)) :
    Does k (.read i kind) (.received (.of reply s)) (k.hold i (some (.read f s)))
  | endRead {i : Nat} {ending : Ending} {f : String} {r : Reader} {b : Bench}
    (session : k.sessions i = some (.read f r)) (bench : k.desk.bench i f = some b) :
    Does k (.endRead i ending) (.done (Desk.finishRead b r ending).frame)
      (k.putBack i f (Desk.finishRead b r ending) none)
  | reset {i : Nat} {h : Handler} (free : k.sessions i = none) (handler : k.desk.handlers[i]? = some h) :
    Does k (.reset i) .reset { k with desk := { k.desk with handlers := k.desk.handlers.set i h.reset } }
  | frame {f : String} {a : FrameAct} {reply : FrameReply} {g : Frame}
    (act : a.run (k.desk.frameNamed f) = some (reply, g)) :
    Does k (.frame f a) (.frame reply g) { k with desk := { k.desk with frames := Desk.store k.desk.frames f g } }

theorem does_of_step {k l : Workshop} {ev : Event} {x : Effect} (h : k.step ev = some (x, l)) : Does k ev x l := by
  cases ev with
  | openWrite i f =>
    rcases hs : k.sessions i with _ | s <;> simp only [step, hs, reduceCtorEq] at h
    obtain ⟨b, hb, h⟩ := Option.map_eq_some_iff.1 h
    obtain ⟨rfl, rfl⟩ := Prod.mk.inj h
    exact .openWrite hs hb
  | write i a =>
    rcases hs : k.sessions i with _ | ⟨f, w, log⟩ | ⟨f, r⟩ <;> simp only [step, hs, reduceCtorEq] at h
    unfold write at h
    rcases ha : Desk.writeAct w k.desk.drafts a with ⟨_ | reply, v, drafts⟩ <;> simp only [ha] at h
    · cases h
    · obtain ⟨rfl, rfl⟩ := Prod.mk.inj (Option.some.inj h)
      exact .write hs ha
  | endWrite i ending =>
    rcases hs : k.sessions i with _ | ⟨f, w, log⟩ | ⟨f, r⟩ <;> simp only [step, hs, reduceCtorEq] at h
    obtain ⟨b, hb, h⟩ := Option.bind_eq_some_iff.1 h
    obtain ⟨⟨size, c⟩, hc, h⟩ := Option.map_eq_some_iff.1 h
    obtain ⟨rfl, rfl⟩ := Prod.mk.inj h
    exact .endWrite hs hb hc
  | openRead i f =>
    rcases hs : k.sessions i with _ | s <;> simp only [step, hs, reduceCtorEq] at h
    obtain ⟨b, hb, h⟩ := Option.map_eq_some_iff.1 h
    rcases hr : b.openRead with e | r <;> simp only [hr] at h <;> obtain ⟨rfl, rfl⟩ := Prod.mk.inj h
    · exact .refused hs hb hr
    · exact .openRead hs hb hr
  | read i kind =>
    rcases hs : k.sessions i with _ | ⟨f, w, log⟩ | ⟨f, r⟩ <;> simp only [step, hs, reduceCtorEq] at h
    unfold read at h
    rcases ha : r.run kind with ⟨_ | reply, s⟩ <;> simp only [ha] at h
    · cases h
    · obtain ⟨rfl, rfl⟩ := Prod.mk.inj (Option.some.inj h)
      exact .read hs ha
  | endRead i ending =>
    rcases hs : k.sessions i with _ | ⟨f, w, log⟩ | ⟨f, r⟩ <;> simp only [step, hs, reduceCtorEq] at h
    obtain ⟨b, hb, h⟩ := Option.map_eq_some_iff.1 h
    obtain ⟨rfl, rfl⟩ := Prod.mk.inj h
    exact .endRead hs hb
  | reset i =>
    rcases hs : k.sessions i with _ | s <;> simp only [step, hs, reduceCtorEq] at h
    obtain ⟨g, hg, h⟩ := Option.map_eq_some_iff.1 h
    obtain ⟨rfl, rfl⟩ := Prod.mk.inj h
    exact .reset hs hg
  | frame f a =>
    obtain ⟨⟨reply, g⟩, hg, h⟩ := Option.map_eq_some_iff.1 h
    obtain ⟨rfl, rfl⟩ := Prod.mk.inj h
    exact .frame hg

/-- an act adds the encoding of its operation to the log of its session -/
theorem log_of_write {k l : Workshop} {i : Nat} {f : String} {w : Writer} {log : List Bytes} {a : WriteAct} {x : Effect}
    (hs : k.sessions i = some (.write f w log)) (h : k.step (.write i a) = some (x, l)) :
    ∃ op v, a.op? k.desk.drafts = some op ∧
      l.sessions i = some (.write f v (log ++ [op.encoding w.order w.nesting.view])) := by
  cases does_of_step h with
  | @write _ _ _ _ v _ reply drafts session act =>
    obtain ⟨rfl, rfl, rfl⟩ := Session.write.inj (Option.some.inj (hs.symm.trans session))
    obtain ⟨op, hop⟩ := Desk.exists_op act
    refine ⟨op, v, hop, ?_⟩
    simp only [Function.update_self, WriteAct.encoding, hop]

/-- an event of one handler leaves the others and their sessions alone -/
theorem Does.other {k l : Workshop} {ev : Event} {x : Effect} (h : Does k ev x l) {i : Nat} (hi : ev.handler? ≠ some i) :
    l.sessions i = k.sessions i ∧ l.desk.handlers[i]? = k.desk.handlers[i]? := by
  have hne : ∀ {j : Nat}, some j ≠ some i → i ≠ j := fun hj hij => hj (congrArg some hij.symm)
  cases h with
  | frame => exact ⟨rfl, rfl⟩
  | write | read => exact ⟨Function.update_of_ne (hne hi) .., rfl⟩
  | openRead => exact ⟨Function.update_of_ne (hne hi) .., rfl⟩
  | openWrite | endWrite | refused | endRead =>
    exact ⟨Function.update_of_ne (hne hi) .., List.getElem?_set_ne (hne hi).symm⟩
  | reset => exact ⟨rfl, List.getElem?_set_ne (hne hi).symm⟩

/-- events in order, each with its answer and the workshop after it, up to one that stops -/
def run (k : Workshop) : List Event → List (Option (Effect × Workshop))
  | [] => []
  | ev :: evs =>
    match k.step ev with
    | some x => some x :: run x.2 evs
    | none => [none]

/-- the workshop after some events, unless one of them stops -/
def after (k : Workshop) : List Event → Option Workshop
  | [] => some k
  | ev :: evs => (k.step ev).bind fun x => x.2.after evs

theorem after_append (k : Workshop) (evs fvs : List Event) :
    k.after (evs ++ fvs) = (k.after evs).bind fun l => l.after fvs := by
  induction evs generalizing k with
  | nil => rfl
  | cons ev evs ih =>
    rw [List.cons_append, after, after]
    cases k.step ev with
    | none => rfl
    | some x => exact ih x.2

/-! ## One session in a row -/

/-- the acts of a write session, one event each -/
theorem after_acts {k : Workshop} {i : Nat} {f : String} {w : Writer} {log : List Bytes}
    (hk : k.sessions i = some (.write f w log)) (acts : List WriteAct) :
    ∃ later, k.after (acts.map (.write i)) = (Desk.writeActs w k.desk.drafts acts).map fun x =>
      ⟨k.desk.keeping x.2.2, Function.update k.sessions i (some (.write f x.2.1 later))⟩ := by
  induction acts generalizing k w log with
  | nil =>
    refine ⟨log, ?_⟩
    have hs : Function.update k.sessions i (some (.write f w log)) = k.sessions := by rw [← hk, Function.update_eq_self]
    simp only [List.map_nil, after, Desk.writeActs, Option.map_some, hs]
    rfl
  | cons a acts ih =>
    rw [List.map_cons, after, Desk.writeActs]
    simp only [step, hk, write]
    rcases Desk.writeAct w k.desk.drafts a with ⟨_ | reply, v, drafts⟩
    · exact ⟨log, rfl⟩
    · obtain ⟨later, h⟩ := ih (k := ⟨k.desk.keeping drafts, Function.update k.sessions i
        (some (.write f v (log ++ [a.encoding w.order k.desk.drafts w.nesting.view])))⟩) (Function.update_self ..)
      refine ⟨later, ?_⟩
      simp only [Option.map_some, Option.bind_some, h, Option.map_map, Function.update_idem]
      rfl

/-- the acts of a read session, one event each -/
theorem after_kinds {k : Workshop} {i : Nat} {f : String} {r : Reader} (hk : k.sessions i = some (.read f r))
    (kinds : List FieldKind) :
    k.after (kinds.map (.read i)) = (Desk.readKinds r kinds).map fun x => k.hold i (some (.read f x.2)) := by
  induction kinds generalizing k r with
  | nil =>
    have hs : Function.update k.sessions i (some (.read f r)) = k.sessions := by rw [← hk, Function.update_eq_self]
    simp only [List.map_nil, after, Desk.readKinds, Option.map_some, hold, hs]
  | cons kind kinds ih =>
    rw [List.map_cons, after, Desk.readKinds]
    simp only [step, hk, read]
    rcases r.run kind with ⟨_ | reply, s⟩
    · rfl
    · have h := ih (k := k.hold i (some (.read f s))) (r := s) (Function.update_self ..)
      simp only [Option.map_some, Option.bind_some, h, Option.map_map]
      congr 1
      funext x
      simp only [Function.comp_apply, hold, Function.update_idem]

theorem after_endWrite {k : Workshop} {i : Nat} {f : String} {w : Writer} {log : List Bytes}
    (hk : k.sessions i = some (.write f w log)) (hw : w.Inside) {b : Bench} (hb : k.desk.bench i f = some b)
    (ending : Ending) : k.after [.endWrite i ending] = some (k.putBack i f (Desk.finish b w ending).2 none) := by
  simp only [after, step, hk, endWrite, hb, Option.bind_some, b.endWrite_eq hw, Option.map_some]

theorem after_endRead {k : Workshop} {i : Nat} {f : String} {r : Reader} (hk : k.sessions i = some (.read f r))
    {b : Bench} (hb : k.desk.bench i f = some b) (ending : Ending) :
    k.after [.endRead i ending] = some (k.putBack i f (Desk.finishRead b r ending) none) := by
  simp only [after, step, hk, endRead, hb, Option.map_some, Option.bind_some]

theorem update_start (d : Desk) (i : Nat) : Function.update (start d).sessions i none = (start d).sessions :=
  Function.update_eq_self i (start d).sessions

/-- **The events of a write session in a row come to the write step of the desk.** -/
theorem after_write (d : Desk) (i : Nat) (f : String) (acts : List WriteAct) (ending : Ending) :
    (start d).after (.openWrite i f :: acts.map (.write i) ++ [.endWrite i ending]) =
      (d.step (.write i f acts ending)).map fun x => start x.2 := by
  rw [List.cons_append, after, Desk.step_write_eq]
  change Option.bind (Option.map _ (d.bench i f)) _ = _
  cases hb : d.bench i f with
  | none => rfl
  | some b =>
    simp only [Option.map_some, Option.bind_some]
    obtain ⟨later, hacts⟩ := after_acts (k := (start d).putBack i f b.openWrite.2 (some (.write f b.openWrite.1 [])))
      (Function.update_self ..) acts
    rw [after_append, hacts]
    change Option.bind (Option.map _ (Desk.writeActs b.openWrite.1 d.drafts acts)) _ = _
    cases hw : Desk.writeActs b.openWrite.1 d.drafts acts with
    | none => rfl
    | some x =>
      obtain ⟨ws, v, drafts⟩ := x
      have hin : v.Inside := (Desk.writeActs_keeps b.inside_openWrite hw).inside
      have hbench : ((d.putBack i f b.openWrite.2).keeping drafts).bench i f = some b.openWrite.2 :=
        Desk.bench_putBack hb _
      rw [Option.map_some, Option.bind_some, after_endWrite (Function.update_self ..) hin hbench]
      simp only [Option.map_some]
      generalize Desk.finish b.openWrite.2 v ending = x
      have hback : ((d.putBack i f b.openWrite.2).keeping drafts).putBack i f x.2 =
          (d.putBack i f x.2).keeping drafts :=
        congrArg (Desk.keeping · drafts) (d.putBack_putBack i f _ _)
      simp only [putBack, Function.update_idem, update_start]
      exact congrArg (some <| start ·) hback

/-- **The events of a read session in a row come to the read step of the desk.** -/
theorem after_read (d : Desk) (i : Nat) (f : String) (kinds : List FieldKind) (ending : Ending) {b : Bench} {r : Reader}
    (hb : d.bench i f = some b) (hr : b.openRead = .ok r) :
    (start d).after (.openRead i f :: kinds.map (.read i) ++ [.endRead i ending]) =
      (d.step (.read i f kinds ending)).map fun x => start x.2 := by
  rw [List.cons_append, after, Desk.step_read_eq, hb]
  have hopen : (start d).step (.openRead i f) = some (.opened, (start d).hold i (some (.read f r))) := by
    change Option.map _ (d.bench i f) = _
    simp only [hb, Option.map_some, hr]
  rw [hopen, Option.bind_some, after_append, after_kinds (Function.update_self ..)]
  simp only [Option.bind_some, hr]
  cases Desk.readKinds r kinds with
  | none => rfl
  | some x =>
    rw [Option.map_some, Option.bind_some, after_endRead (Function.update_self ..) (b := b) hb]
    simp only [hold, putBack, Function.update_idem, update_start]
    rfl

end Workshop

end Courier
