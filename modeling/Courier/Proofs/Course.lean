import Courier.Proofs.BuffersUnseen
import Courier.Proofs.Chain
import Courier.Proofs.ReadsLeaveClear
import Courier.Proofs.Workshop

/-!
What the levels of a handler hold in the course of its sessions.

A `Course` follows one handler of a workshop from the moment it is built, together with the message that is suspended on
it, if there is one. The other handlers do what they like. The handler itself keeps to a rule: while nothing is
suspended, messages that can be gone on with are written as the outermost ones or inside containers, and anything that
is no message; while one is suspended, calls on that message alone. A session that has been refused something is bound
to nothing any more, since its end clears all levels. Sessions are opened, closed and dropped, reads refused, and
levels reset, at any time when no other session of the handler is open.

`Levels.Holds` is the invariant: all levels are clear where nothing is suspended, and hold a chain of the message where
one is. `Desk.writeAct_holds` is one act of a session, `Does.stands` one event, `Course.stands` a whole course.
`nesting_invariant`: the main result.
`refused_session_holds_progress`: why a session that has been refused something is left out of it until its end.
-/

namespace Courier

open Writer

/-! ## The rule -/

namespace WriteOp

/-- whether an operation may be made while `p` is suspended -/
def Allowed : WriteOp → Option Message → Prop
  | .debug, _ => True
  | .root m, none => m.resumable = true
  | .root m, some t => m.steady = t.steady
  | .field f, none => f.resumable = true ∧ f.child? = none
  | .field _, some _ => False

/-- the message that is suspended after an operation with this reply -/
def pending (p : Option Message) : WriteOp → WriteReply → Option Message
  | .root m, .finished false => some m
  | .root _, .finished true => none
  | _, _ => p

end WriteOp

namespace Workshop

/-- whether a handler has a write session open that has been refused something -/
def failed (k : Workshop) (i : Nat) : Bool :=
  match k.sessions i with
  | some (.write _ w _) => w.failed
  | _ => false

/-- the levels of a handler, which an open session has with it -/
def levels (k : Workshop) (i : Nat) : Option Levels :=
  match k.sessions i with
  | some (.write _ w _) => some w.nesting.view
  | some (.read _ r) => some r.nesting.view
  | none => k.desk.handlers[i]?.map fun h => h.nesting.view

end Workshop

namespace Event

/-- whether an event keeps to the rule, when `p` is suspended on its handler -/
def Lawful (k : Workshop) (p : Option Message) : Event → Prop
  | .write i a => k.failed i = true ∨ ∃ op, a.op? k.desk.drafts = some op ∧ op.Allowed p
  | _ => True

/-- the message that is suspended after an event: one whose session has failed or is dropped is given up, and so is any
that is reset -/
def pending (k : Workshop) (p : Option Message) : Event → Effect → Option Message
  | .write _ a, .written reply _ _ _ _ failed =>
    match a.op? k.desk.drafts with
    | some op => if failed then none else op.pending p reply
    | none => p
  | .endWrite i ending, _ => if ending = .drop ∨ k.failed i = true then none else p
  | .endRead .., _ => none
  | .reset _, _ => none
  | _, _ => p

/-- events after which nothing is in progress: a call on an outermost message that comes to its end, the end of a write
session that has failed or is dropped, the end of a read session, a reset -/
def Clears (k : Workshop) : Event → Effect → Prop
  | .write i a, .written reply _ _ _ _ _ =>
    k.failed i = false ∧ reply = .finished true ∧ ∃ m, a.op? k.desk.drafts = some (.root m)
  | .endWrite i ending, _ => ending = .drop ∨ k.failed i = true
  | .endRead .., _ => True
  | .reset _, _ => True
  | _, _ => False

end Event

/-- handler `i` in the course of its sessions, and the message that is suspended on it -/
inductive Course (i : Nat) : Workshop → Option Message → Prop
  | start {d : Desk} {factory : Factory} {config : Config} {h : Handler} (built : Handler.build factory config = some h)
    (here : d.handlers[i]? = some h) : Course i (.start d) none
  | other {k l : Workshop} {p : Option Message} {ev : Event} {x : Effect} (before : Course i k p)
    (theirs : ev.handler? ≠ some i) (step : k.step ev = some (x, l)) : Course i l p
  | own {k l : Workshop} {p : Option Message} {ev : Event} {x : Effect} (before : Course i k p)
    (ours : ev.handler? = some i) (lawful : ev.Lawful k p) (step : k.step ev = some (x, l)) :
    Course i l (ev.pending k p x)

/-! ## One act -/

/-- what is in progress on some levels: nothing, or a chain of the message that is suspended -/
def Levels.Holds (s : Levels) : Option Message → Prop
  | none => s = .fresh
  | some t => s.depth = 0 ∧ t.resumable = true ∧ ∃ n, t.Chain s.level 0 n

theorem Levels.holds_fresh : Levels.fresh.Holds none :=
  rfl

/-- an outermost message that may be written stands at the beginning of its chain -/
theorem Levels.Holds.chain {s : Levels} {p : Option Message} (hs : s.Holds p) {m : Message}
    (ha : (WriteOp.root m).Allowed p) : s.depth = 0 ∧ m.resumable = true ∧ ∃ n, m.Chain s.level 0 n := by
  cases p with
  | none =>
    obtain rfl : s = .fresh := hs
    exact ⟨rfl, ha, _, .last m 0 fun _ _ => rfl⟩
  | some t =>
    obtain ⟨h0, ht, n, hn⟩ := hs
    have hsame : m.steady = t.steady := ha
    refine ⟨h0, ?_, n, hn.congr hsame.symm⟩
    calc m.resumable = m.steady.resumable := m.resumable_steady.symm
      _ = t.resumable := by rw [hsame, t.resumable_steady]
      _ = true := ht

/-- a field that is no message leaves clear levels clear, unless its refusal is marked -/
theorem Field.fresh_dispatch {f : Field} (hf : f.resumable = true) (hc : f.child? = none) {order : ByteOrder}
    (hp : (f.dispatch order .fresh).result ≠ .error .panic) (hm : (f.dispatch order .fresh).failed = false) :
    (f.dispatch order .fresh).levels = .fresh := by
  have hspare := Dispatch.spares_field order hf .fresh
  rcases hr : (f.dispatch order .fresh).result with (e | _) | b
  · by_cases hfail : ∃ e, f = .fail e
    · obtain ⟨e, rfl⟩ := hfail
      rfl
    · have hmark := Dispatch.marked_field order (fun e he => hfail ⟨e, he⟩) .fresh e hr
      exact absurd hmark (by rw [hm]; decide)
  · exact absurd hr hp
  · have hshallow := f.trail hf hc order Levels.shallow_fresh hr
    have hdepth : (f.dispatch order .fresh).levels.depth = 0 := hspare.1
    ext i
    · rcases Nat.eq_zero_or_pos i with rfl | hi
      · exact hspare.2 0 (Nat.le_refl _)
      · exact hshallow i (by omega)
    · exact hdepth

/-- an operation that the rule allows, and that is not refused, leaves in progress what it says -/
theorem WriteOp.holds {op : WriteOp} {p : Option Message} {s : Levels} (ha : op.Allowed p) (hs : s.Holds p)
    {order : ByteOrder} {reply : WriteReply} (hr : op.answer (op.dispatch order s).result = some reply)
    (hf : (op.dispatch order s).failed = false) : (op.dispatch order s).levels.Holds (op.pending p reply) := by
  have hp : (op.dispatch order s).result ≠ .error .panic := by
    intro hp
    rw [hp, op.answer_eq_none] at hr
    cases hr
  cases op with
  | debug => exact hs
  | root m =>
    obtain ⟨h0, hm, n, hn⟩ := hs.chain ha
    obtain ⟨hdone, hpaused⟩ := Dispatch.root_trail hm order h0 hn
    have hmark : (Dispatch.root order m s).Marked := .settle _
    change (Dispatch.root order m s).failed = false at hf
    change (Dispatch.root order m s).result ≠ _ at hp
    change answer _ (Dispatch.root order m s).result = _ at hr
    change (Dispatch.root order m s).levels.Holds _
    generalize Dispatch.root order m s = d at hdone hpaused hmark hf hp hr ⊢
    rcases hres : d.result with (e | _) | (_ | _)
    · exact absurd (hmark e hres) (by rw [hf]; decide)
    · exact absurd hres hp
    · rw [hres] at hr
      obtain rfl := Option.some.inj hr
      obtain ⟨hdepth, hchain⟩ := hpaused hres
      exact ⟨hdepth, hm, hchain⟩
    · rw [hres] at hr
      obtain rfl := Option.some.inj hr
      exact hdone hres
  | field f =>
    cases p with
    | some t => cases ha
    | none =>
      obtain ⟨hf', hc⟩ := ha
      obtain rfl : s = .fresh := hs
      exact f.fresh_dispatch hf' hc hp hf

/-- an act that the rule allows, in a session that has not been refused anything since -/
theorem Desk.writeAct_holds {w v : Writer} (hw : w.Inside) {drafts later : List (String × Message)} {a : WriteAct}
    {op : WriteOp} (hop : a.op? drafts = some op) {p : Option Message} (ha : op.Allowed p)
    (hs : w.nesting.view.Holds p) {reply : WriteReply} (h : writeAct w drafts a = (some reply, v, later))
    (hv : v.failed = false) : v.nesting.view.Holds (op.pending p reply) := by
  cases hd : a.tellsCapacity with
  | true =>
    obtain rfl := WriteAct.eq_debug hd
    obtain rfl : WriteOp.debug = op := Option.some.inj hop
    obtain ⟨-, h⟩ := Prod.mk.inj h
    obtain ⟨rfl, -⟩ := Prod.mk.inj h
    exact hs
  | false =>
    obtain ⟨s, hacts⟩ := exists_acts hw hd hop
    rw [hacts.act] at h
    obtain ⟨hreply, h⟩ := Prod.mk.inj h
    obtain ⟨rfl, -⟩ := Prod.mk.inj h
    -- a call that was refused for want of room would have been marked
    have hfits : w.Fits (op.dispatch w.order w.nesting.view).out.peak := by
      by_contra hn
      exact absurd (hacts.carries.crowded hn).2 (by rw [hv]; decide)
    have t := hacts.carries.tells hfits
    have hfailed := t.failed
    rw [hv] at hfailed
    rw [t.levels]
    rw [t.result] at hreply
    exact WriteOp.holds ha hs hreply (Bool.or_eq_false_iff.1 hfailed.symm).2

/-- a call on an outermost message that comes to its end leaves the mark of the session as it was -/
theorem Desk.writeAct_finished {w v : Writer} (hw : w.Inside) {drafts later : List (String × Message)} {a : WriteAct}
    {m : Message} (hop : a.op? drafts = some (.root m))
    (h : writeAct w drafts a = (some (.finished true), v, later)) : v.failed = w.failed := by
  have hd : a.tellsCapacity = false := by
    rw [Bool.eq_false_iff]
    intro hd
    obtain rfl := WriteAct.eq_debug hd
    cases hop
  obtain ⟨s, hacts⟩ := exists_acts hw hd hop
  rw [hacts.act] at h
  obtain ⟨hreply, h⟩ := Prod.mk.inj h
  obtain ⟨rfl, -⟩ := Prod.mk.inj h
  have hsound : ((WriteOp.root m).dispatch w.order w.nesting.view).Sound w.nesting.view :=
    (m.sound w.order w.nesting.view).settle.map _
  rcases hres : s.result with (e | _) | b
  · rw [hres] at hreply
    cases hreply
  · rw [hres] at hreply
    cases hreply
  · exact hacts.carries.calm hsound hres

/-! ## One event -/

namespace Workshop

/-- how a handler stands: what its levels hold, unless its session has been refused something -/
def Stands (k : Workshop) (i : Nat) (p : Option Message) : Prop :=
  match k.sessions i with
  | none => ∃ h, k.desk.handlers[i]? = some h ∧ h.nesting.view.Holds p
  | some (.write _ w _) => w.Inside ∧ (w.failed = false → w.nesting.view.Holds p)
  | some (.read _ r) => r.nesting.view = .fresh

variable {k l : Workshop} {i : Nat} {p : Option Message}

theorem stands_free (hs : k.sessions i = none) :
    k.Stands i p ↔ ∃ h, k.desk.handlers[i]? = some h ∧ h.nesting.view.Holds p := by
  simp only [Stands, hs]

theorem stands_write {f : String} {w : Writer} {log : List Bytes} (hs : k.sessions i = some (.write f w log)) :
    k.Stands i p ↔ w.Inside ∧ (w.failed = false → w.nesting.view.Holds p) := by
  simp only [Stands, hs]

theorem stands_read {f : String} {r : Reader} (hs : k.sessions i = some (.read f r)) :
    k.Stands i p ↔ r.nesting.view = .fresh := by
  simp only [Stands, hs]

/-- a bench put back with no session open -/
theorem stands_putBack {f : String} {b c : Bench} (hb : k.desk.bench i f = some b) (hc : c.handler.nesting.view.Holds p) :
    (k.putBack i f c none).Stands i p := by
  have hlt := (List.getElem?_eq_some_iff.1 (Desk.handler_of_bench hb)).1
  exact (stands_free (Function.update_self ..)).2 ⟨c.handler, List.getElem?_set_self hlt, hc⟩

/-- **One event of a handler that keeps to the rule.** -/
theorem Does.stands {ev : Event} {x : Effect} (h : Does k ev x l) (hi : ev.handler? = some i) (hl : ev.Lawful k p)
    (hk : k.Stands i p) : l.Stands i (ev.pending k p x) := by
  cases h with
  | frame => cases hi
  | openWrite free bench =>
    obtain rfl := Option.some.inj hi
    obtain ⟨g, hg, hold⟩ := (stands_free free).1 hk
    obtain rfl := Option.some.inj (hg.symm.trans (Desk.handler_of_bench bench))
    refine (stands_write (Function.update_self ..)).2 ⟨Bench.inside_openWrite _, fun _ => ?_⟩
    rw [Bench.nesting_openWrite]
    exact hold
  | @write i a f w v log reply drafts session act =>
    obtain rfl := Option.some.inj hi
    obtain ⟨hin, hold⟩ := (stands_write session).1 hk
    have hkeeps := Desk.writeAct_keeps a k.desk.drafts hin
    rw [act] at hkeeps
    refine (stands_write (Function.update_self ..)).2 ⟨hkeeps.inside, fun hv => ?_⟩
    have hw : w.failed = false := by
      cases hwf : w.failed with
      | false => rfl
      | true => exact absurd (hkeeps.failed hwf) (by rw [hv]; decide)
    have hlaw : ∃ op, a.op? k.desk.drafts = some op ∧ op.Allowed p := by
      rcases hl with hfailed | hlaw
      · simp [failed, session, hw] at hfailed
      · exact hlaw
    obtain ⟨op, hop, hallowed⟩ := hlaw
    have hv : v.failed = false := hv
    simp only [Event.pending, Effect.ofWrite, hop, hv, Bool.false_eq_true, if_false]
    exact Desk.writeAct_holds hin hop hallowed (hold hw) act hv
  | @endWrite i ending f w log b c size session bench closed =>
    obtain rfl := Option.some.inj hi
    obtain ⟨hin, hold⟩ := (stands_write session).1 hk
    rw [b.endWrite_eq hin] at closed
    have hfinish : Desk.finish b w ending = (size, c) := Option.some.inj closed
    obtain rfl : (Desk.finish b w ending).2 = c := congrArg Prod.snd hfinish
    have hf : k.failed i = w.failed := by rw [failed, session]
    apply stands_putBack bench
    have hdropped : (b.dropWrite w).handler.nesting.view.Holds none := by
      rw [Bench.nesting_dropWrite, Nesting.view_clear]
      exact Levels.holds_fresh
    cases ending with
    | drop =>
      simp only [Event.pending, true_or, if_true]
      exact hdropped
    | close =>
      simp only [Event.pending, hf, reduceCtorEq, false_or, Desk.finish]
      cases hw : w.failed with
      | true => exact hdropped
      | false => exact hold hw
  | @openRead i f b r free bench opened =>
    obtain rfl := Option.some.inj hi
    obtain ⟨rfl, hfresh⟩ := Bench.openRead_terms opened
    exact (stands_read (Function.update_self ..)).2 hfresh
  | @refused i f b e free bench refused =>
    obtain rfl := Option.some.inj hi
    obtain ⟨g, hg, hold⟩ := (stands_free free).1 hk
    obtain rfl := Option.some.inj (hg.symm.trans (Desk.handler_of_bench bench))
    exact stands_putBack bench hold
  | read session act =>
    obtain rfl := Option.some.inj hi
    have hr := (stands_read session).1 hk
    exact (stands_read (Function.update_self ..)).2 (Reader.run_fresh hr act)
  | @endRead i ending f r b session bench =>
    obtain rfl := Option.some.inj hi
    have hr := (stands_read session).1 hk
    apply stands_putBack bench
    cases ending with
    | close => exact hr
    | drop => exact r.nesting.view_clear
  | @reset i g free handler =>
    obtain rfl := Option.some.inj hi
    have hlt := (List.getElem?_eq_some_iff.1 handler).1
    have hset : (k.desk.handlers.set i g.reset)[i]? = some g.reset := List.getElem?_set_self hlt
    refine (stands_free ?_).2 ⟨g.reset, hset, g.nesting.view_clear⟩
    exact free

/-- an event of another handler, or of none -/
theorem Does.stands_other {ev : Event} {x : Effect} (h : Does k ev x l) (hi : ev.handler? ≠ some i)
    (hk : k.Stands i p) : l.Stands i p := by
  obtain ⟨hs, hh⟩ := h.other hi
  unfold Stands
  rw [hs, hh]
  exact hk

/-- the levels of a handler whose session has not been refused anything; a read session has clear ones -/
theorem Stands.levels (h : k.Stands i p) (hf : k.failed i = false) :
    ∃ s, k.levels i = some s ∧ (s = .fresh ∨ s.Holds p) := by
  rcases hs : k.sessions i with _ | ⟨f, w, log⟩ | ⟨f, r⟩
  · obtain ⟨g, hg, hold⟩ := (stands_free hs).1 h
    exact ⟨g.nesting.view, by simp only [Workshop.levels, hs, hg, Option.map_some], .inr hold⟩
  · simp only [failed, hs] at hf
    exact ⟨w.nesting.view, by simp only [Workshop.levels, hs], .inr (((stands_write hs).1 h).2 hf)⟩
  · exact ⟨r.nesting.view, by simp only [Workshop.levels, hs], .inl ((stands_read hs).1 h)⟩

/-- an event that clears the levels leaves nothing suspended, in a session that has not been refused anything -/
theorem Does.pending_of_clears {ev : Event} {x : Effect} (h : Does k ev x l) (hi : ev.handler? = some i)
    (hl : ev.Lawful k p) (hk : k.Stands i p) (hc : ev.Clears k x) : ev.pending k p x = none ∧ l.failed i = false := by
  cases h with
  | frame | openWrite | openRead | refused | read => cases hc
  | endRead | endWrite =>
    obtain rfl := Option.some.inj hi
    refine ⟨?_, by simp only [failed, putBack, Function.update_self]⟩
    first
      | rfl
      | exact if_pos hc
  | reset free =>
    obtain rfl := Option.some.inj hi
    exact ⟨rfl, by simp only [failed, free]⟩
  | @write i a f w v log reply drafts session act =>
    obtain rfl := Option.some.inj hi
    obtain ⟨hf, rfl, m, hop⟩ := hc
    obtain ⟨hin, -⟩ := (stands_write session).1 hk
    have hw : w.failed = false := by simpa only [failed, session] using hf
    have hv : v.failed = false := (Desk.writeAct_finished hin hop act).trans hw
    refine ⟨?_, by simp only [failed, Function.update_self, hv]⟩
    simp only [Event.pending, Effect.ofWrite, hop, hv, Bool.false_eq_true, if_false, WriteOp.pending]

end Workshop

/-! ## A whole course -/

namespace Workshop

/-- the workshop after some events of one handler, and what is suspended on it then -/
def follow (k : Workshop) (p : Option Message) : List Event → Option (Workshop × Option Message)
  | [] => some (k, p)
  | ev :: evs => (k.step ev).bind fun y => y.2.follow (ev.pending k p y.1) evs

/-- whether they all keep to the rule -/
def LawfulRun (k : Workshop) (p : Option Message) : List Event → Prop
  | [] => True
  | ev :: evs => ev.Lawful k p ∧ ∀ x l, k.step ev = some (x, l) → LawfulRun l (ev.pending k p x) evs

end Workshop

theorem Course.follow {i : Nat} {events : List Event} {k l : Workshop} {p q : Option Message} (hc : Course i k p)
    (hi : ∀ ev ∈ events, ev.handler? = some i) (hl : k.LawfulRun p events) (h : k.follow p events = some (l, q)) :
    Course i l q := by
  induction events generalizing k p with
  | nil =>
    obtain ⟨rfl, rfl⟩ := Prod.mk.inj (Option.some.inj h)
    exact hc
  | cons ev events ih =>
    obtain ⟨⟨x, m⟩, hstep, h⟩ := Option.bind_eq_some_iff.1 h
    obtain ⟨hlaw, hrest⟩ := hl
    exact ih (hc.own (hi ev List.mem_cons_self) hlaw hstep) (fun ev hev => hi ev (List.mem_cons_of_mem _ hev))
      (hrest x m hstep) h

/-- **The invariant holds in the course of all sessions.** -/
theorem Course.stands {i : Nat} {k : Workshop} {p : Option Message} (h : Course i k p) : k.Stands i p := by
  induction h with
  | @start d factory config g built here =>
    obtain ⟨-, -, -, hfresh⟩ := Handler.proper_build built
    exact (Workshop.stands_free rfl).2 ⟨g, here, hfresh⟩
  | other before theirs step ih => exact (Workshop.does_of_step step).stands_other theirs ih
  | own before ours lawful step ih => exact (Workshop.does_of_step step).stands ours lawful ih

namespace Workshop

variable {k l : Workshop} {i : Nat} {p : Option Message}

/-- what the levels hold, told level by level -/
theorem levels_of_holds {s : Levels} (h : s = .fresh ∨ s.Holds p) :
    s.depth = 0 ∧ (p = none → s = .fresh) ∧ ∀ t, p = some t → ∃ n,
      (∀ j < n, (s.level j).headerWritten = true ∧ (t.down s.level (j + 1)).isSome = true) ∧
      ∀ j, n < j → s.level j = .blank := by
  rcases h with rfl | h
  · exact ⟨rfl, fun _ => rfl, fun t _ => ⟨0, nofun, fun _ _ => rfl⟩⟩
  · cases p with
    | none =>
      obtain rfl : s = .fresh := h
      exact ⟨rfl, fun _ => rfl, nofun⟩
    | some t =>
      obtain ⟨h0, -, n, hn⟩ := h
      refine ⟨h0, nofun, fun u hu => ?_⟩
      obtain rfl := Option.some.inj hu
      obtain ⟨hpass, hclear⟩ := hn.down (t := t) rfl
      exact ⟨n, fun j hj => hpass j (Nat.zero_le j) hj, hclear⟩

/-- **The nesting invariant of a handler.** In the course of its sessions, and always between two of them, a handler
stands at depth zero, unless it has a session open that has been refused something. If nothing is suspended, all levels
are clear. If a message is, there is a level such that each above it has its header out and its cursor on the nested
message in which the suspended message goes on, and each below it is clear.

Between sessions, a finalized frame is refused to a read session exactly where some level holds progress. The refusal
tells the deepest of these, and leaves the handlers, the frames and the sessions as they were.

All levels are clear at the end of a write session that has failed or is dropped, at the end of a read session, and
after a reset. A call on an outermost message that comes to its end clears them at once, in a session that has not been
refused anything before; in one that has, the end of the session does. -/
theorem nesting_invariant (hc : Course i k p) :
    (k.failed i = false → ∃ s, k.levels i = some s ∧ s.depth = 0 ∧ (p = none → s = .fresh) ∧
      ∀ t, p = some t → ∃ n,
        (∀ j < n, (s.level j).headerWritten = true ∧ (t.down s.level (j + 1)).isSome = true) ∧
        ∀ j, n < j → s.level j = .blank) ∧
    (k.sessions i = none → k.failed i = false ∧ ∃ h, k.desk.handlers[i]? = some h ∧
      k.levels i = some h.nesting.view ∧ ∀ f, (k.desk.frameNamed f).isFinalized = true →
        ((∀ j, h.nesting.level j = .blank) → ∃ l, k.step (.openRead i f) = some (.opened, l)) ∧
        ((∃ j, h.nesting.level j ≠ .blank) → ∃ n l, k.step (.openRead i f) = some (.refused (.writeSuspended n), l) ∧
          h.nesting.level n ≠ .blank ∧ (∀ j, n < j → h.nesting.level j = .blank) ∧
          l.desk.handlers = k.desk.handlers ∧ (∀ g, l.desk.frameNamed g = k.desk.frameNamed g) ∧
          l.sessions = k.sessions)) ∧
    ∀ ev x l, ev.handler? = some i → ev.Lawful k p → k.step ev = some (x, l) → ev.Clears k x →
      l.levels i = some .fresh := by
  have hk := hc.stands
  refine ⟨fun hf => ?_, fun hs => ?_, fun ev x l hi hl hstep hclears => ?_⟩
  · obtain ⟨s, hs, hold⟩ := hk.levels hf
    exact ⟨s, hs, levels_of_holds hold⟩
  · obtain ⟨h, hh, hold⟩ := (stands_free hs).1 hk
    have hdepth : h.nesting.depth = 0 := (levels_of_holds (.inr hold)).1
    refine ⟨by simp only [failed, hs], h, hh, by simp only [levels, hs, hh, Option.map_some], fun f hf => ?_⟩
    have hb : k.desk.bench i f = some ⟨h, k.desk.shared, k.desk.frameNamed f⟩ := by rw [Desk.bench, hh, Option.map_some]
    constructor
    · intro hclear
      obtain ⟨r, hr⟩ := Bench.openRead_fresh (b := ⟨h, k.desk.shared, k.desk.frameNamed f⟩) hf
        (Levels.ext (funext hclear) hdepth)
      refine ⟨k.hold i (some (.read f r)), ?_⟩
      simp only [step, hs, openRead, hb, Option.map_some, hr]
    · intro hprogress
      obtain ⟨n, hr, hdeep, hbelow⟩ := Bench.openRead_suspended (b := ⟨h, k.desk.shared, k.desk.frameNamed f⟩) hf hdepth
        hprogress
      obtain ⟨hhandlers, hframes⟩ := Desk.putBack_bench hb
      have hsame : Function.update k.sessions i none = k.sessions := by rw [← hs, Function.update_eq_self]
      refine ⟨n, k.putBack i f ⟨h, k.desk.shared, k.desk.frameNamed f⟩ none, ?_, hdeep, hbelow, hhandlers, hframes, hsame⟩
      simp only [step, hs, openRead, hb, Option.map_some, hr]
  · have hdoes := does_of_step hstep
    obtain ⟨hnone, hf⟩ := hdoes.pending_of_clears hi hl hk hclears
    have hstands := hdoes.stands hi hl hk
    rw [hnone] at hstands
    obtain ⟨s, hs, rfl | rfl⟩ := hstands.levels hf
    · exact hs
    · exact hs

/-- a node whose leaf pauses as soon as its header is out -/
def pausingNode : Message :=
  .mk .node [.data (.int 5), .message (some (.mk .leaf [.data (.long 7), .data (.string "leaf")] [1]))] []

/-- a desk with one handler that has just been built -/
def courseDesk : Desk where
  handlers := (Handler.build (fun _ => none) .standard).toList
  shared := .ofMax 0
  frames := []
  drafts := []

theorem course_courseDesk : Course 0 (start courseDesk) none := by
  obtain ⟨h, hb⟩ : ∃ h, Handler.build (fun _ => none) .standard = some h := ⟨_, rfl⟩
  exact .start hb (by simp only [courseDesk, hb]; rfl)

/-- a write session of one call on that node -/
def pausingSession : List Event :=
  [.openWrite 0 "a", .write 0 (.op (.root pausingNode)), .endWrite 0 .close]

theorem pausing_node_in_course :
    ∃ k t, Course 0 k (some t) ∧ k.sessions 0 = none ∧
      (∃ s n, k.levels 0 = some s ∧ s.depth = 0 ∧
        (∀ j < n, (s.level j).headerWritten = true ∧ (t.down s.level (j + 1)).isSome = true) ∧
        ∀ j, n < j → s.level j = .blank) ∧
      (∃ n l, k.step (.openRead 0 "a") = some (.refused (.writeSuspended n), l) ∧
        l.desk.handlers = k.desk.handlers) ∧
      ∃ x l, k.step (.reset 0) = some (x, l) ∧ l.levels 0 = some .fresh := by
  have hresumable : pausingNode.resumable = true := by decide
  have hlaw : (start courseDesk).LawfulRun none pausingSession :=
    ⟨trivial, fun _ _ _ => ⟨.inr ⟨_, rfl, hresumable⟩, fun _ _ _ => ⟨trivial, fun _ _ _ => trivial⟩⟩⟩
  have hcheck : ((start courseDesk).follow none pausingSession).any (fun y => y.2.isSome && (y.1.sessions 0).isNone &&
      (y.1.desk.frameNamed "a").isFinalized && (y.1.step (.reset 0)).isSome &&
      (y.1.levels 0).any fun s => s.level 1 != .blank) = true := by decide +kernel
  obtain ⟨⟨k, q⟩, hfollow, hy⟩ := (Option.any_eq_true _ _).1 hcheck
  simp only [Bool.and_eq_true, Option.isSome_iff_exists, Option.isNone_iff_eq_none] at hy
  obtain ⟨⟨⟨⟨⟨t, rfl⟩, hfree⟩, hframe⟩, ⟨⟨x, l⟩, hreset⟩⟩, hlevel⟩ := hy
  have hc := course_courseDesk.follow (by simp [pausingSession, Event.handler?]) hlaw hfollow
  obtain ⟨hinv, hbetween, hclears⟩ := nesting_invariant hc
  obtain ⟨hf, g, hg, hlev, hread⟩ := hbetween hfree
  obtain ⟨s, hs, hdepth, -, hchain⟩ := hinv hf
  obtain ⟨n, hn⟩ := hchain t rfl
  have hprogress : ∃ j, g.nesting.level j ≠ .blank := by
    rw [hlev, Option.any_some, bne_iff_ne] at hlevel
    exact ⟨1, hlevel⟩
  obtain ⟨m, r, hr, -, -, hhandlers, -⟩ := (hread "a" hframe).2 hprogress
  exact ⟨k, t, hc, hfree, ⟨s, n, hs, hdepth, hn⟩, ⟨m, r, hr, hhandlers⟩, x, l, hreset,
    hclears (.reset 0) x l rfl trivial hreset trivial⟩

/-- a node that is refused inside its leaf, behind the leaf's number -/
def refusedNode : Message :=
  .mk .node [.message (some (.mk .leaf [.data (.long 7), .fail (.typeMismatch "string" "null")] []))] []

/-- a write session that has been refused that node -/
def refusedSession : List Event :=
  [.openWrite 0 "a", .write 0 (.op (.root refusedNode))]

/-- another outermost message, which comes to its end in one call -/
def nextRoot : Event :=
  .write 0 (.op (.root (.leaf 9 none)))

/-- **A refused session may call an outermost message to its end and still hold progress.** The node is refused inside
its leaf, which has its header out and its first field. The message that is written next in the same session goes on
where the node stood and comes to its end; this clears the outermost level, and the leaf's is left. -/
theorem refused_session_holds_progress :
    ∃ k x l s, Course 0 k none ∧ nextRoot.Lawful k none ∧ k.step nextRoot = some (x, l) ∧
      x.reply? = some (.finished true) ∧ l.levels 0 = some s ∧ s.depth = 0 ∧ s.level 0 = .blank ∧
      s.level 1 = ⟨1, true⟩ := by
  have hresumable : refusedNode.resumable = true := by decide
  have hlaw : (start courseDesk).LawfulRun none refusedSession :=
    ⟨trivial, fun _ _ _ => ⟨.inr ⟨_, rfl, hresumable⟩, fun _ _ _ => trivial⟩⟩
  have hleaf : (Message.leaf 9 none).resumable = true := by decide
  have hcheck : ((start courseDesk).follow none refusedSession).any (fun y => y.2.isNone &&
      (y.1.step nextRoot).any fun z => z.1.reply? == some (.finished true) &&
        (z.2.levels 0).any fun s => s.depth == 0 && s.level 0 == .blank && s.level 1 == ⟨1, true⟩) = true := by
    decide +kernel
  obtain ⟨⟨k, q⟩, hfollow, hy⟩ := (Option.any_eq_true _ _).1 hcheck
  simp only [Bool.and_eq_true, Option.isNone_iff_eq_none] at hy
  obtain ⟨rfl, hy⟩ := hy
  obtain ⟨⟨x, l⟩, hstep, hz⟩ := (Option.any_eq_true _ _).1 hy
  simp only [Bool.and_eq_true, beq_iff_eq] at hz
  obtain ⟨hreply, hlevels⟩ := hz
  obtain ⟨s, hs, hlevels⟩ := (Option.any_eq_true _ _).1 hlevels
  simp only [Bool.and_eq_true, beq_iff_eq] at hlevels
  obtain ⟨⟨hdepth, hfirst⟩, hsecond⟩ := hlevels
  have hc := course_courseDesk.follow (by simp [refusedSession, Event.handler?]) hlaw hfollow
  exact ⟨k, x, l, s, hc, .inr ⟨_, rfl, hleaf⟩, hstep, hreply, hs, hdepth, hfirst, hsecond⟩

end Workshop

end Courier
