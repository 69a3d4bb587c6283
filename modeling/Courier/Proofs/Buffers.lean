import Courier.Proofs.NoTrace
import Courier.Proofs.Workshop

/-!
Buffers, caches and initial sizes never show.

Two threads run side by side. Their handlers are `Kin`: the factory, the byte order, the length bound and the progress
are the same, while the sizes that sessions start with, the levels allocated, the scopes, and whatever lies in the
caches are any. Sessions of them that have done the same are `Apace`: the frame and the levels are the same, and what
either has written is what their one log tells, so that no byte of a buffer that was there before counts.

Room is what could tell the two apart, since a cache may hold a buffer that is larger than the largest one made. An
event `fits` if its operation finds room in the latter.

`Carries.logs`: a call adds to the log what its dispatch puts out.
`Workshop.Kin.step`, `Workshop.Kin.run`: one event, and events in a row.
`buffers_never_show`: the main result.
-/

namespace Courier

open Writer

namespace Writer

variable {α : Type}

/-- what a session has written is what a log tells, unless it has been refused something -/
structure Logs (w : Writer) (log : List Bytes) : Prop where
  inside : w.Inside
  unfinished : w.frame.size = none
  written : w.failed = false → w.written = log.flatten

/-- a call adds to the log what its dispatch puts out -/
theorem Carries.logs {w : Writer} {s : Sent α} {d : Dispatch α} {log : List Bytes} (h : Carries w s d)
    (hl : Logs w log) (hf : w.Fits d.out.peak) (hd : d.Marked ∨ d.out.bytes = []) (hr : s.result ≠ .error .panic) :
    Logs s.writer (log ++ [d.out.bytes]) where
  inside := h.keeps.inside
  unfinished := by
    rw [h.keeps.frame]
    exact hl.unfinished
  written hs := by
    have t := h.tells hf
    have hw : w.failed = false := by
      cases hwf : w.failed with
      | false => rfl
      | true => exact absurd (h.keeps.failed hwf) (by rw [hs]; decide)
    simp only [List.flatten_append, List.flatten_cons, List.flatten_nil, List.append_nil, ← hl.written hw]
    rcases hres : s.result with (e | _) | b
    · rcases hd with hm | hnil
      · exact absurd (h.marks hm hres) (by rw [hs]; decide)
      · -- a refusal that is not marked: nothing was put out, so the position has not moved
        have hp : s.writer.position = w.position := by rw [t.position, hnil]; rfl
        rw [hnil, List.append_nil, Writer.written, hp]
        exact h.keeps.front
    · exact absurd hres hr
    · exact t.written b (t.result.symm.trans hres)

/-- sessions that stand the same and have written what one log tells -/
structure Apace (w v : Writer) (log : List Bytes) : Prop where
  frame : w.frame = v.frame
  order : w.order = v.order
  failed : w.failed = v.failed
  levels : w.nesting.view = v.nesting.view
  left : Logs w log
  right : Logs v log

namespace Apace

variable {w v : Writer} {log : List Bytes}

theorem position (h : Apace w v log) : w.position = v.position :=
  congrArg Frame.position h.frame

/-- an answer tells where a session stands, and that is the same -/
theorem effect (h : Apace w v log) (reply : WriteReply) : Effect.ofWrite reply w = Effect.ofWrite reply v := by
  have hc : w.nesting.cursor = v.nesting.cursor := by rw [← Nesting.cursor_view, h.levels, Nesting.cursor_view]
  have hh : w.nesting.headerWritten = v.nesting.headerWritten := by
    rw [← Nesting.headerWritten_view, h.levels, Nesting.headerWritten_view]
  have hd : w.nesting.depth = v.nesting.depth := congrArg Levels.depth h.levels
  simp only [Effect.ofWrite, h.position, h.failed, depth, cursor, headerWritten, hc, hh, hd]

/-- calls that carry one dispatch, where there is room for it in the largest buffer that is made -/
theorem call (h : Apace w v log) {s t : Sent α} {d : Dispatch α} (hs : Carries w s d) (ht : Carries v t d)
    (hroom : w.position + d.out.peak ≤ maxBufferSize) (hd : d.Marked ∨ d.out.bytes = []) :
    s.result = t.result ∧ s.left = t.left ∧
      (s.result ≠ .error .panic → Apace s.writer t.writer (log ++ [d.out.bytes])) := by
  have hfw : w.Fits d.out.peak := Nat.le_trans hroom (Nat.le_max_right ..)
  have hfv : v.Fits d.out.peak := Nat.le_trans (h.position ▸ hroom) (Nat.le_max_right ..)
  have tw := hs.tells hfw
  have tv := ht.tells hfv
  have hres : s.result = t.result := tw.result.trans tv.result.symm
  refine ⟨hres, tw.left.trans tv.left.symm, fun hp => ?_⟩
  refine ⟨?_, ?_, ?_, tw.levels.trans tv.levels.symm, hs.logs h.left hfw hd hp, ht.logs h.right hfv hd (hres ▸ hp)⟩
  · rw [hs.keeps.frame, ht.keeps.frame, tw.position, tv.position, h.frame, h.position]
  · rw [hs.keeps.order, ht.keeps.order, h.order]
  · rw [tw.failed, tv.failed, h.failed]

end Apace

end Writer

/-- an operation that is refused marks the session, unless it does nothing but refuse -/
theorem WriteOp.marked_or_silent (order : ByteOrder) (op : WriteOp) (s : Levels) :
    (op.dispatch order s).Marked ∨ (op.dispatch order s).out.bytes = [] := by
  cases op with
  | root m => exact .inl (Dispatch.Marked.settle (m.dispatch order s))
  | debug => exact .inr rfl
  | field f =>
    by_cases hf : ∃ e, f = .fail e
    · obtain ⟨e, rfl⟩ := hf
      exact .inr rfl
    · exact .inl (Dispatch.marked_field order (fun e he => hf ⟨e, he⟩) s)

/-! ## Handlers, benches and desks -/

/-- handlers that are built with settings of the same byte order and length bound, whatever is in their caches -/
theorem Handler.kin_build {factory : Factory} {x y : Config} {h g : Handler} (hh : build factory x = some h)
    (hg : build factory y = some g) (horder : x.byteOrder = y.byteOrder) (hlength : x.maxLength = y.maxLength)
    (c d : BufferCache) : Kin { h with cache := c } { g with cache := d } := by
  obtain ⟨-, hhf, hhc, hhn⟩ := proper_build hh
  obtain ⟨-, hgf, hgc, hgn⟩ := proper_build hg
  refine ⟨hhf.trans hgf.symm, ?_, ?_, hhn.trans hgn.symm⟩
  · simp only [hhc, hgc, Config.normalize, horder]
  · simp only [hhc, hgc, Config.normalize, hlength]

namespace Bench.Kin

variable {b c : Bench}

theorem openWrite (h : b.Kin c) : b.openWrite.2.Kin c.openWrite.2 := by
  refine ⟨⟨?_, ?_, ?_, ?_⟩, ?_⟩
  · rw [factory_openWrite, factory_openWrite, h.handler.factory]
  · rw [config_openWrite, config_openWrite, h.handler.order]
  · rw [config_openWrite, config_openWrite, h.handler.maxLength]
  · rw [openWrite_eq, openWrite_eq]
    dsimp only
    rw [nesting_acquire, nesting_acquire, h.handler.levels]
  · rw [openWrite_eq, openWrite_eq]
    exact congrArg Frame.beginWrite h.frame

theorem logs_openWrite (b : Bench) : Logs b.openWrite.1 [] :=
  ⟨b.inside_openWrite, by rw [frame_openWrite]; rfl, fun _ => b.written_openWrite⟩

theorem apace_openWrite (h : b.Kin c) : Apace b.openWrite.1 c.openWrite.1 [] where
  frame := by rw [frame_openWrite, frame_openWrite, h.frame]
  order := by rw [order_openWrite, order_openWrite, h.handler.order]
  failed := by rw [failed_openWrite, failed_openWrite]
  levels := by rw [nesting_openWrite, nesting_openWrite, h.handler.levels]
  left := logs_openWrite b
  right := logs_openWrite c

theorem dropWrite (h : b.Kin c) {w v : Writer} {log : List Bytes} (hw : Apace w v log) :
    (b.dropWrite w).Kin (c.dropWrite v) := by
  refine ⟨⟨?_, ?_, ?_, ?_⟩, hw.frame⟩
  · rw [factory_dropWrite, factory_dropWrite, h.handler.factory]
  · rw [config_dropWrite, config_dropWrite, h.handler.order]
  · rw [config_dropWrite, config_dropWrite, h.handler.maxLength]
  · rw [nesting_dropWrite, nesting_dropWrite, Nesting.view_clear, Nesting.view_clear]

theorem finishWrite (h : b.Kin c) {w v : Writer} {log : List Bytes} (hw : Apace w v log) (hf : w.failed = false) :
    (b.finishWrite w).Kin (c.finishWrite v) := by
  refine ⟨⟨?_, ?_, ?_, hw.levels⟩, ?_⟩
  · rw [factory_finishWrite, factory_finishWrite, h.handler.factory]
  · rw [config_finishWrite, config_finishWrite, h.handler.order]
  · rw [config_finishWrite, config_finishWrite, h.handler.maxLength]
  · change w.frame.finish w.written = v.frame.finish v.written
    rw [hw.left.written hf, hw.right.written (hw.failed ▸ hf), hw.frame]

/-- sessions that have kept apace end the same; a frame that is finalized holds what the log tells -/
theorem finish (h : b.Kin c) {w v : Writer} {log : List Bytes} (hw : Apace w v log) (ending : Ending) :
    (Desk.finish b w ending).1 = (Desk.finish c v ending).1 ∧
      ((Desk.finish b w ending).2.frame.isFinalized = true → (Desk.finish b w ending).2.frame.data = log.flatten) ∧
      (Desk.finish b w ending).2.Kin (Desk.finish c v ending).2 := by
  have hopen : (b.dropWrite w).frame.isFinalized = true → (b.dropWrite w).frame.data = log.flatten := by
    rw [frame_dropWrite, Frame.isFinalized, hw.left.unfinished]
    nofun
  cases ending with
  | drop => exact ⟨rfl, hopen, h.dropWrite hw⟩
  | close =>
    simp only [Desk.finish, ← hw.failed]
    cases hf : w.failed with
    | true => exact ⟨rfl, hopen, h.dropWrite hw⟩
    | false => exact ⟨congrArg some hw.position, fun _ => hw.left.written hf, h.finishWrite hw hf⟩

theorem finishRead (h : b.Kin c) {r s : Reader} (hr : Reader.Alike r s) (ending : Ending) :
    (Desk.finishRead b r ending).Kin (Desk.finishRead c s ending) := by
  cases ending with
  | close => exact ⟨⟨h.handler.factory, h.handler.order, h.handler.maxLength, hr.levels⟩, hr.frame⟩
  | drop =>
    refine ⟨⟨h.handler.factory, h.handler.order, h.handler.maxLength, ?_⟩, hr.frame⟩
    exact r.nesting.view_clear.trans s.nesting.view_clear.symm

end Bench.Kin

/-- desks of such handlers, with the same frames and the same messages kept; the caches of the threads are any -/
structure Desk.Kin (d e : Desk) : Prop where
  handlers : List.Forall₂ Handler.Kin d.handlers e.handlers
  frames : d.frames = e.frames
  drafts : d.drafts = e.drafts

namespace Desk.Kin

variable {d e : Desk}

theorem bench (h : d.Kin e) (i : Nat) (f : String) : Option.Rel Bench.Kin (d.bench i f) (e.bench i f) :=
  rel_map (forall₂_getElem? h.handlers i) fun hg => ⟨hg, by rw [frameNamed, frameNamed, h.frames]⟩

theorem putBack (h : d.Kin e) {b c : Bench} (hb : b.Kin c) (i : Nat) (f : String) :
    (d.putBack i f b).Kin (e.putBack i f c) :=
  ⟨forall₂_set h.handlers hb.handler i, congrArg₂ (store · f) h.frames hb.frame, h.drafts⟩

theorem keeping (h : d.Kin e) (drafts : List (String × Message)) : (d.keeping drafts).Kin (e.keeping drafts) :=
  ⟨h.handlers, h.frames, rfl⟩

end Desk.Kin

/-! ## One event -/

/-- sessions that have done the same -/
inductive Session.Kin : Session → Session → Prop
  | write (f : String) {w v : Writer} {log : List Bytes} (h : Apace w v log) : Kin (.write f w log) (.write f v log)
  | read (f : String) {r s : Reader} (h : Reader.Alike r s) : Kin (.read f r) (.read f s)

/-- what an answer says of a frame that has been finalized: it holds the encodings of its session one behind another -/
def Effect.Sound : Effect → Prop
  | .ended _ f encodings => f.isFinalized = true → f.data = encodings.flatten
  | _ => True

namespace Workshop

/-- whether an event finds room for its operation in the largest buffer that is made -/
def fits (k : Workshop) : Event → Bool
  | .write i a =>
    match k.sessions i, a.op? k.desk.drafts with
    | some (.write _ w _), some op =>
      decide (w.position + (op.dispatch w.order w.nesting.view).out.peak ≤ maxBufferSize)
    | _, _ => true
  | _ => true

/-- whether all events in a row do, up to one that stops -/
def roomy (k : Workshop) : List Event → Bool
  | [] => true
  | ev :: evs => k.fits ev && match k.step ev with
    | some x => x.2.roomy evs
    | none => true

structure Kin (k l : Workshop) : Prop where
  desk : k.desk.Kin l.desk
  sessions : ∀ i, Option.Rel Session.Kin (k.sessions i) (l.sessions i)

/-- outcomes of an event that are answered the same -/
def Outcome (x y : Effect × Workshop) : Prop :=
  x.1 = y.1 ∧ x.1.Sound ∧ x.2.Kin y.2

namespace Kin

variable {k l : Workshop}

/-- a desk and one session after an event; the other sessions are as they were -/
theorem update (h : k.Kin l) {d e : Desk} (hd : d.Kin e) (i : Nat) {s t : Option Session}
    (hs : Option.Rel Session.Kin s t) :
    Kin ⟨d, Function.update k.sessions i s⟩ ⟨e, Function.update l.sessions i t⟩ := by
  refine ⟨hd, fun j => ?_⟩
  by_cases hj : j = i
  · subst hj
    simpa only [Function.update_self] using hs
  · simpa only [Function.update_of_ne hj] using h.sessions j

theorem openWrite (h : k.Kin l) (i : Nat) (f : String) :
    Option.Rel Outcome (k.openWrite i f) (l.openWrite i f) :=
  rel_map (h.desk.bench i f) fun hb =>
    ⟨rfl, trivial, h.update (h.desk.putBack hb.openWrite i f) i (.some (.write f hb.apace_openWrite))⟩

theorem write (h : k.Kin l) (i : Nat) (f : String) {w v : Writer} {log : List Bytes} (hw : Apace w v log) {a : WriteAct}
    (ha : a.tellsCapacity = false)
    (hroom : ∀ op, a.op? k.desk.drafts = some op →
      w.position + (op.dispatch w.order w.nesting.view).out.peak ≤ maxBufferSize) :
    Option.Rel Outcome (k.write i f w log a) (l.write i f v log a) := by
  unfold Workshop.write
  rw [← h.desk.drafts, ← hw.order, ← hw.levels]
  cases hop : a.op? k.desk.drafts with
  | none =>
    simp only [Desk.writeAct_stop hop, Option.map_none]
    exact .none
  | some op =>
    obtain ⟨s, hs⟩ := Desk.exists_acts hw.left.inside ha hop
    obtain ⟨t, ht⟩ := Desk.exists_acts hw.right.inside ha hop
    have hcarries := ht.carries
    rw [← hw.order, ← hw.levels] at hcarries
    obtain ⟨hres, hleft, hgo⟩ := hw.call hs.carries hcarries (hroom op hop) (op.marked_or_silent ..)
    simp only [hs.act, ht.act, ← hres, ← hleft]
    cases hreply : op.answer s.result with
    | none => exact .none
    | some reply =>
      have hp : s.result ≠ .error .panic := by
        intro hp
        rw [hp, op.answer_eq_none] at hreply
        cases hreply
      have hlog : a.encoding w.order k.desk.drafts w.nesting.view =
          (op.dispatch w.order w.nesting.view).out.bytes := by
        rw [WriteAct.encoding, hop]
        rfl
      have hgo := hgo hp
      rw [← hlog] at hgo
      exact .some ⟨hgo.effect reply, trivial, h.update (h.desk.keeping _) i (.some (.write f hgo))⟩

theorem endWrite (h : k.Kin l) (i : Nat) (f : String) {w v : Writer} {log : List Bytes} (hw : Apace w v log)
    (ending : Ending) : Option.Rel Outcome (k.endWrite i f w log ending) (l.endWrite i f v log ending) := by
  apply rel_bind (h.desk.bench i f)
  intro b c hb
  obtain ⟨hsize, hdata, hkin⟩ := hb.finish hw ending
  rw [b.endWrite_eq hw.left.inside, c.endWrite_eq hw.right.inside]
  exact .some ⟨congrArg₂ (Effect.ended · · log) hsize hkin.frame, hdata, h.update (h.desk.putBack hkin i f) i .none⟩

theorem openRead (h : k.Kin l) (i : Nat) (f : String) : Option.Rel Outcome (k.openRead i f) (l.openRead i f) := by
  apply rel_map (h.desk.bench i f)
  intro b c hb
  have ho := hb.openRead
  generalize b.openRead = x at ho
  generalize c.openRead = y at ho
  cases ho with
  | refused e => exact ⟨rfl, trivial, h.update (h.desk.putBack hb i f) i .none⟩
  | opened hr => exact ⟨rfl, trivial, h.update h.desk i (.some (.read f hr))⟩

theorem read (h : k.Kin l) (i : Nat) (f : String) {r s : Reader} (hr : Reader.Alike r s) (kind : FieldKind) :
    Option.Rel Outcome (k.read i f r kind) (l.read i f s kind) := by
  have hrun := Reader.run_alike hr kind
  unfold Workshop.read
  generalize r.run kind = x at hrun
  generalize s.run kind = y at hrun
  obtain ⟨reply, r⟩ := x
  obtain ⟨reply', s⟩ := y
  obtain ⟨rfl, hr⟩ : reply = reply' ∧ Reader.Alike r s := hrun
  cases reply with
  | none => exact .none
  | some reply =>
    have hof : Received.of reply r = Received.of reply s := by
      simp only [Received.of, Reader.position, Reader.remaining, hr.frame, hr.depth]
    exact .some ⟨congrArg Effect.received hof, trivial, h.update h.desk i (.some (.read f hr))⟩

theorem endRead (h : k.Kin l) (i : Nat) (f : String) {r s : Reader} (hr : Reader.Alike r s) (ending : Ending) :
    Option.Rel Outcome (k.endRead i f r ending) (l.endRead i f s ending) :=
  rel_map (h.desk.bench i f) fun hb =>
    have hkin := hb.finishRead hr ending
    ⟨congrArg Effect.done hkin.frame, trivial, h.update (h.desk.putBack hkin i f) i .none⟩

theorem reset (h : k.Kin l) (i : Nat) : Option.Rel Outcome (k.reset i) (l.reset i) := by
  apply rel_map (forall₂_getElem? h.desk.handlers i)
  intro g g' hg
  have hclear : g.reset.Kin g'.reset :=
    ⟨hg.factory, hg.order, hg.maxLength, g.nesting.view_clear.trans g'.nesting.view_clear.symm⟩
  exact ⟨rfl, trivial, ⟨forall₂_set h.desk.handlers hclear i, h.desk.frames, h.desk.drafts⟩, h.sessions⟩

theorem frame (h : k.Kin l) (f : String) (a : FrameAct) : Option.Rel Outcome (k.frame f a) (l.frame f a) := by
  have hf : k.desk.frameNamed f = l.desk.frameNamed f := by rw [Desk.frameNamed, Desk.frameNamed, h.desk.frames]
  unfold Workshop.frame
  rw [hf]
  cases a.run (l.desk.frameNamed f) with
  | none => exact .none
  | some x =>
    have hframes := congrArg (Desk.store · f x.2) h.desk.frames
    exact .some ⟨rfl, trivial, ⟨h.desk.handlers, hframes, h.desk.drafts⟩, h.sessions⟩

/-- what a handler has open on either side -/
theorem session (h : k.Kin l) (i : Nat) :
    (k.sessions i = none ∧ l.sessions i = none) ∨
      (∃ f w v log, k.sessions i = some (.write f w log) ∧ l.sessions i = some (.write f v log) ∧ Apace w v log) ∨
      ∃ f r s, k.sessions i = some (.read f r) ∧ l.sessions i = some (.read f s) ∧ Reader.Alike r s := by
  have hs := h.sessions i
  generalize k.sessions i = x at hs
  generalize l.sessions i = y at hs
  rcases hs with (⟨f, hw⟩ | ⟨f, hr⟩) | _
  · exact .inr (.inl ⟨f, _, _, _, rfl, rfl, hw⟩)
  · exact .inr (.inr ⟨f, _, _, rfl, rfl, hr⟩)
  · exact .inl ⟨rfl, rfl⟩

/-- **An event is answered the same.** -/
theorem step (h : k.Kin l) {ev : Event} (ht : ev.tellsCapacity = false) (hfits : k.fits ev = true) :
    Option.Rel Outcome (k.step ev) (l.step ev) := by
  cases ev with
  | openWrite i f =>
    rcases h.session i with ⟨hk, hl⟩ | ⟨_, _, _, _, hk, hl, -⟩ | ⟨_, _, _, hk, hl, -⟩ <;>
      simp only [Workshop.step, hk, hl]
    · exact h.openWrite i f
    all_goals exact .none
  | write i a =>
    rcases h.session i with ⟨hk, hl⟩ | ⟨f, w, v, log, hk, hl, hw⟩ | ⟨_, _, _, hk, hl, -⟩ <;>
      simp only [Workshop.step, hk, hl]
    · exact .none
    · refine h.write i f hw ht fun op hop => ?_
      simp only [fits, hk, hop, decide_eq_true_eq] at hfits
      exact hfits
    · exact .none
  | endWrite i ending =>
    rcases h.session i with ⟨hk, hl⟩ | ⟨f, w, v, log, hk, hl, hw⟩ | ⟨_, _, _, hk, hl, -⟩ <;>
      simp only [Workshop.step, hk, hl]
    · exact .none
    · exact h.endWrite i f hw ending
    · exact .none
  | openRead i f =>
    rcases h.session i with ⟨hk, hl⟩ | ⟨_, _, _, _, hk, hl, -⟩ | ⟨_, _, _, hk, hl, -⟩ <;>
      simp only [Workshop.step, hk, hl]
    · exact h.openRead i f
    all_goals exact .none
  | read i kind =>
    rcases h.session i with ⟨hk, hl⟩ | ⟨_, _, _, _, hk, hl, -⟩ | ⟨f, r, s, hk, hl, hr⟩ <;>
      simp only [Workshop.step, hk, hl]
    · exact .none
    · exact .none
    · exact h.read i f hr kind
  | endRead i ending =>
    rcases h.session i with ⟨hk, hl⟩ | ⟨_, _, _, _, hk, hl, -⟩ | ⟨f, r, s, hk, hl, hr⟩ <;>
      simp only [Workshop.step, hk, hl]
    · exact .none
    · exact .none
    · exact h.endRead i f hr ending
  | reset i =>
    rcases h.session i with ⟨hk, hl⟩ | ⟨_, _, _, _, hk, hl, -⟩ | ⟨_, _, _, hk, hl, -⟩ <;>
      simp only [Workshop.step, hk, hl]
    · exact h.reset i
    all_goals exact .none
  | frame f a => exact h.frame f a

/-- **Events in a row are answered the same.** -/
theorem run (h : k.Kin l) {events : List Event} (ht : ∀ ev ∈ events, ev.tellsCapacity = false)
    (hr : k.roomy events = true) : List.Forall₂ (Option.Rel Outcome) (k.run events) (l.run events) := by
  induction events generalizing k l with
  | nil => exact .nil
  | cons ev events ih =>
    rw [roomy, Bool.and_eq_true] at hr
    obtain ⟨hfits, hrest⟩ := hr
    have hs := h.step (ht ev List.mem_cons_self) hfits
    rw [Workshop.run, Workshop.run]
    generalize k.step ev = x at hs hrest
    generalize l.step ev = y at hs
    rcases hs with hxy | _
    · exact .cons (.some hxy) (ih hxy.2.2 (fun ev hev => ht ev (List.mem_cons_of_mem _ hev)) hrest)
    · exact .cons .none .nil

end Kin

/-- **Buffers, caches and initial sizes never show.** Two threads whose handlers differ in their sizes, in their scopes
and in what their caches hold answer the same events the same, in whatever order the sessions of the handlers come and
go; frames are left the same; and a frame that a write session finalizes holds what the log of that session tells, one
encoding behind another. Each act of a session adds the encoding of its operation to the log. That encoding depends on
the arguments of the operation, on the byte order and on the progress of the levels that the operation uses.

Left out are events that tell the size of a buffer, and operations that need more room than the largest buffer that is
made. -/
theorem buffers_never_show {d e : Desk} (h : d.Kin e) {events : List Event}
    (ht : ∀ ev ∈ events, ev.tellsCapacity = false) (hr : (start d).roomy events = true) :
    List.Forall₂ (Option.Rel fun x y => x.1 = y.1 ∧ x.1.Sound ∧ x.2.desk.frames = y.2.desk.frames)
        ((start d).run events) ((start e).run events) ∧
      (∀ {k l : Workshop} {i : Nat} {f : String} {w : Writer} {log : List Bytes} {a : WriteAct} {x : Effect},
        k.sessions i = some (.write f w log) → k.step (.write i a) = some (x, l) →
        ∃ op v, a.op? k.desk.drafts = some op ∧
          l.sessions i = some (.write f v (log ++ [op.encoding w.order w.nesting.view]))) ∧
      ∀ (order : ByteOrder) (op : WriteOp) (s t : Levels), Levels.AgreeOn op.uses s t →
        op.encoding order s = op.encoding order t := by
  have hstart : (start d).Kin (start e) := ⟨h, fun _ => .none⟩
  refine ⟨(hstart.run ht hr).imp ?_, log_of_write, fun order op _ _ hst => op.encoding_local order hst⟩
  rintro _ _ (hxy | _)
  · exact .some ⟨hxy.1, hxy.2.1, hxy.2.2.desk.frames⟩
  · exact .none

/-- two handlers that know nodes, with these settings and with a buffer of `n` bytes in each of the three caches -/
def pairedDesk (x y : Config) (n : Nat) (stale : UInt8) : Desk where
  handlers := [x, y].filterMap fun c => (Handler.build (.ofList [(2, .node)]) c).map fun h =>
    { h with cache := ⟨some (.filled n stale), c.maxCachedBuffer⟩ }
  shared := ⟨some (.filled n stale), n⟩
  frames := []
  drafts := [("m", .mk .node [.data (.int 5), .message (some (.leaf 7 (some "leaf")))] [1])]

/-- settings of a handler with its own cache -/
def ampleConfig : Config :=
  { Config.standard with initialBufferSize := 64, initialStateDepth := 4, cacheScope := .handler }

/-- settings of a handler that shares the cache of its thread -/
def thriftyConfig : Config :=
  { Config.standard with initialBufferSize := 1, initialStateDepth := 1, maxCachedBuffer := 16, cacheScope := .thread }

/-- two write sessions that overlap, one with a message that takes two calls, and a read session while one is open -/
def interleaved : List Event :=
  [.openWrite 0 "a", .write 0 (.rootDraft "m"), .openWrite 1 "b", .write 1 (.op (.field (.data (.string "text")))),
    .write 0 (.op (.field (.data (.byte 9)))), .write 0 (.rootDraft "m"), .endWrite 0 .close,
    .write 1 (.op (.field (.raw (List.replicate 20 1)))), .frame "a" .rewind, .openRead 0 "a",
    .read 0 (.data .byte), .endWrite 1 .close, .read 0 .message, .endRead 0 .close]

theorem interleaved_sessions_alike :
    ((start (pairedDesk ampleConfig thriftyConfig 5 255)).run interleaved).all Option.isSome = true ∧
      List.Forall₂ (Option.Rel fun x y => x.1 = y.1 ∧ x.1.Sound ∧ x.2.desk.frames = y.2.desk.frames)
        ((start (pairedDesk ampleConfig thriftyConfig 5 255)).run interleaved)
        ((start (pairedDesk thriftyConfig ampleConfig 70 170)).run interleaved) := by
  obtain ⟨g, hg⟩ : ∃ g, Handler.build (.ofList [(2, .node)]) ampleConfig = some g := ⟨_, rfl⟩
  obtain ⟨h, hh⟩ : ∃ h, Handler.build (.ofList [(2, .node)]) thriftyConfig = some h := ⟨_, rfl⟩
  have hkin : (pairedDesk ampleConfig thriftyConfig 5 255).Kin (pairedDesk thriftyConfig ampleConfig 70 170) := by
    refine ⟨?_, rfl, rfl⟩
    simp only [pairedDesk, List.filterMap_cons, hg, hh, Option.map_some, List.filterMap_nil]
    exact .cons (Handler.kin_build hg hh rfl rfl _ _) (.cons (Handler.kin_build hh hg rfl rfl _ _) .nil)
  refine ⟨by decide +kernel, (buffers_never_show hkin ?_ (by decide +kernel)).1⟩
  simp [interleaved, Event.tellsCapacity, WriteAct.tellsCapacity]

end Workshop

end Courier
