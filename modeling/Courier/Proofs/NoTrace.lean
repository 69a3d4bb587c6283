import Courier.Proofs.AlikeDesks
import Courier.Proofs.Refusals

/-!
A write session that has failed or is dropped leaves no trace.

`Desk.Reached` are the desks that turns lead to from handlers that have just been built, whatever the codes of these
turns do. A session is told by how it ends and by whether one of its writes was refused. That is seen from the answers
where its messages are messages of fields, which pass every refusal on; where they are given by their codes, a refusal
counts at whatever depth it comes, and whatever the message around it makes of it.

What is done later must not look at buffers: a fresh handler has none.

`Desk.turn_session`: all that a write session can come to, of whichever sort it is.
`Desk.failed_leaves_no_trace`: the main result.
-/

namespace Courier

open Writer

namespace Desk

/-- a desk that turns lead to from one whose handlers have just been built, with nothing cached -/
inductive Reached : Desk → Prop
  | start {d : Desk} (handlers : ∀ h ∈ d.handlers, ∃ factory config, Handler.build factory config = some h)
    (shared : d.shared.slot = none) : Reached d
  | turn {d e : Desk} {t : Turn} {a : Report} (h : Reached d) (hs : d.turn t = some (a, e)) : Reached e

theorem Reached.proper {d : Desk} (h : d.Reached) : d.Proper := by
  induction h with
  | start handlers shared =>
    refine ⟨fun h hh => ?_, BufferCache.modest_of_empty shared⟩
    obtain ⟨factory, config, hb⟩ := handlers h hh
    exact (Handler.proper_build hb).1
  | turn _ hs ih => exact ih.turn hs

end Desk

/-! ## Write sessions of either sort -/

/-- the size, the frame and the handler that a write session has ended with -/
def Report.ended : Report → Option (Option Nat × Frame × Handler)
  | .answer (.written _ size frame handler) => some (size, frame, handler)
  | .written _ size frame handler => some (size, frame, handler)
  | _ => none

/-- the handler, the frame and the ending of a write session -/
def Turn.session : Turn → Option (Nat × String × Ending)
  | .step (.write i f _ ending) => some (i, f, ending)
  | .write i f _ ending => some (i, f, ending)
  | _ => none

namespace Desk

/-- some write of the session is refused -/
def Refuses (d : Desk) : Turn → Prop
  | .step (.write i f acts ending) => (d.step (.write i f acts ending)).any (·.1.refuses acts) = true
  | .write i f c _ => ∃ b, d.bench i f = some b ∧ c.Refused b.openWrite.1
  | _ => False

/-- all that a write session can come to -/
theorem turn_session {d e : Desk} {t : Turn} {i : Nat} {f : String} {ending : Ending}
    (ht : t.session = some (i, f, ending)) {a : Report} (hs : d.turn t = some (a, e)) :
    ∃ b w drafts, d.bench i f = some b ∧ Keeps b.openWrite.1 w ∧ (d.Refuses t → w.failed = true) ∧
      a.ended = some ((finish b.openWrite.2 w ending).1, (finish b.openWrite.2 w ending).2.frame,
        (finish b.openWrite.2 w ending).2.handler) ∧
      e = { d.putBack i f (finish b.openWrite.2 w ending).2 with drafts := drafts } := by
  cases t with
  | step s =>
    cases s with
    | write _ _ acts _ =>
      obtain ⟨rfl, rfl, rfl⟩ := ht
      obtain ⟨⟨x, e⟩, hx, hxe⟩ := Option.map_eq_some_iff.1 hs
      obtain ⟨rfl, rfl⟩ := Prod.mk.inj hxe
      obtain ⟨b, ws, w, drafts, hb, hacts, rfl, rfl⟩ := step_write_eq_some hx
      refine ⟨b, w, drafts, hb, writeActs_keeps b.inside_openWrite hacts, fun href => ?_, rfl, rfl⟩
      rw [Refuses, hx] at href
      exact failed_of_refuses b.inside_openWrite hacts href
    | _ => cases ht
  | write _ _ c _ =>
    obtain ⟨rfl, rfl, rfl⟩ := ht
    rw [turn_write_eq] at hs
    obtain ⟨b, hb, hs⟩ := Option.bind_eq_some_iff.1 hs
    obtain ⟨result, -, hxe⟩ := Option.map_eq_some_iff.1 hs
    obtain ⟨rfl, rfl⟩ := Prod.mk.inj hxe
    refine ⟨b, _, d.drafts, hb, c.keeps b.inside_openWrite, ?_, rfl, rfl⟩
    rintro ⟨b', hb', href⟩
    obtain rfl := Option.some.inj (hb.symm.trans hb')
    exact c.failed_of_refused b.inside_openWrite href
  | read => cases ht

/-- a session that has failed or is dropped is ended by dropping it -/
theorem finish_failed (b : Bench) {w : Writer} {ending : Ending} (h : ending = .drop ∨ w.failed = true) :
    finish b w ending = (if ending = .close then some 0 else none, b.dropWrite w) := by
  cases ending with
  | drop => rfl
  | close =>
    rcases h with h | h
    · cases h
    · simp [finish, h]

/-- **A write session that has failed or is dropped leaves no trace.** If one of its writes was refused, at whatever
depth and whatever was made of the refusal, or if the session is dropped, it answers that nothing was written, its frame
holds the bytes it held before and is not finalized, and all levels of its handler are clear. Whatever is done from then
on is answered as if the handler had just been built. -/
theorem failed_leaves_no_trace {d e : Desk} (hd : d.Reached) {t : Turn} {i : Nat} {f : String} {ending : Ending}
    (ht : t.session = some (i, f, ending)) {a : Report} (hs : d.turn t = some (a, e))
    (hfail : ending = .drop ∨ d.Refuses t) :
    ∃ h h' fresh frame, d.handlers[i]? = some h ∧ Handler.build h.factory h.config = some fresh ∧
      a.ended = some (if ending = .close then some 0 else none, frame, h') ∧
      frame.size = none ∧ frame.data = (d.frameNamed f).data ∧ e.frameNamed f = frame ∧
      h'.nesting.view = .fresh ∧ e.handlers[i]? = some h' ∧
      ∀ ts, (∀ t ∈ ts, t.Discreet) →
        List.Forall₂ (Option.Rel Matched) (e.turns ts) (turns { e with handlers := e.handlers.set i fresh } ts) := by
  have hp : e.Proper := hd.proper.turn hs
  obtain ⟨b, w, drafts, hb, hw, hmark, ha, rfl⟩ := turn_session ht hs
  obtain ⟨h, hh, rfl⟩ := Option.map_eq_some_iff.1 hb
  have hend := finish_failed (Bench.openWrite ⟨h, d.shared, d.frameNamed f⟩).2 (hfail.imp_right hmark)
  -- what remains speaks of the dropped session alone: its frame has only been moved on, its levels are cleared
  generalize hbase : (Bench.openWrite ⟨h, d.shared, d.frameNamed f⟩).2 = b at hend hp ha
  have hfac : (b.dropWrite w).handler.factory = h.factory := by
    rw [Bench.factory_dropWrite, ← hbase, Bench.factory_openWrite]
  have hcfg : (b.dropWrite w).handler.config = h.config := by
    rw [Bench.config_dropWrite, ← hbase, Bench.config_openWrite]
  have hclear : (b.dropWrite w).handler.nesting.view = .fresh := by
    rw [Bench.nesting_dropWrite, Nesting.view_clear]
  have hframe := hw.frame
  rw [Bench.frame_openWrite] at hframe
  rw [hend] at hp ha ⊢
  have hi : (d.handlers.set i (b.dropWrite w).handler)[i]? = some (b.dropWrite w).handler :=
    List.getElem?_set_self (List.getElem?_eq_some_iff.1 hh).1
  obtain ⟨fresh, hbuild, hfp, hlike⟩ := (hp.handlers _ (List.mem_of_getElem? hi)).build
  rw [hfac, hcfg] at hbuild
  refine ⟨h, (b.dropWrite w).handler, fresh, (b.dropWrite w).frame, hh, hbuild, ha, ?_, ?_, ?_, hclear, hi,
    fun ts => (hp.alike_set hi (hlike hclear) hfp).turns⟩
  · rw [Bench.frame_dropWrite, hframe]
    rfl
  · rw [Bench.frame_dropWrite, hframe]
    rfl
  · rw [Desk.frameNamed]
    change (lookUp (store d.frames f _) f).getD _ = _
    rw [lookUp_store_self]
    rfl

/-- an outermost message that takes no notice of what its nested message refuses -/
def heedlessRoot : WriteCode :=
  .root (.nested (.field (.data (.int 5)) fun _ _ => .finish (.error .packEncode)) fun _ _ => .finish (.ok true))
    fun r _ => .finish r

/-- whether a code came to its end in a write session that then had nothing written -/
def voided : Report → Bool
  | .written (.ok true) (some 0) _ _ => true
  | _ => false

/-- a desk with one handler that has just been built, and a frame with some bytes in it -/
def builtDesk : Desk where
  handlers := (Handler.build (fun _ => none) .standard).toList
  shared := .ofMax 0
  frames := [("f", .ofBytes [1, 2, 3])]
  drafts := []

/-- the session answers that all is well, and yet has failed -/
theorem heedless_root_leaves_no_trace :
    ∃ frame h' e fresh,
      builtDesk.turn (.write 0 "f" heedlessRoot .close) = some (.written (.ok true) (some 0) frame h', e) ∧
      frame.size = none ∧ frame.data = [1, 2, 3] ∧ Handler.build (fun _ => none) .standard = some fresh ∧
      ∀ ts, (∀ t ∈ ts, t.Discreet) →
        List.Forall₂ (Option.Rel Matched) (e.turns ts) (turns { e with handlers := e.handlers.set 0 fresh } ts) := by
  have hbuilt : ∀ h ∈ builtDesk.handlers, Handler.build (fun _ => none) .standard = some h :=
    fun h hh => Option.mem_toList.1 hh
  have hd : builtDesk.Reached := .start (fun h hh => ⟨_, _, hbuilt h hh⟩) rfl
  have hsome : (builtDesk.turn (.write 0 "f" heedlessRoot .close)).any (fun x => voided x.1) = true := by
    decide +kernel
  obtain ⟨⟨a, e⟩, hs, ha⟩ := (Option.any_eq_true _ _).1 hsome
  have hrefuses : builtDesk.Refuses (.write 0 "f" heedlessRoot .close) := by
    refine ⟨_, rfl, .inl (.inr (.inl ⟨.packEncode, ?_⟩))⟩
    rfl
  dsimp only [voided] at ha
  split at ha
  next frame h' =>
    obtain ⟨h, h', fresh, frame, hh, hfresh, hend, hsize, hdata, -, -, -, hrun⟩ :=
      failed_leaves_no_trace hd rfl hs (.inr hrefuses)
    obtain ⟨-, hfac, hcfg, -⟩ := Handler.proper_build (hbuilt h (List.mem_of_getElem? hh))
    rw [hfac, hcfg, show Config.standard.normalize = .standard by decide] at hfresh
    obtain ⟨-, rfl, rfl⟩ := hend
    exact ⟨_, _, e, fresh, hs, hsize, hdata, hfresh, hrun⟩
  next => cases ha

end Desk

end Courier
