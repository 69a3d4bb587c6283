import Courier.Proofs.LevelsCleared
import Courier.Proofs.Session

/-!
Several sessions on one message write what one session writes.

A message is kept by name on a desk, and a handler works on it over and over: in write sessions that do nothing but
call it and are closed, between attempts to read that are refused. Each call goes as far as the message lets it.

`Underway`: some calls have been made and all have suspended; `Complete`: the last one has come to its end.
`call_underway` is the step from one call to the next, `session_due` and `run_due` carry it through sessions and runs.
`resumed_eq_one_pass`: the main result.
-/

namespace Courier

open Writer Dispatch

/-- a write session that only calls the message of that name and is closed, or an attempt to read -/
def Step.Continues (handler : Nat) (name : String) : Step → Prop
  | .write i _ acts ending => i = handler ∧ (∀ a ∈ acts, a = .rootDraft name) ∧ ending = .close
  | .read i _ _ _ => i = handler
  | _ => False

namespace Answer

/-- what the acts of a write session answered -/
def replies : Answer → List WriteReply
  | .written acts _ _ _ => acts.map Written.reply
  | _ => []

/-- what a write session put into its frame -/
def output : Answer → Bytes
  | .written _ _ f _ => f.data
  | _ => []

/-- whether a read session came about -/
def isReading : Answer → Bool
  | .received .. => true
  | _ => false

end Answer

namespace OnePass

variable {order : ByteOrder} {m : Message}

/-- `data` has been put out by calls that all suspended; what one pass puts out is `data` and what it puts out from the
levels `s` on -/
structure Underway (order : ByteOrder) (m : Message) (data : Bytes) (left : Message) (s : Levels) : Prop where
  steady : left.steady = m.steady
  rest : ∃ o : Output, o.bytes = data ∧
    (root order m.steady .fresh).bare = ((root order m.steady s).bare).behind o false

/-- `data` is what one pass puts out, and `s` are the levels after it -/
def Complete (order : ByteOrder) (m : Message) (data : Bytes) (s : Levels) : Prop :=
  ∃ o : Output, o.bytes = data ∧ (root order m.steady .fresh).bare = ⟨.ok true, o, s, false, ()⟩

theorem underway_start (order : ByteOrder) (m : Message) : Underway order m [] m .fresh :=
  ⟨rfl, .nothing, rfl, (behind_nothing _).symm⟩

/-- one call goes on where the ones before it left off -/
theorem call_underway (hm : m.resumable = true) {data : Bytes} {left : Message} {s : Levels}
    (h : Underway order m data left s) :
    ((root order left s).result = .ok false →
      Underway order m (data ++ (root order left s).out.bytes) (root order left s).left (root order left s).levels) ∧
    ((root order left s).result = .ok true →
      Complete order m (data ++ (root order left s).out.bytes) (root order left s).levels) := by
  obtain ⟨hs, o, ho, hrest⟩ := h
  have hl : left.resumable = true := by rw [← left.resumable_steady, hs, m.resumable_steady, hm]
  have hr := root_resumes hl order s
  rw [hs] at hr
  refine ⟨fun hp => ⟨(root_steady_left ..).trans hs, o ++ (root order left s).out, ?_, ?_⟩, fun hd =>
    ⟨o ++ (root order left s).out, ?_, ?_⟩⟩
  · rw [Output.bytes_append, ho]
  · rw [hrest, hr.paused hp, behind_behind]
  · rw [Output.bytes_append, ho]
  · have hcalm := ((left.sound order s).settle).calm true hd
    rw [hrest, hr.done hd]
    simp only [behind, bare, map, Dispatch.mk.injEq, and_true, true_and]
    exact ⟨hd, by rw [Bool.false_or]; exact hcalm⟩

/-- the replies that are still to come: suspensions, then an end; or none -/
def Winding (rs : List WriteReply) : Prop :=
  rs = [] ∨ ∃ k, rs = List.replicate k (.finished false) ++ [.finished true]

theorem Winding.cons {r : WriteReply} {rs : List WriteReply} (h : Winding (r :: rs)) :
    (r = .finished false ∧ rs ≠ [] ∨ r = .finished true ∧ rs = []) ∧ Winding rs := by
  obtain h | ⟨k, h⟩ := h
  · cases h
  · cases k with
    | zero =>
      simp only [List.replicate_zero, List.nil_append, List.cons.injEq] at h
      exact ⟨.inr h, .inl h.2⟩
    | succ k =>
      simp only [List.replicate_succ, List.cons_append, List.cons.injEq] at h
      exact ⟨.inl ⟨h.1, by simp [h.2]⟩, .inr ⟨k, h.2⟩⟩

theorem Winding.of_append {rs ts : List WriteReply} (h : Winding (rs ++ ts)) : Winding ts := by
  induction rs with
  | nil => exact h
  | cons r rs ih => exact ih h.cons.2

/-- how things stand where the replies `rs` are still to come -/
def Due (order : ByteOrder) (m : Message) (name : String) (rs : List WriteReply) (data : Bytes)
    (drafts : List (String × Message)) (s : Levels) : Prop :=
  (rs = [] → Complete order m data s) ∧
    (rs ≠ [] → ∃ left, Desk.lookUp drafts name = some left ∧ Underway order m data left s)

theorem ofCall_eq_finished {r : Except Fault Bool} {b : Bool} (h : WriteReply.ofCall r = some (.finished b)) :
    r = .ok b := by
  rcases r with (_ | _) | _ <;> simp_all [WriteReply.ofCall]

/-- the calls of one session -/
theorem session_due (hm : m.resumable = true) {name : String} {acts : List WriteAct}
    (hacts : ∀ a ∈ acts, a = .rootDraft name) {rest : List WriteReply} {w v : Writer}
    {drafts later : List (String × Message)} {ws : List Written} {data : Bytes} (hw : w.Inside)
    (ho : w.order = order) (hf : w.failed = false) (h : Desk.writeActs w drafts acts = some (ws, v, later))
    (hwind : Winding (ws.map Written.reply ++ rest))
    (hdue : Due order m name (ws.map Written.reply ++ rest) data drafts w.nesting.view) :
    v.failed = false ∧ ∃ out, v.written = w.written ++ out ∧ Due order m name rest (data ++ out) later v.nesting.view := by
  -- by induction on the calls: what is still to come shrinks with each, and `Due` says how things stand before it
  induction acts generalizing w drafts ws data with
  | nil =>
    simp only [Desk.writeActs, Option.some.injEq, Prod.mk.injEq] at h
    obtain ⟨rfl, rfl, rfl⟩ := h
    exact ⟨hf, [], by simp, by simpa using hdue⟩
  | cons a acts ih =>
    obtain ⟨reply, u, between, rs, ha, hrest, rfl⟩ := Desk.writeActs_cons_eq_some h
    rw [hacts a List.mem_cons_self] at ha
    obtain ⟨hreply, hwind'⟩ := hwind.cons
    obtain ⟨left, hleft, hunder⟩ := hdue.2 (by simp)
    simp only [Desk.writeAct, hleft, Prod.mk.injEq] at ha
    obtain ⟨hr, rfl, rfl⟩ := ha
    have hc := carries_writeRoot left hw
    have hcall := call_underway hm hunder
    rw [ho] at hc
    have key : ∀ b, (w.writeRoot left).result = .ok b → (b = true ↔ rs.map Written.reply ++ rest = []) →
        v.failed = false ∧ ∃ out, v.written = w.written ++ out ∧
          Due order m name rest (data ++ out) later v.nesting.view := by
      intro b hb hend
      have t := hc.tells_of_ok hb
      have hd : (root order left w.nesting.view).result = .ok b := t.result.symm.trans hb
      have hsound : Sound w.nesting.view (root order left w.nesting.view) := (left.sound order _).settle
      have hfail : (w.writeRoot left).writer.failed = false := (hc.calm hsound hb).trans hf
      have hdue' : Due order m name (rs.map Written.reply ++ rest)
          (data ++ (root order left w.nesting.view).out.bytes)
          (Desk.store drafts name (w.writeRoot left).left) (w.writeRoot left).writer.nesting.view := by
        rw [t.levels]
        refine ⟨fun he => hcall.2 ?_, fun hne => ⟨_, Desk.lookUp_store_self .., ?_⟩⟩
        · rw [hd, hend.2 he]
        · rw [t.left]
          refine hcall.1 ?_
          cases b with
          | false => exact hd
          | true => exact absurd (hend.1 rfl) hne
      obtain ⟨hvf, out, hwr, hfin⟩ := ih (fun a ha => hacts a (List.mem_cons_of_mem _ ha)) hc.keeps.inside
        (hc.keeps.order.trans ho) hfail hrest hwind' hdue'
      refine ⟨hvf, (root order left w.nesting.view).out.bytes ++ out, ?_, ?_⟩
      · rw [hwr, t.written b hd, List.append_assoc]
      · rwa [List.append_assoc] at hfin
    rcases hreply with ⟨rfl, hne⟩ | ⟨rfl, he⟩
    · exact key false (ofCall_eq_finished hr) ⟨(fun h => by cases h), fun he => absurd he hne⟩
    · exact key true (ofCall_eq_finished hr) ⟨fun _ => he, fun _ => rfl⟩

/-- a step of the run: a session, or an attempt to read that is refused -/
theorem step_due (hm : m.resumable = true) {handler : Nat} {name : String} {step : Step}
    (hstep : step.Continues handler name) {d e : Desk} {a : Answer} (h : d.step step = some (a, e))
    (hread : a.isReading = false) {hd : Handler} (hh : d.handlers[handler]? = some hd)
    (ho : hd.config.byteOrder = order) {rest : List WriteReply} {data : Bytes} (hwind : Winding (a.replies ++ rest))
    (hdue : Due order m name (a.replies ++ rest) data d.drafts hd.nesting.view) :
    ∃ hd', e.handlers[handler]? = some hd' ∧ hd'.config.byteOrder = order ∧
      Due order m name rest (data ++ a.output) e.drafts hd'.nesting.view := by
  have hlt : handler < d.handlers.length := (List.getElem?_eq_some_iff.1 hh).1
  cases step with
  | write i f acts ending =>
    obtain ⟨rfl, hacts, rfl⟩ := hstep
    obtain ⟨b, ws, w, drafts, hb, hrun, rfl, rfl⟩ := Desk.step_write_eq_some h
    simp only [Desk.bench, hh, Option.map_some, Option.some.injEq] at hb
    subst hb
    have hdue' := hdue
    rw [← Bench.nesting_openWrite ⟨hd, d.shared, d.frameNamed f⟩] at hdue'
    obtain ⟨hf, out, hout, hfin⟩ := session_due hm hacts (Bench.inside_openWrite _)
      ((Bench.order_openWrite _).trans ho) (Bench.failed_openWrite _) hrun hwind hdue'
    rw [Bench.written_openWrite, List.nil_append] at hout
    simp only [Desk.finish, hf, Bool.false_eq_true, if_false, Answer.output, Desk.putBack]
    refine ⟨_, List.getElem?_set_self hlt, ?_, ?_⟩
    · rw [Bench.config_finishWrite, Bench.config_openWrite, ho]
    · rwa [Bench.data_finishWrite, Bench.nesting_finishWrite, hout]
  | read i f kinds ending =>
    obtain rfl := hstep
    obtain ⟨b, hb, ⟨err, -, rfl, rfl⟩ | ⟨r, rs, last, -, -, rfl, -⟩⟩ := Desk.step_read_eq_some h
    · simp only [Desk.bench, hh, Option.map_some, Option.some.injEq] at hb
      subst hb
      exact ⟨hd, List.getElem?_set_self hlt, ho, by simpa [Answer.output, Answer.replies, Desk.putBack] using hdue⟩
    · cases hread
  | _ => cases hstep

theorem run_due (hm : m.resumable = true) {handler : Nat} {name : String} {steps : List Step}
    (hsteps : ∀ s ∈ steps, s.Continues handler name) {d : Desk} {answers : List (Answer × Desk)}
    (h : d.run steps = answers.map some) (hread : ∀ a ∈ answers, a.1.isReading = false) {hd : Handler}
    (hh : d.handlers[handler]? = some hd) (ho : hd.config.byteOrder = order) {data : Bytes}
    (hwind : Winding (answers.flatMap (·.1.replies)))
    (hdue : Due order m name (answers.flatMap (·.1.replies)) data d.drafts hd.nesting.view) :
    ∃ hd', ((answers.getLast?.map Prod.snd).getD d).handlers[handler]? = some hd' ∧
      Complete order m (data ++ answers.flatMap (·.1.output)) hd'.nesting.view := by
  induction steps generalizing d hd answers data with
  | nil =>
    have ha : answers = [] := by
      cases answers with
      | nil => rfl
      | cons a as => simp [Desk.run] at h
    subst ha
    exact ⟨hd, hh, by simpa using hdue.1 rfl⟩
  | cons s steps ih =>
    obtain ⟨a, e, rest, hs, hrun, rfl⟩ := Desk.run_cons_eq h
    rw [List.flatMap_cons] at hwind hdue
    obtain ⟨hd', hh', ho', hdue'⟩ := step_due hm (hsteps s List.mem_cons_self) hs (hread (a, e) List.mem_cons_self) hh ho
      hwind hdue
    have hwind' := hwind.of_append
    obtain ⟨hd'', hh'', hfin⟩ := ih (fun s hs => hsteps s (List.mem_cons_of_mem _ hs)) hrun
      (fun x hx => hread x (List.mem_cons_of_mem _ hx)) hh' ho' hwind' hdue'
    refine ⟨hd'', ?_, ?_⟩
    · cases rest with
      | nil => simpa using hh''
      | cons x rest =>
        rw [List.getLast?_cons_cons]
        rw [List.getLast?_eq_some_getLast (List.cons_ne_nil x rest)] at hh'' ⊢
        exact hh''
    · rwa [List.flatMap_cons, ← List.append_assoc]

/-- one pass on a clear handler writes what is complete, and has room enough for it -/
theorem one_pass (hm : m.resumable = true) {data : Bytes} {s : Levels} (hc : Complete order m data s) {b : Bench}
    (hb : b.handler.nesting.view = .fresh) (ho : b.handler.config.byteOrder = order) :
    ((b.openWrite.1.writeRoot m.steady).result = .ok true →
      ∃ c, b.openWrite.2.closeWrite (b.openWrite.1.writeRoot m.steady).writer = some (data.length, c) ∧
        c.frame.data = data ∧ c.handler.nesting.view = .fresh) ∧
    (data.length + (maxVarint64 - 1) ≤ maxBufferSize → (b.openWrite.1.writeRoot m.steady).result = .ok true) := by
  obtain ⟨o, rfl, hroot⟩ := hc
  have hms : m.steady.resumable = true := m.resumable_steady.trans hm
  have hres : (root order m.steady .fresh).result = .ok true := congrArg Dispatch.result hroot
  have hout : (root order m.steady .fresh).out = o := congrArg Dispatch.out hroot
  have hfresh := root_clear hms Levels.shallow_fresh hres
  refine ⟨fun hr => ?_, fun hlen => ?_⟩
  · have hclose := Bench.closeWrite_writeRoot hr
    rw [ho, hb, hout, hfresh] at hclose
    obtain ⟨c, hc, hdata, hlev, -⟩ := hclose
    exact ⟨c, hc, hdata, hlev⟩
  · have hsnug : (root order m.steady .fresh).out.Snug :=
      ((m.steady.tidy hms order .fresh).settle Levels.shallow_fresh hres).2.1
    have hfits : b.openWrite.1.Fits (root order m.steady .fresh).out.peak := by
      unfold Fits
      rw [Bench.position_openWrite]
      rw [hout] at hsnug ⊢
      unfold Output.Snug at hsnug
      omega
    have h := carries_writeRoot m.steady b.inside_openWrite
    rw [Bench.order_openWrite, ho, Bench.nesting_openWrite, hb] at h
    exact (h.tells hfits).result.trans hres

end OnePass

namespace Desk

open OnePass

/-- **Resumed writes equal one pass.** A clear handler calls a resumable message in any number of sessions, with refused
reads between them, and each call goes as far as the pauses of the messages let it. Once a call comes to its end, all
levels are clear, and the frames of the sessions, one behind another, hold what one session on a clear handler of the
same byte order writes that never pauses. -/
theorem resumed_eq_one_pass {d : Desk} {handler : Nat} {hd : Handler} {name : String} {m : Message} {steps : List Step}
    {answers : List (Answer × Desk)} {k : Nat} (hh : d.handlers[handler]? = some hd) (hclear : hd.nesting.view = .fresh)
    (hdraft : lookUp d.drafts name = some m) (hm : m.resumable = true) (hsteps : ∀ s ∈ steps, s.Continues handler name)
    (hrun : d.run steps = answers.map some) (hread : ∀ a ∈ answers, a.1.isReading = false)
    (hreplies : answers.flatMap (·.1.replies) = List.replicate k (.finished false) ++ [.finished true]) :
    (∃ hd', ((answers.getLast?.map Prod.snd).getD d).handlers[handler]? = some hd' ∧ hd'.nesting.view = .fresh) ∧
    ∀ b : Bench, b.handler.nesting.view = .fresh → b.handler.config.byteOrder = hd.config.byteOrder →
      ((b.openWrite.1.writeRoot m.steady).result = .ok true →
        ∃ c, b.openWrite.2.closeWrite (b.openWrite.1.writeRoot m.steady).writer =
            some ((answers.flatMap (·.1.output)).length, c) ∧
          c.frame.data = answers.flatMap (·.1.output) ∧ c.handler.nesting.view = .fresh) ∧
      ((answers.flatMap (·.1.output)).length + (maxVarint64 - 1) ≤ maxBufferSize →
        (b.openWrite.1.writeRoot m.steady).result = .ok true) := by
  have hdue : Due hd.config.byteOrder m name (answers.flatMap (·.1.replies)) [] d.drafts hd.nesting.view := by
    rw [hclear]
    exact ⟨fun h => by simp [hreplies] at h, fun _ => ⟨m, hdraft, underway_start ..⟩⟩
  obtain ⟨hd', hlast, hc⟩ := run_due hm hsteps hrun hread hh rfl (.inr ⟨k, hreplies⟩) hdue
  rw [List.nil_append] at hc
  refine ⟨⟨hd', hlast, ?_⟩, fun b hb ho => one_pass hm hc hb ho⟩
  obtain ⟨o, -, hroot⟩ := hc
  have hres : (root hd.config.byteOrder m.steady .fresh).result = .ok true := congrArg Dispatch.result hroot
  have hlev : (root hd.config.byteOrder m.steady .fresh).levels = hd'.nesting.view := congrArg Dispatch.levels hroot
  rw [← hlev]
  exact root_clear (m.resumable_steady.trans hm) Levels.shallow_fresh hres

/-- a node that pauses once, with a leaf that pauses twice -/
def pausingNode : Message :=
  .mk .node [.data (.int 7), .message (some (.mk .leaf [.data (.long 1), .absent .string] [1, 0]))] [2]

/-- a desk with one handler, where that node is kept -/
def nodeDesk : Desk where
  handlers := [⟨fun _ => none, .standard, .ofCapacity 1, .ofMax 0⟩]
  shared := .ofMax 0
  frames := []
  drafts := [("node", pausingNode)]

/-- one call, an attempt to read, and three calls -/
def nodeSteps : List Step :=
  [.write 0 "first" [.rootDraft "node"] .close, .read 0 "first" [.message] .close,
    .write 0 "second" [.rootDraft "node", .rootDraft "node", .rootDraft "node"] .close]

def nodeAnswers : List (Answer × Desk) :=
  (nodeDesk.run nodeSteps).filterMap id

/-- a bench with a handler that has done nothing yet -/
def freshBench : Bench :=
  ⟨⟨fun _ => none, .standard, .ofCapacity 16, .ofMax 0⟩, .ofMax 0, .empty⟩

theorem node_in_two_sessions :
    nodeAnswers.flatMap (·.1.output) = [2, 0, 8, 1, 0, 2, 255, 255, 255, 255] ∧
      ∃ c, freshBench.openWrite.2.closeWrite (freshBench.openWrite.1.writeRoot pausingNode.steady).writer = some (10, c) ∧
        c.frame.data = [2, 0, 8, 1, 0, 2, 255, 255, 255, 255] := by
  have hout : nodeAnswers.flatMap (·.1.output) = [2, 0, 8, 1, 0, 2, 255, 255, 255, 255] := by decide +kernel
  have hsteps : ∀ s ∈ nodeSteps, s.Continues 0 "node" := by simp [nodeSteps, Step.Continues]
  have hrun : nodeDesk.run nodeSteps = nodeAnswers.map some := run_eq_map_some (by decide +kernel)
  have hread : ∀ a ∈ nodeAnswers, a.1.isReading = false := by decide +kernel
  have hreplies : nodeAnswers.flatMap (·.1.replies) = List.replicate 3 (.finished false) ++ [.finished true] := by
    decide +kernel
  obtain ⟨-, hpass⟩ :=
    resumed_eq_one_pass rfl (Nesting.view_ofCapacity 1) (m := pausingNode) rfl rfl hsteps hrun hread hreplies
  obtain ⟨hdone, hfits⟩ := hpass freshBench (Nesting.view_ofCapacity 16) rfl
  rw [hout] at hdone hfits
  obtain ⟨c, hc, hdata, -⟩ := hdone (hfits (by decide))
  exact ⟨hout, c, hc, hdata⟩

end Desk

end Courier
