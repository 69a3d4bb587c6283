import Courier.Proofs.Calls
import Courier.Scenario

/-!
Sessions as a whole: how they open, what their acts keep, how they end, and the steps of a desk that hold them.

`Bench.openWrite_eq`, `Bench.closeWrite_eq`: opening and closing, spelled out.
`Desk.writeAct_keeps`, `Desk.writeActs_keeps`: nothing that a session does undoes what was there before.
`Desk.step_write_eq_some`, `Desk.step_read_eq_some`: all that a session of a desk can come to.
-/

namespace Courier

open Writer

namespace Bench

@[simp] theorem nesting_acquire (b : Bench) : b.acquire.2.handler.nesting = b.handler.nesting := by
  unfold acquire; cases b.handler.config.cacheScope <;> rfl

@[simp] theorem config_acquire (b : Bench) : b.acquire.2.handler.config = b.handler.config := by
  unfold acquire; cases b.handler.config.cacheScope <;> rfl

@[simp] theorem factory_acquire (b : Bench) : b.acquire.2.handler.factory = b.handler.factory := by
  unfold acquire; cases b.handler.config.cacheScope <;> rfl

@[simp] theorem config_release (b : Bench) (buf : Scratch) : (b.release buf).handler.config = b.handler.config := by
  unfold release; cases b.handler.config.cacheScope <;> rfl

@[simp] theorem factory_release (b : Bench) (buf : Scratch) : (b.release buf).handler.factory = b.handler.factory := by
  unfold release; cases b.handler.config.cacheScope <;> rfl

theorem openWrite_eq (b : Bench) :
    b.openWrite =
      (⟨b.frame.beginWrite, b.acquire.1, b.handler.nesting, b.handler.config.byteOrder, false⟩,
        { b.acquire.2 with frame := b.frame.beginWrite }) := by
  unfold openWrite acquire
  cases b.handler.config.cacheScope <;> rfl

theorem position_openWrite (b : Bench) : b.openWrite.1.position = 0 := by
  rw [openWrite_eq]; rfl

theorem inside_openWrite (b : Bench) : b.openWrite.1.Inside := by
  unfold Inside
  rw [position_openWrite]
  exact Nat.zero_le _

theorem nesting_openWrite (b : Bench) : b.openWrite.1.nesting = b.handler.nesting := by
  rw [openWrite_eq]

theorem order_openWrite (b : Bench) : b.openWrite.1.order = b.handler.config.byteOrder := by
  rw [openWrite_eq]

theorem failed_openWrite (b : Bench) : b.openWrite.1.failed = false := by
  rw [openWrite_eq]

theorem frame_openWrite (b : Bench) : b.openWrite.1.frame = b.frame.beginWrite := by
  rw [openWrite_eq]

theorem written_openWrite (b : Bench) : b.openWrite.1.written = [] := by
  rw [written, position_openWrite, List.take_zero]

theorem config_openWrite (b : Bench) : b.openWrite.2.handler.config = b.handler.config := by
  rw [openWrite_eq]
  exact config_acquire b

theorem factory_openWrite (b : Bench) : b.openWrite.2.handler.factory = b.handler.factory := by
  rw [openWrite_eq]
  exact factory_acquire b

/-- a session is opened with what its handler was built with, and with all levels clear -/
theorem openRead_terms {b : Bench} {r : Reader} (h : b.openRead = .ok r) :
    r = ⟨b.frame, b.handler.nesting, b.handler.factory, b.handler.config.byteOrder, b.handler.config.maxLength⟩ ∧
      b.handler.nesting.view = .fresh := by
  unfold openRead at h
  split at h
  · cases h
  · split at h
    · cases h
    · rename_i hs
      exact ⟨(Except.ok.inj h).symm, b.handler.nesting.suspendedDepth_eq_none_iff.1 hs⟩

/-- a finalized frame is opened where all levels are clear -/
theorem openRead_fresh {b : Bench} (hf : b.frame.isFinalized = true) (h : b.handler.nesting.view = .fresh) :
    ∃ r, b.openRead = .ok r := by
  have hs := b.handler.nesting.suspendedDepth_eq_none_iff.2 h
  simp only [openRead, hf, Bool.not_true, Bool.false_eq_true, if_false, hs]
  exact ⟨_, rfl⟩

/-- a finalized frame is refused where some level holds progress, and the refusal tells the deepest -/
theorem openRead_suspended {b : Bench} (hf : b.frame.isFinalized = true) (h0 : b.handler.nesting.depth = 0)
    (h : ∃ j, b.handler.nesting.level j ≠ .blank) :
    ∃ n, b.openRead = .error (.writeSuspended n) ∧ b.handler.nesting.level n ≠ .blank ∧
      ∀ j, n < j → b.handler.nesting.level j = .blank := by
  obtain ⟨n, hn, hdeep⟩ := Nesting.exists_suspendedDepth h0 h
  refine ⟨n, ?_, hdeep⟩
  simp only [openRead, hf, Bool.not_true, Bool.false_eq_true, if_false, hn]

/-- the bench behind a session that was closed with nothing failed -/
def finishWrite (b : Bench) (w : Writer) : Bench :=
  let b := b.release w.scratch
  { b with
    handler := { b.handler with nesting := w.nesting }
    frame := w.frame.finish w.written }

theorem closeWrite_eq (b : Bench) {w : Writer} (hw : w.Inside) :
    b.closeWrite w = some (if w.failed then (0, b.dropWrite w) else (w.position, b.finishWrite w)) := by
  unfold closeWrite
  cases w.failed with
  | true => rfl
  | false =>
    have ht : w.scratch.take? w.position = some w.written := by
      have hc : w.position ≤ w.scratch.capacity := hw
      rw [Scratch.take?, if_pos hc, Scratch.front_eq_take]
      rfl
    simp only [ht]
    rfl

theorem data_finishWrite (b : Bench) (w : Writer) : (b.finishWrite w).frame.data = w.written := rfl

theorem nesting_finishWrite (b : Bench) (w : Writer) : (b.finishWrite w).handler.nesting = w.nesting := rfl

theorem nesting_dropWrite (b : Bench) (w : Writer) : (b.dropWrite w).handler.nesting = w.nesting.clear := rfl

theorem frame_dropWrite (b : Bench) (w : Writer) : (b.dropWrite w).frame = w.frame := rfl

theorem config_finishWrite (b : Bench) (w : Writer) : (b.finishWrite w).handler.config = b.handler.config :=
  config_release b w.scratch

theorem config_dropWrite (b : Bench) (w : Writer) : (b.dropWrite w).handler.config = b.handler.config :=
  config_release b w.scratch

theorem factory_finishWrite (b : Bench) (w : Writer) : (b.finishWrite w).handler.factory = b.handler.factory :=
  factory_release b w.scratch

theorem factory_dropWrite (b : Bench) (w : Writer) : (b.dropWrite w).handler.factory = b.handler.factory :=
  factory_release b w.scratch

end Bench

theorem Writer.keeps_writeRoot (m : Message) {w : Writer} (hw : w.Inside) : Keeps w (w.writeRoot m).writer :=
  (carries_writeRoot m hw).keeps

theorem Writer.keeps_writeMessage (m : Message) {w : Writer} (hw : w.Inside) : Keeps w (w.writeMessage m).writer := by
  have hi : (enter w).Inside := hw
  exact (m.carries hi).leave.keeps

/-- a session of a single call that is closed, where the call comes to its end -/
theorem Bench.closeWrite_done {α : Type} {b : Bench} {s : Sent α} {d : Dispatch α} (hc : Carries b.openWrite.1 s d)
    (hs : d.Sound b.openWrite.1.nesting.view) (h : s.result = .ok true) :
    ∃ c, b.openWrite.2.closeWrite s.writer = some (d.out.bytes.length, c) ∧ c.frame.data = d.out.bytes ∧
      c.handler.nesting.view = d.levels ∧ d.result = .ok true := by
  have t := hc.tells_of_ok h
  have hres := t.result.symm.trans h
  have hf := (hc.calm hs h).trans b.failed_openWrite
  have hwr := t.written true hres
  rw [written_openWrite, List.nil_append] at hwr
  have hp := t.position
  rw [position_openWrite, Nat.zero_add] at hp
  refine ⟨b.openWrite.2.finishWrite s.writer, ?_, hwr, t.levels, hres⟩
  rw [closeWrite_eq _ hc.keeps.inside, hf, ← hp]
  rfl

theorem Bench.closeWrite_writeRoot {b : Bench} {m : Message} (h : (b.openWrite.1.writeRoot m).result = .ok true) :
    ∃ c, b.openWrite.2.closeWrite (b.openWrite.1.writeRoot m).writer =
        some ((Dispatch.root b.handler.config.byteOrder m b.handler.nesting.view).out.bytes.length, c) ∧
      c.frame.data = (Dispatch.root b.handler.config.byteOrder m b.handler.nesting.view).out.bytes ∧
      c.handler.nesting.view = (Dispatch.root b.handler.config.byteOrder m b.handler.nesting.view).levels ∧
      (Dispatch.root b.handler.config.byteOrder m b.handler.nesting.view).result = .ok true := by
  have hc := carries_writeRoot m b.inside_openWrite
  have hs : Dispatch.Sound b.openWrite.1.nesting.view
      (Dispatch.root b.openWrite.1.order m b.openWrite.1.nesting.view) := (m.sound ..).settle
  have key := closeWrite_done hc hs h
  rwa [order_openWrite, nesting_openWrite] at key

theorem Bench.closeWrite_field {b : Bench} {f : Field} (h : (f.write b.openWrite.1).result = .ok true) :
    ∃ c, b.openWrite.2.closeWrite (f.write b.openWrite.1).writer =
        some ((f.dispatch b.handler.config.byteOrder b.handler.nesting.view).out.bytes.length, c) ∧
      c.frame.data = (f.dispatch b.handler.config.byteOrder b.handler.nesting.view).out.bytes ∧
      c.handler.nesting.view = (f.dispatch b.handler.config.byteOrder b.handler.nesting.view).levels ∧
      (f.dispatch b.handler.config.byteOrder b.handler.nesting.view).result = .ok true := by
  have key := closeWrite_done (f.carries b.inside_openWrite) (f.sound ..) h
  rwa [order_openWrite, nesting_openWrite] at key

theorem WriteOp.run_keeps (op : WriteOp) {w : Writer} (hw : w.Inside) : Keeps w (op.run w).2 := by
  cases op with
  | field f =>
    have hk : (WriteOp.field f).run w = ((WriteOp.field f).run w |>.1, (f.write w).writer) := by
      unfold run
      dsimp only
      split <;> rfl
    rw [hk]
    exact (f.carries hw).keeps
  | root m => exact keeps_writeRoot m hw
  | debug => exact .refl hw

namespace Desk

/-- a field is answered by one of the two rules -/
theorem run_field_eq (f : Field) :
    ∃ answer, (answer = WriteReply.ofCall ∨ answer = WriteReply.ofAct) ∧
      ∀ w, (WriteOp.field f).run w = (answer (f.write w).result, (f.write w).writer) := by
  cases f with
  | message m => exact ⟨_, .inl rfl, fun _ => rfl⟩
  | _ => exact ⟨_, .inr rfl, fun _ => rfl⟩

theorem lookUp_store_self {α : Type} (es : List (String × α)) (name : String) (a : α) :
    lookUp (store es name a) name = some a := by
  induction es with
  | nil => simp [store, lookUp]
  | cons e es ih =>
    unfold store
    split
    · simp [lookUp]
    · rename_i h
      simp only [lookUp, List.find?_cons, h] at ih ⊢
      exact ih

theorem lookUp_store_of_ne {α : Type} (es : List (String × α)) {name other : String} (a : α) (h : other ≠ name) :
    lookUp (store es name a) other = lookUp es other := by
  have hne : (name == other) = false := beq_eq_false_iff_ne.2 h.symm
  induction es with
  | nil => simp [store, lookUp, hne]
  | cons e es ih =>
    unfold store
    split
    · rename_i he
      simp [lookUp, hne, eq_of_beq he]
    · unfold lookUp at ih ⊢
      rw [List.find?_cons, List.find?_cons]
      split
      · rfl
      · exact ih

theorem writeAct_keeps (a : WriteAct) (drafts : List (String × Message)) {w : Writer} (hw : w.Inside) :
    Keeps w (writeAct w drafts a).2.1 := by
  cases a with
  | op op => exact op.run_keeps hw
  | rootDraft name =>
    simp only [writeAct]
    cases lookUp drafts name with
    | none => exact .refl hw
    | some m => exact keeps_writeRoot m hw
  | messageDraft name =>
    simp only [writeAct]
    cases lookUp drafts name with
    | none => exact .refl hw
    | some m => exact keeps_writeMessage m hw

/-- what the acts of a session come to, one act at a time -/
theorem writeActs_cons_eq_some {w v : Writer} {drafts later : List (String × Message)} {a : WriteAct}
    {acts : List WriteAct} {ws : List Written} (h : writeActs w drafts (a :: acts) = some (ws, v, later)) :
    ∃ reply u between rest, writeAct w drafts a = (some reply, u, between) ∧
      writeActs u between acts = some (rest, v, later) ∧ ws = Written.of reply u :: rest := by
  rw [writeActs] at h
  rcases hr : writeAct w drafts a with ⟨_ | reply, u, between⟩
  · simp [hr] at h
  · simp only [hr, Option.map_eq_some_iff, Prod.mk.injEq] at h
    obtain ⟨⟨rest, v', later'⟩, hrest, hws, rfl, rfl⟩ := h
    exact ⟨reply, u, between, rest, rfl, hrest, hws.symm⟩

theorem writeActs_keeps {acts : List WriteAct} {w v : Writer} {drafts later : List (String × Message)}
    {ws : List Written} (hw : w.Inside) (h : writeActs w drafts acts = some (ws, v, later)) : Keeps w v := by
  induction acts generalizing w drafts ws with
  | nil =>
    simp only [writeActs, Option.some.injEq, Prod.mk.injEq] at h
    rw [← h.2.1]
    exact .refl hw
  | cons a acts ih =>
    obtain ⟨reply, u, between, rest, ha, hrest, -⟩ := writeActs_cons_eq_some h
    have hk : Keeps w u := by
      have := writeAct_keeps a drafts hw
      rwa [ha] at this
    exact hk.trans (ih hk.inside hrest)

/-- the end of a write session -/
def finish (b : Bench) (w : Writer) : Ending → Option Nat × Bench
  | .close => if w.failed then (some 0, b.dropWrite w) else (some w.position, b.finishWrite w)
  | .drop => (none, b.dropWrite w)

/-- a write step, its session from the opening to the end -/
theorem step_write_eq (d : Desk) (i : Nat) (f : String) (acts : List WriteAct) (ending : Ending) :
    d.step (.write i f acts ending) = (d.bench i f).bind fun b =>
      (writeActs b.openWrite.1 d.drafts acts).map fun x =>
        (.written x.1 (finish b.openWrite.2 x.2.1 ending).1 (finish b.openWrite.2 x.2.1 ending).2.frame
            (finish b.openWrite.2 x.2.1 ending).2.handler,
          { d.putBack i f (finish b.openWrite.2 x.2.1 ending).2 with drafts := x.2.2 }) := by
  rw [step]
  cases d.bench i f with
  | none => rfl
  | some b =>
    dsimp only [Option.bind_eq_bind, Option.bind_some]
    cases hacts : writeActs b.openWrite.1 d.drafts acts with
    | none => rfl
    | some x =>
      obtain ⟨ws, w, drafts⟩ := x
      have hw : w.Inside := (writeActs_keeps b.inside_openWrite hacts).inside
      cases ending with
      | drop => rfl
      | close =>
        simp only [Option.bind_some, Bench.closeWrite_eq _ hw, Option.map_some, finish]
        split <;> rfl

/-- all that a write step can come to -/
theorem step_write_eq_some {d e : Desk} {i : Nat} {f : String} {acts : List WriteAct} {ending : Ending} {a : Answer}
    (h : d.step (.write i f acts ending) = some (a, e)) :
    ∃ b ws w drafts, d.bench i f = some b ∧ writeActs b.openWrite.1 d.drafts acts = some (ws, w, drafts) ∧
      a = .written ws (finish b.openWrite.2 w ending).1 (finish b.openWrite.2 w ending).2.frame
        (finish b.openWrite.2 w ending).2.handler ∧
      e = { d.putBack i f (finish b.openWrite.2 w ending).2 with drafts := drafts } := by
  rw [step_write_eq] at h
  obtain ⟨b, hb, h⟩ := Option.bind_eq_some_iff.1 h
  obtain ⟨⟨ws, w, drafts⟩, hacts, h⟩ := Option.map_eq_some_iff.1 h
  obtain ⟨rfl, rfl⟩ := Prod.mk.inj h
  exact ⟨b, ws, w, drafts, hb, hacts, rfl, rfl⟩

/-- the end of a read session -/
def finishRead (b : Bench) (r : Reader) : Ending → Bench
  | .close => b.closeRead r
  | .drop => b.dropRead r

/-- a read step, with the session if it can be opened -/
theorem step_read_eq (d : Desk) (i : Nat) (f : String) (kinds : List FieldKind) (ending : Ending) :
    d.step (.read i f kinds ending) = (d.bench i f).bind fun b =>
      match b.openRead with
      | .error err => some (.refused err b.handler, d.putBack i f b)
      | .ok r => (readKinds r kinds).map fun x =>
        (.received x.1 (finishRead b x.2 ending).frame (finishRead b x.2 ending).handler,
          d.putBack i f (finishRead b x.2 ending)) := by
  rw [step]
  cases d.bench i f with
  | none => rfl
  | some b =>
    dsimp only [Option.bind_eq_bind, Option.bind_some]
    cases b.openRead with
    | error err => rfl
    | ok r =>
      dsimp only
      cases readKinds r kinds <;> cases ending <;> rfl

/-- all that a read step can come to -/
theorem step_read_eq_some {d e : Desk} {i : Nat} {f : String} {kinds : List FieldKind} {ending : Ending} {a : Answer}
    (h : d.step (.read i f kinds ending) = some (a, e)) :
    ∃ b, d.bench i f = some b ∧
      ((∃ err, b.openRead = .error err ∧ a = .refused err b.handler ∧ e = d.putBack i f b) ∨
        ∃ r rs last, b.openRead = .ok r ∧ readKinds r kinds = some (rs, last) ∧
          a = .received rs (finishRead b last ending).frame (finishRead b last ending).handler ∧
          e = d.putBack i f (finishRead b last ending)) := by
  rw [step_read_eq] at h
  obtain ⟨b, hb, h⟩ := Option.bind_eq_some_iff.1 h
  refine ⟨b, hb, ?_⟩
  cases hr : b.openRead with
  | error err =>
    rw [hr] at h
    obtain ⟨rfl, rfl⟩ := Prod.mk.inj (Option.some.inj h)
    exact .inl ⟨err, rfl, rfl, rfl⟩
  | ok r =>
    rw [hr] at h
    obtain ⟨⟨rs, last⟩, hrs, h⟩ := Option.map_eq_some_iff.1 h
    obtain ⟨rfl, rfl⟩ := Prod.mk.inj h
    exact .inr ⟨r, rs, last, rfl, hrs, rfl, rfl⟩

theorem run_cons_eq {d : Desk} {s : Step} {ss : List Step} {answers : List (Answer × Desk)}
    (h : d.run (s :: ss) = answers.map some) :
    ∃ a e rest, d.step s = some (a, e) ∧ run e ss = rest.map some ∧ answers = (a, e) :: rest := by
  rw [run] at h
  cases answers with
  | nil => split at h <;> simp at h
  | cons x rest =>
    cases hs : d.step s with
    | none => simp [hs] at h
    | some r =>
      obtain ⟨a, e⟩ := r
      simp only [hs, List.map_cons, List.cons.injEq, Option.some.injEq] at h
      exact ⟨a, e, rest, rfl, h.2, by rw [← h.1]⟩

/-- the answers of a run that goes through -/
theorem run_eq_map_some {d : Desk} {steps : List Step} (h : (d.run steps).all Option.isSome = true) :
    d.run steps = ((d.run steps).filterMap id).map some := by
  generalize d.run steps = rs at h
  induction rs with
  | nil => rfl
  | cons r rs ih =>
    cases r with
    | none => cases h
    | some a => exact congrArg (some a :: ·) (ih h)

end Desk

end Courier
