import Courier.Proofs.BuffersUnseen

/-!
Desks that differ in the buffers of their handlers only.

`Desk.Alike` desks have the same frames and keep the same messages, and their handlers have the same settings and the
same progress; which buffers are kept where is left open. What is done with them is answered alike, as long as no code
looks at buffers, and leaves alike desks: `Desk.Alike.step` and `Desk.Alike.turn` are one step and one turn,
`Desk.Alike.turns` is a whole run. A desk is `Proper` if its handlers are as handlers can become; `Desk.Proper.turn` says
that turns of any sort keep it so.
-/

namespace Courier

open Writer

theorem forall₂_getElem? {α β : Type} {R : α → β → Prop} {xs : List α} {ys : List β} (h : List.Forall₂ R xs ys)
    (i : Nat) : Option.Rel R xs[i]? ys[i]? := by
  induction h generalizing i with
  | nil => exact .none
  | cons hxy _ ih =>
    cases i with
    | zero => exact .some hxy
    | succ i => exact ih i

theorem forall₂_set {α β : Type} {R : α → β → Prop} {xs : List α} {ys : List β} (h : List.Forall₂ R xs ys) {x : α}
    {y : β} (hxy : R x y) (i : Nat) : List.Forall₂ R (xs.set i x) (ys.set i y) := by
  induction h generalizing i with
  | nil => exact .nil
  | cons h hs ih =>
    cases i with
    | zero => exact .cons hxy hs
    | succ i => exact .cons h (ih i)

theorem rel_bind {α β γ δ : Type} {R : α → β → Prop} {S : γ → δ → Prop} {x : Option α} {y : Option β}
    {f : α → Option γ} {g : β → Option δ} (h : Option.Rel R x y) (hfg : ∀ {a b}, R a b → Option.Rel S (f a) (g b)) :
    Option.Rel S (x.bind f) (y.bind g) := by
  cases h with
  | none => exact .none
  | some h => exact hfg h

/-- answers that are the same, but for the buffers of handlers and sessions -/
inductive Answer.Alike : Answer → Answer → Prop
  | written {xs ys : List Written} {h g : Handler} (acts : List.Forall₂ Written.Alike xs ys) (size : Option Nat)
    (frame : Frame) (handler : h.Alike g) : Alike (.written xs size frame h) (.written ys size frame g)
  | refused {h g : Handler} (e : WireError) (handler : h.Alike g) : Alike (.refused e h) (.refused e g)
  | received {h g : Handler} (acts : List Received) (frame : Frame) (handler : h.Alike g) :
    Alike (.received acts frame h) (.received acts frame g)
  | trials (ts : List Trial) : Alike (.trials ts) (.trials ts)
  | handler {h g : Handler} (handler : h.Alike g) : Alike (.handler h) (.handler g)
  | config (c : Config) : Alike (.config c) (.config c)
  | text {h g : Handler} (handler : h.Alike g) : Alike (.text h.debugText) (.text g.debugText)
  | frame (f : Frame) : Alike (.frame f) (.frame f)

namespace Desk

/-- a desk of proper handlers, where the shared cache is modest too -/
structure Proper (d : Desk) : Prop where
  handlers : ∀ h ∈ d.handlers, h.Proper
  shared : d.shared.Modest

/-- proper desks with alike handlers, the same frames and the same messages kept -/
structure Alike (d e : Desk) : Prop where
  handlers : List.Forall₂ Handler.Alike d.handlers e.handlers
  frames : d.frames = e.frames
  drafts : d.drafts = e.drafts
  left : d.Proper
  right : e.Proper

/-- outcomes of a step that are answered alike and leave alike desks -/
def Outcome (x y : Answer × Desk) : Prop :=
  x.1.Alike y.1 ∧ x.2.Alike y.2

theorem Proper.alike {d : Desk} (h : d.Proper) : d.Alike d :=
  ⟨List.forall₂_same.2 fun h _ => .refl h, rfl, rfl, h, h⟩

theorem Proper.set {d : Desk} (hd : d.Proper) {h : Handler} (hh : h.Proper) (i : Nat) :
    Proper { d with handlers := d.handlers.set i h } := by
  refine ⟨fun g hg => ?_, hd.shared⟩
  rcases List.mem_or_eq_of_mem_set hg with hg | rfl
  · exact hd.handlers g hg
  · exact hh

/-- another handler in the place of one that it is like -/
theorem Proper.alike_set {d : Desk} (hd : d.Proper) {i : Nat} {h g : Handler} (hi : d.handlers[i]? = some h)
    (hg : h.Alike g) (hp : g.Proper) : d.Alike { d with handlers := d.handlers.set i g } := by
  have hset : d.handlers.set i h = d.handlers := by
    obtain ⟨hlt, rfl⟩ := List.getElem?_eq_some_iff.1 hi
    exact List.set_getElem_self hlt
  have hall := forall₂_set hd.alike.handlers hg i
  rw [hset] at hall
  exact ⟨hall, rfl, rfl, hd, hd.set hp i⟩

namespace Alike

variable {d e : Desk}

theorem frameNamed (h : d.Alike e) (f : String) : d.frameNamed f = e.frameNamed f := by
  rw [Desk.frameNamed, Desk.frameNamed, h.frames]

theorem handler (h : d.Alike e) (i : Nat) :
    Option.Rel (fun x y : Handler => x.Alike y ∧ x.Proper ∧ y.Proper) d.handlers[i]? e.handlers[i]? := by
  have hi := forall₂_getElem? h.handlers i
  have hl : ∀ g, d.handlers[i]? = some g → g.Proper := fun g hg => h.left.handlers g (List.mem_of_getElem? hg)
  have hr : ∀ g, e.handlers[i]? = some g → g.Proper := fun g hg => h.right.handlers g (List.mem_of_getElem? hg)
  generalize d.handlers[i]? = x at hi hl
  generalize e.handlers[i]? = y at hi hr
  cases hi with
  | none => exact .none
  | some hxy => exact .some ⟨hxy, hl _ rfl, hr _ rfl⟩

theorem bench (h : d.Alike e) (i : Nat) (f : String) : Option.Rel Bench.Alike (d.bench i f) (e.bench i f) :=
  rel_map (h.handler i) fun hg => ⟨hg.1, h.frameNamed f, ⟨hg.2.1, h.left.shared⟩, ⟨hg.2.2, h.right.shared⟩⟩

theorem putBack (h : d.Alike e) {b c : Bench} (hb : b.Alike c) (i : Nat) (f : String) :
    (d.putBack i f b).Alike (e.putBack i f c) where
  handlers := forall₂_set h.handlers hb.handler i
  frames := congrArg₂ (store · f) h.frames hb.frame
  drafts := h.drafts
  left := ⟨(h.left.set hb.left.handler i).handlers, hb.left.shared⟩
  right := ⟨(h.right.set hb.right.handler i).handlers, hb.right.shared⟩

theorem setDrafts (h : d.Alike e) (drafts : List (String × Message)) :
    Alike { d with drafts := drafts } { e with drafts := drafts } :=
  ⟨h.handlers, h.frames, rfl, ⟨h.left.handlers, h.left.shared⟩, ⟨h.right.handlers, h.right.shared⟩⟩

theorem storeFrame (h : d.Alike e) (name : String) (f : Frame) :
    Alike { d with frames := store d.frames name f } { e with frames := store e.frames name f } :=
  ⟨h.handlers, congrArg (store · name f) h.frames, h.drafts, ⟨h.left.handlers, h.left.shared⟩,
    ⟨h.right.handlers, h.right.shared⟩⟩

theorem step_write (h : d.Alike e) (i : Nat) (f : String) (acts : List WriteAct) (ending : Ending) :
    Option.Rel Outcome (d.step (.write i f acts ending)) (e.step (.write i f acts ending)) := by
  rw [step_write_eq, step_write_eq, h.drafts]
  apply rel_bind (h.bench i f)
  intro b c hb
  apply rel_map (writeActs_twin acts hb.twin_openWrite e.drafts)
  rintro x y ⟨hacts, hw, hdrafts⟩
  obtain ⟨hsize, hend⟩ := finish_twin hb.openWrite hw ending
  rw [hsize, hdrafts, hend.frame]
  exact ⟨.written hacts _ _ hend.handler, (h.putBack hend i f).setDrafts _⟩

theorem step_read (h : d.Alike e) (i : Nat) (f : String) (kinds : List FieldKind) (ending : Ending) :
    Option.Rel Outcome (d.step (.read i f kinds ending)) (e.step (.read i f kinds ending)) := by
  rw [step_read_eq, step_read_eq]
  apply rel_bind (h.bench i f)
  intro b c hb
  have ho := hb.openRead
  generalize b.openRead = x at ho
  generalize c.openRead = y at ho
  cases ho with
  | refused err => exact .some ⟨.refused err hb.handler, h.putBack hb i f⟩
  | opened hr =>
    apply rel_map (readKinds_alike kinds hr)
    intro x y hxy
    have hend := hb.finishRead hxy.2 ending
    rw [hxy.1, hend.frame]
    exact ⟨.received _ _ hend.handler, h.putBack hend i f⟩

theorem step_damage (h : d.Alike e) (i : Nat) (f : String) (kinds : List FieldKind) (damage : Damage) (stride : Nat) :
    Option.Rel Outcome (d.step (.damage i f kinds damage stride)) (e.step (.damage i f kinds damage stride)) := by
  rw [step, step]
  apply rel_bind (h.bench i f)
  intro b c hb
  rw [hb.frame]
  apply rel_bind (trials_alike c.frame kinds damage _ hb)
  intro x y hxy
  obtain ⟨ts, b'⟩ := x
  obtain ⟨ts', c'⟩ := y
  obtain ⟨rfl, hxy⟩ := hxy
  exact .some ⟨.trials _, h.putBack (hxy.withFrame c.frame) i f⟩

theorem setHandler (h : d.Alike e) (i : Nat) {x y : Handler} (hxy : x.Alike y) (hx : x.Proper) (hy : y.Proper) :
    Alike { d with handlers := d.handlers.set i x } { e with handlers := e.handlers.set i y } :=
  ⟨forall₂_set h.handlers hxy i, h.frames, h.drafts, h.left.set hx i, h.right.set hy i⟩

/-- **A step is answered alike** on desks that are alike, and leaves them alike. -/
theorem step (h : d.Alike e) (s : Step) : Option.Rel Outcome (d.step s) (e.step s) := by
  cases s with
  | write i f acts ending => exact h.step_write i f acts ending
  | read i f kinds ending => exact h.step_read i f kinds ending
  | damage i f kinds damage stride => exact h.step_damage i f kinds damage stride
  | reset i =>
    rw [Desk.step, Desk.step]
    apply rel_bind (h.handler i)
    rintro x y ⟨hxy, hx, hy⟩
    have hr : x.reset.Alike y.reset := by
      refine ⟨hxy.factory, hxy.config, ?_⟩
      rw [Handler.reset, Handler.reset, Nesting.view_clear, Nesting.view_clear]
    exact .some ⟨.handler hr,
      h.setHandler i hr ⟨hx.normal, hx.levels, hx.modest⟩ ⟨hy.normal, hy.levels, hy.modest⟩⟩
  | config i =>
    rw [Desk.step, Desk.step]
    apply rel_bind (h.handler i)
    intro x y hg
    rw [hg.1.config]
    exact .some ⟨.config _, h⟩
  | debug i =>
    rw [Desk.step, Desk.step]
    exact rel_bind (h.handler i) fun hg => .some ⟨.text hg.1, h⟩
  | join f sources =>
    rw [Desk.step, Desk.step, funext h.frameNamed]
    exact .some ⟨.frame _, h.storeFrame ..⟩
  | frame f acts =>
    rw [Desk.step, Desk.step, h.frameNamed f]
    cases frameActs (e.frameNamed f) acts with
    | none => exact .none
    | some g => exact .some ⟨.frame g, h.storeFrame ..⟩

end Alike

end Desk

/-! ## Turns -/

/-- a turn whose codes do not look at buffers -/
def Turn.Discreet : Turn → Prop
  | .step _ => True
  | .write _ _ code _ => code.Discreet
  | .read _ _ codes code _ => codes.Discreet ∧ code.Discreet

/-- reports that are the same, but for the buffers of handlers and sessions -/
inductive Report.Alike : Report → Report → Prop
  | answer {a b : Answer} (h : a.Alike b) : Alike (.answer a) (.answer b)
  | written (result : Except WireError Bool) (size : Option Nat) (frame : Frame) {h g : Handler} (handler : h.Alike g) :
    Alike (.written result size frame h) (.written result size frame g)
  | refused (e : WireError) {h g : Handler} (handler : h.Alike g) : Alike (.refused e h) (.refused e g)
  | received (result : Except WireError Message) (frame : Frame) {h g : Handler} (handler : h.Alike g) :
    Alike (.received result frame h) (.received result frame g)

namespace Desk

/-- a write session of a code, from the opening to the end -/
theorem turn_write_eq (d : Desk) (i : Nat) (f : String) (c : WriteCode) (ending : Ending) :
    d.turn (.write i f c ending) = (d.bench i f).bind fun b => (c.run b.openWrite.1).told.map fun result =>
      (.written result (finish b.openWrite.2 (c.run b.openWrite.1).writer ending).1
          (finish b.openWrite.2 (c.run b.openWrite.1).writer ending).2.frame
          (finish b.openWrite.2 (c.run b.openWrite.1).writer ending).2.handler,
        d.putBack i f (finish b.openWrite.2 (c.run b.openWrite.1).writer ending).2) := by
  rw [turn]
  cases d.bench i f with
  | none => rfl
  | some b =>
    have hw := (c.keeps b.inside_openWrite).inside
    dsimp only [Option.bind_eq_bind, Option.bind_some]
    cases (c.run b.openWrite.1).told with
    | none => rfl
    | some result =>
      cases ending with
      | drop => rfl
      | close =>
        simp only [Option.bind_some, Bench.closeWrite_eq _ hw, Option.map_some, finish]
        split <;> rfl

/-- a read session of a code, if it can be opened -/
theorem turn_read_eq (d : Desk) (i : Nat) (f : String) (codes : CodeFactory) (c : ReadCode Message) (ending : Ending) :
    d.turn (.read i f codes c ending) = (d.bench i f).bind fun b =>
      match b.openRead with
      | .error err => some (.refused err b.handler, d.putBack i f b)
      | .ok r => (Reader.told (Reader.runCoded codes c r)).map fun x =>
        (.received x.1 (finishRead b x.2 ending).frame (finishRead b x.2 ending).handler,
          d.putBack i f (finishRead b x.2 ending)) := by
  rw [turn]
  cases d.bench i f with
  | none => rfl
  | some b =>
    dsimp only [Option.bind_eq_bind, Option.bind_some]
    cases b.openRead with
    | error err => rfl
    | ok r =>
      dsimp only
      cases Reader.told (Reader.runCoded codes c r) <;> cases ending <;> rfl

/-- reports of a turn that are alike, with alike desks behind them -/
def Matched (x y : Report × Desk) : Prop :=
  x.1.Alike y.1 ∧ x.2.Alike y.2

namespace Alike

variable {d e : Desk}

theorem turn_write (h : d.Alike e) (i : Nat) (f : String) {c : WriteCode} (hc : c.Discreet) (ending : Ending) :
    Option.Rel Matched (d.turn (.write i f c ending)) (e.turn (.write i f c ending)) := by
  rw [turn_write_eq, turn_write_eq]
  apply rel_bind (h.bench i f)
  intro b b' hb
  have hboth := parallel_twin.code (hc.mono fun _ _ h => h.toAlike) hb.twin_openWrite
  obtain ⟨hsize, hend⟩ := finish_twin hb.openWrite hboth.writer ending
  have htold : (c.run b.openWrite.1).told = (c.run b'.openWrite.1).told := by rw [Sent.told, Sent.told, hboth.result]
  rw [htold, hsize]
  cases (c.run b'.openWrite.1).told with
  | none => exact .none
  | some result =>
    refine .some ⟨?_, h.putBack hend i f⟩
    rw [hend.frame]
    exact .written _ _ _ hend.handler

theorem turn_read (h : d.Alike e) (i : Nat) (f : String) {codes : CodeFactory} {c : ReadCode Message}
    (hcodes : codes.Discreet) (hc : c.Discreet) (ending : Ending) :
    Option.Rel Matched (d.turn (.read i f codes c ending)) (e.turn (.read i f codes c ending)) := by
  rw [turn_read_eq, turn_read_eq]
  apply rel_bind (h.bench i f)
  intro b b' hb
  have ho := hb.openRead
  generalize b.openRead = x at ho
  generalize b'.openRead = y at ho
  cases ho with
  | refused err => exact .some ⟨.refused err hb.handler, h.putBack hb i f⟩
  | @opened r s hr =>
    have hread := Reader.level_runCoded hcodes hc r s hr
    dsimp only
    generalize Reader.runCoded codes c r = x at hread
    generalize Reader.runCoded codes c s = y at hread
    have hend : ∀ {t u : Reader}, Reader.Alike t u → ∀ result : Except WireError Message,
        Matched (.received result (finishRead b t ending).frame (finishRead b t ending).handler,
            d.putBack i f (finishRead b t ending))
          (.received result (finishRead b' u ending).frame (finishRead b' u ending).handler,
            e.putBack i f (finishRead b' u ending)) := by
      intro t u htu result
      have hend := hb.finishRead htu ending
      rw [hend.frame]
      exact ⟨.received _ _ hend.handler, h.putBack hend i f⟩
    cases hread with
    | ok m htu => exact .some (hend htu (.ok m))
    | error fault htu =>
      cases fault with
      | panic => exact .none
      | error err => exact .some (hend htu (.error err))

/-- **A turn is reported alike** on desks that are alike, and leaves them alike. -/
theorem turn (h : d.Alike e) {t : Turn} (ht : t.Discreet) : Option.Rel Matched (d.turn t) (e.turn t) := by
  cases t with
  | step s => exact rel_map (h.step s) fun hs => ⟨.answer hs.1, hs.2⟩
  | write i f c ending => exact h.turn_write i f ht ending
  | read i f codes c ending => exact h.turn_read i f ht.1 ht.2 ending

/-- **A run is reported alike** on desks that are alike. -/
theorem turns (h : d.Alike e) {ts : List Turn} (hts : ∀ t ∈ ts, t.Discreet) :
    List.Forall₂ (Option.Rel Matched) (d.turns ts) (e.turns ts) := by
  induction ts generalizing d e with
  | nil => exact .nil
  | cons t ts ih =>
    have ht := h.turn (hts t List.mem_cons_self)
    rw [Desk.turns, Desk.turns]
    generalize d.turn t = x at ht
    generalize e.turn t = y at ht
    cases ht with
    | none => exact .cons .none .nil
    | some hxy => exact .cons (.some hxy) (ih hxy.2 fun t hm => hts t (List.mem_cons_of_mem _ hm))

end Alike

/-! ## What turns of any sort keep -/

theorem Proper.bench {d : Desk} (h : d.Proper) {i : Nat} {f : String} {b : Bench} (hb : d.bench i f = some b) :
    b.Proper := by
  obtain ⟨g, hg, rfl⟩ := Option.map_eq_some_iff.1 hb
  exact ⟨h.handlers g (List.mem_of_getElem? hg), h.shared⟩

theorem Proper.putBack {d : Desk} (h : d.Proper) {b : Bench} (hb : b.Proper) (i : Nat) (f : String) :
    (d.putBack i f b).Proper :=
  ⟨(h.set hb.handler i).handlers, hb.shared⟩

theorem proper_finish {b : Bench} (hb : b.Proper) {w : Writer} (hw : w.capacity ≤ maxBufferSize) (ending : Ending) :
    (finish b w ending).2.Proper := by
  have hr := hb.release hw
  cases ending with
  | drop => exact hr.settle ..
  | close =>
    unfold finish
    dsimp only
    split
    · exact hr.settle ..
    · exact hr.settle ..

theorem proper_finishRead {b : Bench} (hb : b.Proper) (r : Reader) (ending : Ending) : (finishRead b r ending).Proper := by
  cases ending <;> exact hb.settle ..

/-- **Turns keep a desk proper**, whatever their codes look at. -/
theorem Proper.turn {d e : Desk} (h : d.Proper) {t : Turn} {a : Report} (ht : d.turn t = some (a, e)) : e.Proper := by
  cases t with
  | step s =>
    -- a proper desk is like itself, and a step leaves both sides of a likeness proper
    obtain ⟨x, hx, hxe⟩ := Option.map_eq_some_iff.1 ht
    have ho := h.alike.step s
    rw [hx] at ho
    obtain ⟨-, rfl⟩ := Prod.mk.inj hxe
    cases ho with
    | some ho => exact ho.2.left
  | write i f c ending =>
    rw [turn_write_eq] at ht
    obtain ⟨b, hb, ht⟩ := Option.bind_eq_some_iff.1 ht
    obtain ⟨result, -, hxe⟩ := Option.map_eq_some_iff.1 ht
    obtain ⟨-, rfl⟩ := Prod.mk.inj hxe
    have hbench := h.bench hb
    have hw := Twin.modest hbench.capacity_openWrite (c.keeps b.inside_openWrite)
    exact h.putBack (proper_finish hbench.openWrite hw ending) i f
  | read i f codes c ending =>
    rw [turn_read_eq] at ht
    obtain ⟨b, hb, ht⟩ := Option.bind_eq_some_iff.1 ht
    have hbench := h.bench hb
    cases ho : b.openRead with
    | error err =>
      rw [ho] at ht
      obtain ⟨-, rfl⟩ := Prod.mk.inj (Option.some.inj ht)
      exact h.putBack hbench i f
    | ok r =>
      rw [ho] at ht
      obtain ⟨x, -, hxe⟩ := Option.map_eq_some_iff.1 ht
      obtain ⟨-, rfl⟩ := Prod.mk.inj hxe
      exact h.putBack (proper_finishRead hbench x.2 ending) i f

end Desk

end Courier
