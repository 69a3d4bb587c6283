import Courier.Proofs.Calls
import Courier.Proofs.Segments

/-!
Two write sessions side by side.

Let two sessions be related, and let it take no more to keep them so than that they have one view of their levels, that
acts which touch no level come to the same in both and leave them related, and that a mark and a move of the levels do:
then whole calls come to the same too, and leave the two related. `Tandem R` lists what `R` needs, and the lemmas of
this module go through the ways of putting calls together, one by one. The acts in question are those whose layouts
match one another in all byte orders, so the two sessions need not have the same one; `Parallel R` is for relations
between sessions that do.

`Tandem.message`, `Tandem.field`: the calls, for any such relation.
`Parallel.code`: messages given by their codes, where these go on alike in related sessions.
-/

namespace Courier

namespace Writer

variable {α β : Type}

/-- calls that come to the same and leave related sessions -/
structure Abreast (R : Writer → Writer → Prop) (s t : Sent α) : Prop where
  result : s.result = t.result
  left : s.left = t.left
  writer : R s.writer t.writer

/-- a relation between sessions that their acts keep -/
structure Tandem (R : Writer → Writer → Prop) : Prop where
  levels : ∀ {w v}, R w v → w.nesting.view = v.nesting.view
  acts : ∀ {act : Writing Unit} {l : ByteOrder → Layout}, Lays act l → (∀ o p, (l o).Matches (l p)) → ∀ {w v}, R w v →
    Abreast R (sent () act w) (sent () act v)
  mark : ∀ {w v : Writer}, R w v → R { w with failed := true } { v with failed := true }
  onNesting : ∀ {w v}, R w v → ∀ {f : Nesting → Nesting} {g : Levels → Levels}, (∀ s, (f s).view = g s.view) →
    R (w.onNesting f) (v.onNesting f)

/-- a relation between sessions of one byte order that their acts keep -/
structure Parallel (R : Writer → Writer → Prop) : Prop where
  order : ∀ {w v}, R w v → w.order = v.order
  levels : ∀ {w v}, R w v → w.nesting.view = v.nesting.view
  layout : ∀ (l : Layout) {w v}, R w v → Abreast R (sent () l.run w) (sent () l.run v)
  mark : ∀ {w v : Writer}, R w v → R { w with failed := true } { v with failed := true }
  onNesting : ∀ {w v}, R w v → ∀ {f : Nesting → Nesting} {g : Levels → Levels}, (∀ s, (f s).view = g s.view) →
    R (w.onNesting f) (v.onNesting f)

variable {R : Writer → Writer → Prop}

namespace Abreast

variable {s t : Sent α}

theorem map (h : Abreast R s t) (f : α → β) : Abreast R (s.map f) (t.map f) :=
  ⟨h.result, congrArg f h.left, h.writer⟩

theorem bind (h : Abreast R s t) {next : α → Writer → Sent β} {stop : α → β}
    (hn : ∀ a {w v : Writer}, R w v → Abreast R (next a w) (next a v)) :
    Abreast R (s.bind next stop) (t.bind next stop) := by
  unfold Sent.bind
  rw [h.result, h.left]
  split
  · exact hn _ h.writer
  · exact ⟨rfl, rfl, h.writer⟩

theorem values {vs : List Value}
    (hx : ∀ x ∈ vs, ∀ t, ∀ {w v : Writer}, R w v → Abreast R (sent () (x.write t) w) (sent () (x.write t) v))
    (t : ItemType) {w v : Writer} (hw : R w v) :
    Abreast R (sent () (Value.writeAll t vs) w) (sent () (Value.writeAll t vs) v) := by
  induction vs generalizing w v with
  | nil => exact ⟨rfl, rfl, hw⟩
  | cons x vs ih =>
    rw [Value.writeAll, sent_bind, sent_bind]
    exact (hx x List.mem_cons_self t hw).bind fun _ _ _ hv => ih (fun x hxs => hx x (List.mem_cons_of_mem _ hxs)) hv

theorem entries {es : List (Value × Value)}
    (hx : ∀ e ∈ es,
      (∀ t, ∀ {w v : Writer}, R w v → Abreast R (sent () (e.1.write t) w) (sent () (e.1.write t) v)) ∧
      ∀ t, ∀ {w v : Writer}, R w v → Abreast R (sent () (e.2.write t) w) (sent () (e.2.write t) v))
    (kt vt : ItemType) {w v : Writer} (hw : R w v) :
    Abreast R (sent () (Value.writeEntries kt vt es) w) (sent () (Value.writeEntries kt vt es) v) := by
  induction es generalizing w v with
  | nil => exact ⟨rfl, rfl, hw⟩
  | cons e es ih =>
    obtain ⟨hk, hv⟩ := hx e List.mem_cons_self
    rw [Value.writeEntries, sent_bind, sent_bind]
    apply (hk kt hw).bind
    intro _ _ _ h₁
    rw [sent_bind, sent_bind]
    exact (hv vt h₁).bind fun _ _ _ h₂ => ih (fun e he => hx e (List.mem_cons_of_mem _ he)) h₂

end Abreast

theorem Parallel.tandem (h : Parallel R) : Tandem R where
  levels := h.levels
  acts := by
    intro act l ha _ w v hw
    have hrun : ∀ u, sent () act u = sent () (l u.order).run u := fun u => by rw [sent, sent, ha u]
    rw [hrun, hrun, h.order hw]
    exact h.layout _ hw
  mark := h.mark
  onNesting := h.onNesting

namespace Tandem

variable {w v : Writer} {s t : Sent α}

theorem depth (h : Tandem R) (hw : R w v) : w.depth = v.depth :=
  congrArg Levels.depth (h.levels hw)

theorem cursor (h : Tandem R) (hw : R w v) : w.cursor = v.cursor := by
  change w.nesting.cursor = v.nesting.cursor
  rw [← Nesting.cursor_view, h.levels hw, Nesting.cursor_view]

theorem headerWritten (h : Tandem R) (hw : R w v) : w.headerWritten = v.headerWritten := by
  change w.nesting.headerWritten = v.nesting.headerWritten
  rw [← Nesting.headerWritten_view, h.levels hw, Nesting.headerWritten_view]

theorem lays (h : Tandem R) {act : Writing Unit} {l : ByteOrder → Layout} {segs : List Segment} (ha : Lays act l)
    (hl : Spells l segs) (left : α) (hw : R w v) : Abreast R (sent left act w) (sent left act v) := by
  have hleft : ∀ u, sent left act u = (sent () act u).map fun _ => left := by
    intro u
    rw [sent, sent]
    cases act u <;> rfl
  rw [hleft, hleft]
  exact (h.acts ha hl.uniform hw).map _

theorem refuse (h : Tandem R) (e : WireError) (hw : R w v) :
    Abreast R (sent () (Writer.refuse e) w) (sent () (Writer.refuse e) v) :=
  h.lays (l := fun _ => .refuse e) (fun _ => rfl) (Spells.refuse e (List.forall_mem_nil _)) () hw

theorem leave (h : Tandem R) (hs : Abreast R s t) : Abreast R (leave s) (leave t) := by
  obtain ⟨result, w, left⟩ := s
  obtain ⟨result', v, left'⟩ := t
  obtain ⟨rfl, rfl, hw⟩ := hs
  have hup : ∀ b, R (w.onNesting (·.retreat b)) (v.onNesting (·.retreat b)) := fun b =>
    h.onNesting hw (g := (·.retreat b)) fun s => s.view_retreat b
  dsimp only at hw
  simp only [Writer.leave, h.depth hw]
  split
  · exact ⟨rfl, rfl, hw⟩
  · rcases result with (e | _) | b
    · exact ⟨rfl, rfl, h.mark (hup false)⟩
    · exact ⟨rfl, rfl, hup false⟩
    · exact ⟨rfl, rfl, hup b⟩

theorem settle (h : Tandem R) (hs : Abreast R s t) : Abreast R (settle s) (settle t) := by
  obtain ⟨result, w, left⟩ := s
  obtain ⟨result', v, left'⟩ := t
  obtain ⟨rfl, rfl, hw⟩ := hs
  dsimp only at hw
  rcases result with (e | _) | (_ | _)
  · exact ⟨rfl, rfl, h.mark hw⟩
  · exact ⟨rfl, rfl, hw⟩
  · exact ⟨rfl, rfl, hw⟩
  · simp only [Writer.settle, h.depth hw]
    split
    · exact ⟨rfl, rfl, h.onNesting hw Nesting.view_wipe⟩
    · exact ⟨rfl, rfl, hw⟩

theorem whole (h : Tandem R) (hs : Abreast R s t) (type : Int16) (w v : Writer) :
    Abreast R (sent () (fun _ => Writer.whole type s) w) (sent () (fun _ => Writer.whole type t) v) := by
  obtain ⟨result, w, left⟩ := s
  obtain ⟨result', v, left'⟩ := t
  obtain ⟨rfl, rfl, hw⟩ := hs
  rcases result with f | (_ | _)
  · exact ⟨rfl, rfl, hw⟩
  · exact ⟨rfl, rfl, h.mark hw⟩
  · exact ⟨rfl, rfl, hw⟩

theorem rounds (h : Tandem R) {s t : Sent (Grant × α)} (hs : Abreast R s t) {n : Nat}
    {pass : Grant → Writer → Sent (Grant × α)} (hp : ∀ g {w v : Writer}, R w v → Abreast R (pass g w) (pass g v))
    (k : Nat) : Abreast R (rounds n pass k s) (rounds n pass k t) := by
  induction k generalizing s t with
  | zero =>
    rw [Writer.rounds, Writer.rounds, hs.result, h.cursor hs.writer]
    split
    · split
      · exact ⟨rfl, hs.left, hs.writer⟩
      · exact hs
    · exact hs
  | succ k ih =>
    rw [Writer.rounds, Writer.rounds, hs.result, h.cursor hs.writer, hs.left]
    split
    · split
      · exact ih (hp _ hs.writer)
      · exact hs
    · exact hs

/-! ## Calls -/

theorem fields (h : Tandem R) {fs : List Field}
    (hf : ∀ f ∈ fs, ∀ {w v : Writer}, R w v → Abreast R (f.write w) (f.write v)) (k : Nat) (grant : Grant)
    (hw : R w v) : Abreast R (Field.writeAll k grant fs w) (Field.writeAll k grant fs v) := by
  induction fs generalizing k grant w v with
  | nil =>
    rw [Field.writeAll, Field.writeAll]
    exact ⟨rfl, rfl, hw⟩
  | cons f fs ih =>
    have hrest : ∀ k grant {w v : Writer}, R w v →
        Abreast R (Field.writeAll k grant fs w) (Field.writeAll k grant fs v) := fun k grant _ _ hv =>
      ih (fun f hfs => hf f (List.mem_cons_of_mem _ hfs)) k grant hv
    rw [Field.writeAll_cons, Field.writeAll_cons, h.cursor hw]
    split
    · cases spend grant with
      | none => exact ⟨rfl, rfl, hw⟩
      | some grant =>
        apply (hf f List.mem_cons_self hw).bind
        intro f _ _ hv
        exact (hrest (k + 1) grant (h.onNesting hv Nesting.view_increment)).map _
    · exact (hrest (k + 1) grant hw).map _

theorem fieldsOf (h : Tandem R) (kind : MessageKind) {fields : List Field} (pauses : List Nat)
    (hf : ∀ f ∈ fields, ∀ {w v : Writer}, R w v → Abreast R (f.write w) (f.write v)) (hw : R w v) :
    Abreast R ((Message.mk kind fields pauses).write w) ((Message.mk kind fields pauses).write v) := by
  have hpass : ∀ g {w v : Writer}, R w v → Abreast R (passes fields g w) (passes fields g v) := fun g _ _ hv =>
    h.rounds (h.fields hf 0 g hv) (fun g _ _ hv => h.fields hf 0 g hv) _
  rw [Message.write_mk, Message.write_mk, h.headerWritten hw]
  split
  · exact (hpass _ hw).map _
  · cases spend pauses.head? with
    | none => exact ⟨rfl, rfl, hw⟩
    | some grant =>
      have hhead : Abreast R (header kind.type w) (header kind.type v) :=
        (h.lays (Lays.fixed kind.type Lays.done).alone (Spells.done.fixed (.short kind.type)) () hw).bind fun _ _ _ hv =>
          ⟨rfl, rfl, h.onNesting hv Nesting.view_markHeader⟩
      exact hhead.bind fun _ _ _ hv => (hpass grant hv).map _

theorem plain (h : Tandem R) {f : Field} (hf : f.isPlain = true) (hw : R w v) :
    Abreast R (f.write w) (f.write v) := by
  cases f with
  | data d => exact h.lays (lays_writeDatum d) d.spells _ hw
  | absent t => exact h.lays (lays_writeAbsent t) t.spells_absent _ hw
  | fixedInt n => exact h.lays (Lays.fixed n Lays.done).alone (Spells.done.fixed (.int n)) _ hw
  | fixedLong n => exact h.lays (Lays.fixed n Lays.done).alone (Spells.done.fixed (.long n)) _ hw
  | range bs offset len => exact h.lays (lays_writeByteArrayPart bs offset len) (Segment.spells_part bs offset len) _ hw
  | raw bs => exact h.lays (Lays.put (Nat.le_refl _) Lays.done).alone (Spells.done.bytes bs) _ hw
  | object shape p => exact h.lays (fun _ => rfl) (Spells.object p.emission) _ hw
  | nothing => exact h.lays (Lays.fixed nullLength Lays.done).alone (Spells.done.fixed (.int nullLength)) _ hw
  | message m =>
    cases m with
    | none => exact h.lays (Lays.fixed nullMessageType Lays.done).alone (Spells.done.fixed (.short nullMessageType)) _ hw
    | some m => cases hf
  | advance => exact ⟨rfl, rfl, h.onNesting hw Nesting.view_increment⟩
  | markHeader => exact ⟨rfl, rfl, h.onNesting hw Nesting.view_markHeader⟩
  | note | stall | fail => exact ⟨rfl, rfl, hw⟩
  | item | items | map | root => cases hf

theorem step (h : Tandem R) :
    Tree.Step (fun m => ∀ {w v : Writer}, R w v → Abreast R (m.write w) (m.write v))
      (fun f => ∀ {w v : Writer}, R w v → Abreast R (f.write w) (f.write v))
      fun x => ∀ t, ∀ {w v : Writer}, R w v → Abreast R (sent () (x.write t) w) (sent () (x.write t) v) where
  message kind _ pauses hf _ _ hw := h.fieldsOf kind pauses hf hw
  plain _ hf _ _ hw := h.plain hf hw
  item t x hx _ _ hw := by
    rw [Field.write_item, Field.write_item]
    exact (hx t hw).map _
  items way t vs hx _ _ hw := by
    rw [Field.write_items, Field.write_items]
    have hcount := h.lays (lays_writeCount way t vs.length) (Segment.spells_counted way t vs.length) () hw
    exact (hcount.bind fun _ _ _ hv => Abreast.values hx t hv).map _
  map kt vt linked es hx _ _ hw := by
    rw [Field.write_map, Field.write_map]
    have hcount := h.lays (Lays.count es.length Lays.done).alone (Spells.done.count es.length) () hw
    exact (hcount.bind fun _ _ _ hv => Abreast.entries hx kt vt hv).map _
  nested m hm _ _ hw := by
    rw [Field.write, Field.write]
    exact (h.leave (hm (h.onNesting hw Nesting.view_forward))).map fun m => Field.message (some m)
  root m hm _ _ hw := by
    have hs := h.settle (hm hw)
    rw [Field.write, Field.write]
    exact ⟨congrArg (Except.map fun _ => true) hs.result, rfl, hs.writer⟩
  null t _ _ hw := by
    rw [Value.write]
    split
    · exact h.lays (lays_writeAbsent t) t.spells_absent () hw
    · exact h.refuse _ hw
  data d t _ _ hw := by
    rw [Value.write]
    split
    · exact h.lays (lays_writeDatum d) d.spells () hw
    · exact h.refuse _ hw
  inner m hm t w v hw := by
    by_cases ht : t = .message
    · rw [Value.write_message ht]
      exact h.whole (h.leave (hm (h.onNesting hw Nesting.view_forward))) m.type w v
    · rw [Value.write_message_ne ht]
      exact h.refuse _ hw

/-- **A call on a message keeps what its acts keep.** -/
theorem message (h : Tandem R) (m : Message) (hw : R w v) : Abreast R (m.write w) (m.write v) :=
  h.step.all.1 m hw

theorem field (h : Tandem R) (f : Field) (hw : R w v) : Abreast R (f.write w) (f.write v) :=
  h.step.all.2.1 f hw

end Tandem

end Writer

/-! ## Messages given by their codes -/

/-- codes that do the same acts and go on alike in sessions related by `R` -/
inductive WriteCode.Akin (R : Writer → Writer → Prop) : WriteCode → WriteCode → Prop
  | finish (result : Except WireError Bool) : Akin R (.finish result) (.finish result)
  | act (l : Layout) {next next' : Except WireError Bool → Writer → WriteCode}
      (h : ∀ r w v, R w v → Akin R (next r w) (next' r v)) : Akin R (.act l next) (.act l next')
  | field (f : Field) {next next' : Except WireError Bool → Writer → WriteCode}
      (h : ∀ r w v, R w v → Akin R (next r w) (next' r v)) : Akin R (.field f next) (.field f next')
  | nested {body body' : WriteCode} {next next' : Except WireError Bool → Writer → WriteCode} (hb : Akin R body body')
      (h : ∀ r w v, R w v → Akin R (next r w) (next' r v)) : Akin R (.nested body next) (.nested body' next')
  | root {body body' : WriteCode} {next next' : Except WireError Bool → Writer → WriteCode} (hb : Akin R body body')
      (h : ∀ r w v, R w v → Akin R (next r w) (next' r v)) : Akin R (.root body next) (.root body' next')

/-- fewer sessions are told apart -/
theorem WriteCode.Akin.mono {R S : Writer → Writer → Prop} (hRS : ∀ w v, S w v → R w v) {c c' : WriteCode}
    (h : c.Akin R c') : c.Akin S c' := by
  induction h with
  | finish result => exact .finish result
  | act l _ ih => exact .act l fun r w v hwv => ih r w v (hRS w v hwv)
  | field f _ ih => exact .field f fun r w v hwv => ih r w v (hRS w v hwv)
  | nested _ _ ihb ih => exact .nested ihb fun r w v hwv => ih r w v (hRS w v hwv)
  | root _ _ ihb ih => exact .root ihb fun r w v hwv => ih r w v (hRS w v hwv)

namespace Writer

variable {α : Type} {R : Writer → Writer → Prop}

theorem Abreast.onto {s t : Sent α} (h : Abreast R s t) {next next' : Except WireError Bool → Writer → Sent Unit}
    (hn : ∀ r {w v : Writer}, R w v → Abreast R (next r w) (next' r v)) : Abreast R (s.onto next) (t.onto next') := by
  unfold Sent.onto
  rw [h.result]
  rcases t.result with (e | _) | b
  · exact hn _ h.writer
  · exact ⟨rfl, rfl, h.writer⟩
  · exact hn _ h.writer

/-- **Akin codes keep what acts keep.** -/
theorem Parallel.code (h : Parallel R) {c c' : WriteCode} (hc : c.Akin R c') {w v : Writer} (hw : R w v) :
    Abreast R (c.run w) (c'.run v) := by
  have ht := h.tandem
  induction hc generalizing w v with
  | finish result => exact ⟨rfl, rfl, hw⟩
  | act l _ ih => exact (h.layout l hw).onto fun r _ _ hv => ih r _ _ hv hv
  | field f _ ih => exact (ht.field f hw).onto fun r _ _ hv => ih r _ _ hv hv
  | nested _ _ ihb ih =>
    exact (ht.leave (ihb (ht.onNesting hw Nesting.view_forward))).onto fun r _ _ hv => ih r _ _ hv hv
  | root _ _ ihb ih => exact (ht.settle (ihb hw)).onto fun r _ _ hv => ih r _ _ hv hv

end Writer

end Courier
