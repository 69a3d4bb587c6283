import Courier.Proofs.Calls
import Courier.Proofs.Resume

/-!
Messages without roots in them never stop.

Of what a message can hold, a root is the only field that may clear the level of that message, and the only one that
may come at a depth where it is a stop. Without roots the cursor of a level only moves on, whoever moves it, so one pass
over the fields is enough; and no call below stops either.

`Steers`: what each of these fields keeps to, drawn through the tree by `steers_step`.
`Message.write_returns`, `Field.write_returns`: where the position lies within the buffer, a call comes to an end, an
interruption or a refusal.
-/

namespace Courier

open Writer

mutual

/-- whether there are no roots in a message, nor in the messages in it -/
def Message.rootless : Message → Bool
  | .mk _ fs _ => Field.rootlessAll fs
termination_by structural m => m

def Field.rootless : Field → Bool
  | .item _ v => v.rootless
  | .items _ _ vs => Value.rootlessAll vs
  | .map _ _ _ es => Value.rootlessEntries es
  | .message (some m) => m.rootless
  | .root _ => false
  | _ => true
termination_by structural f => f

def Field.rootlessAll : List Field → Bool
  | [] => true
  | f :: fs => f.rootless && Field.rootlessAll fs
termination_by structural fs => fs

def Value.rootless : Value → Bool
  | .message m => m.rootless
  | _ => true
termination_by structural v => v

def Value.rootlessAll : List Value → Bool
  | [] => true
  | v :: vs => v.rootless && Value.rootlessAll vs
termination_by structural vs => vs

def Value.rootlessEntries : List (Value × Value) → Bool
  | [] => true
  | (k, v) :: es => (k.rootless && v.rootless) && Value.rootlessEntries es
termination_by structural es => es

end

theorem Field.rootlessAll_iff (fs : List Field) : Field.rootlessAll fs = true ↔ ∀ f ∈ fs, f.rootless = true := by
  induction fs with
  | nil => simp [Field.rootlessAll]
  | cons f fs ih => simp [Field.rootlessAll, ih]

theorem Value.rootlessAll_iff (vs : List Value) : Value.rootlessAll vs = true ↔ ∀ v ∈ vs, v.rootless = true := by
  induction vs with
  | nil => simp [Value.rootlessAll]
  | cons v vs ih => simp [Value.rootlessAll, ih]

theorem Value.rootlessEntries_iff (es : List (Value × Value)) :
    Value.rootlessEntries es = true ↔ ∀ e ∈ es, e.1.rootless = true ∧ e.2.rootless = true := by
  induction es with
  | nil => simp [Value.rootlessEntries]
  | cons e es ih => simp [Value.rootlessEntries, ih]

namespace Dispatch

variable {α β : Type}

/-- a call that is no stop -/
def Returns (d : Dispatch α) : Prop :=
  d.result ≠ .error .panic

namespace Returns

theorem ofLayout {left : α} {order : ByteOrder} {l : Layout} {s : Levels} : Returns (.ofLayout left order l s) := by
  unfold Returns Dispatch.ofLayout
  cases l.result <;> nofun

theorem bind {d : Dispatch α} (h : d.Returns) {next : α → Levels → Dispatch β} {stop : α → β}
    (hn : ∀ a t, (next a t).Returns) : (d.bind next stop).Returns := by
  unfold Dispatch.bind
  split
  · exact hn _ _
  · exact h

theorem whole {d : Dispatch α} (h : d.Returns) (type : Int16) : (d.whole type).Returns := by
  unfold Dispatch.whole
  split
  · nofun
  · exact h

/-- a nested message is left on the level it was gone into -/
theorem leave {s : Levels} {d : Dispatch α} (hd : Sound s.forward d) (h : d.Returns) : d.leave.Returns := by
  rw [Returns, result_leave]
  · exact h
  · rw [hd.depth]
    exact Nat.succ_ne_zero _

theorem values {order : ByteOrder} {vs : List Value} (h : ∀ v ∈ vs, ∀ t s, (v.dispatch order t s).Returns)
    (t : ItemType) (s : Levels) : (Value.dispatchAll order t vs s).Returns := by
  induction vs generalizing s with
  | nil => exact fun h => by cases h
  | cons v vs ih =>
    exact (h v List.mem_cons_self t s).bind fun _ u => ih (fun v hv => h v (List.mem_cons_of_mem _ hv)) u

theorem entries {order : ByteOrder} {es : List (Value × Value)}
    (h : ∀ e ∈ es, (∀ t s, (e.1.dispatch order t s).Returns) ∧ ∀ t s, (e.2.dispatch order t s).Returns)
    (kt vt : ItemType) (s : Levels) : (Value.dispatchEntries order kt vt es s).Returns := by
  induction es generalizing s with
  | nil => exact fun h => by cases h
  | cons e es ih =>
    obtain ⟨hk, hv⟩ := h e List.mem_cons_self
    exact (hk kt s).bind fun _ u => (hv vt u).bind fun _ u' => ih (fun e he => h e (List.mem_cons_of_mem _ he)) u'

end Returns

/-- a call that does not stop and does not move the cursor back -/
structure Steers (s : Levels) (d : Dispatch α) : Prop where
  returns : d.Returns
  cursor_le : s.cursor ≤ d.levels.cursor

namespace Steers

variable {s : Levels} {d : Dispatch α}

theorem of_spares (returns : d.Returns) (h : Spares s d) : Steers s d :=
  ⟨returns, Nat.le_of_eq h.cursor.symm⟩

theorem map (h : Steers s d) (f : α → β) : Steers s (d.map f) :=
  ⟨h.returns, h.cursor_le⟩

theorem plain (order : ByteOrder) {f : Field} (h : f.isPlain = true) (s : Levels) :
    Steers s (f.dispatch order s) := by
  cases f with
  | data | absent | fixedInt | fixedLong | range | raw | object | nothing =>
    rw [Field.dispatch]
    exact .of_spares .ofLayout (.ofLayout ..)
  | message m =>
    cases m with
    | none =>
      rw [Field.dispatch]
      exact .of_spares .ofLayout (.ofLayout ..)
    | some m => cases h
  | note | stall | fail => exact .of_spares (fun h => by cases h) (.stay ..)
  | advance =>
    refine ⟨(fun h => by cases h), ?_⟩
    change s.cursor ≤ s.increment.cursor
    rw [Levels.cursor_increment]
    exact Nat.le_succ _
  | markHeader => exact ⟨(fun h => by cases h), Nat.le_of_eq s.cursor_markHeader.symm⟩
  | _ => cases h

/-- fields that steer are gone over in one pass -/
theorem fields {order : ByteOrder} {fs : List Field} (h : ∀ f ∈ fs, ∀ s, Steers s (f.dispatch order s)) (k : Nat)
    (grant : Grant) {s : Levels} (hk : k ≤ s.cursor) :
    Steers s (Field.dispatchAll order k grant fs s) ∧
      ((Field.dispatchAll order k grant fs s).result = .ok true →
        k + fs.length ≤ (Field.dispatchAll order k grant fs s).levels.cursor) := by
  induction fs generalizing k grant s with
  | nil => exact ⟨⟨(fun h => by cases h), Nat.le_refl _⟩, fun _ => hk⟩
  | cons f fs ih =>
    have hrest := ih fun f hf => h f (List.mem_cons_of_mem _ hf)
    rw [Field.dispatchAll, List.length_cons, Nat.add_comm fs.length, ← Nat.add_assoc]
    split
    · rename_i hc
      cases spend grant with
      | none => exact ⟨⟨(fun h => by cases h), Nat.le_refl _⟩, fun h => by cases h⟩
      | some grant =>
        have hf := h f List.mem_cons_self s
        simp only [Dispatch.bind]
        split
        · -- the field is out, and the cursor stands behind it
          have ht : k + 1 ≤ (f.dispatch order s).levels.increment.cursor := by
            rw [Levels.cursor_increment, ← hc]
            exact Nat.succ_le_succ hf.cursor_le
          obtain ⟨⟨hr, hcur⟩, hlast⟩ := hrest (k + 1) grant ht
          exact ⟨⟨hr, Nat.le_trans (by omega) hcur⟩, hlast⟩
        · rename_i hr
          exact ⟨hf.map _, fun h => absurd h hr⟩
    · obtain ⟨hs, hlast⟩ := hrest (k + 1) grant (s := s) (by omega)
      exact ⟨hs.map _, hlast⟩

end Steers

theorem Returns.message {order : ByteOrder} (kind : MessageKind) {fields : List Field} (pauses : List Nat)
    (h : ∀ f ∈ fields, ∀ s, Steers s (f.dispatch order s)) (s : Levels) :
    ((Message.mk kind fields pauses).dispatch order s).Returns := by
  have hpass := fun g (t : Levels) => Steers.fields h 0 g t.cursor.zero_le
  have hlast : ∀ g t, (Field.dispatchAll order 0 g fields t).result = .ok true →
      fields.length ≤ (Field.dispatchAll order 0 g fields t).levels.cursor := by
    intro g t hr
    have := (hpass g t).2 hr
    omega
  rw [Message.dispatch]
  split
  · dsimp only
    rw [behind_nothing, rounds_of_le (hlast _ s)]
    exact (hpass _ s).1.returns
  · cases spend pauses.head? with
    | none => exact fun h => by cases h
    | some grant =>
      dsimp only
      rw [rounds_of_le (d := (Field.dispatchAll order 0 grant fields s.markHeader).behind _ _) (hlast grant s.markHeader)]
      exact (hpass grant s.markHeader).1.returns

theorem steers_step (order : ByteOrder) :
    Tree.Step (fun m => m.rootless = true → ∀ s, (m.dispatch order s).Returns)
      (fun f => f.rootless = true → ∀ s, Steers s (f.dispatch order s))
      fun v => v.rootless = true → ∀ t s, (v.dispatch order t s).Returns where
  message kind fields pauses h hr s := by
    rw [Message.rootless, Field.rootlessAll_iff] at hr
    exact Returns.message kind pauses (fun f hf => h f hf (hr f hf)) s
  plain f hf _ s := Steers.plain order hf s
  item t v h hr s := .of_spares (h hr t s) (spares_value order v t s)
  items way t vs h hr s := by
    rw [Field.rootless, Value.rootlessAll_iff] at hr
    rw [Field.dispatch]
    refine Steers.map (.of_spares (Returns.bind .ofLayout fun _ u => ?_)
      ((Spares.ofLayout _ _ _ _).bind fun _ u => spares_values order vs t u)) _
    exact Returns.values (fun v hv => h v hv (hr v hv)) t u
  map kt vt linked es h hr s := by
    rw [Field.rootless, Value.rootlessEntries_iff] at hr
    rw [Field.dispatch]
    refine Steers.map (.of_spares (Returns.bind .ofLayout fun _ u => ?_)
      ((Spares.ofLayout _ _ _ _).bind fun _ u => spares_entries order es kt vt u)) _
    exact Returns.entries (fun e he => ⟨(h e he).1 (hr e he).1, (h e he).2 (hr e he).2⟩) kt vt u
  nested m h hr s :=
    have hs := m.sound order s.forward
    .of_spares (Returns.leave hs (h hr s.forward)) (Spares.leave hs)
  root _ _ hr := nomatch hr
  null _ _ _ := .ofLayout
  data _ _ _ _ := .ofLayout
  inner m h hr t s := by
    rw [Value.dispatch]
    split
    · exact (Returns.leave (m.sound order s.forward) (h hr s.forward)).whole m.type
    · exact .ofLayout

end Dispatch

/-- a call that stops is one whose dispatch stops -/
theorem Writer.Carries.returns {α : Type} {w : Writer} {s : Sent α} {d : Dispatch α} (h : Carries w s d)
    (hd : d.Returns) : s.result ≠ .error .panic := by
  by_cases hf : w.Fits d.out.peak
  · rw [(h.tells hf).result]
    exact hd
  · obtain ⟨⟨e, he⟩, -⟩ := h.crowded hf
    rw [he]
    nofun

/-- **A call on a message without roots never stops.** -/
theorem Message.write_returns {m : Message} (hm : m.rootless = true) {w : Writer} (hw : w.Inside) :
    (m.write w).result ≠ .error .panic :=
  (m.carries hw).returns ((Dispatch.steers_step w.order).all.1 m hm _)

theorem Field.write_returns {f : Field} (hf : f.rootless = true) {w : Writer} (hw : w.Inside) :
    (f.write w).result ≠ .error .panic :=
  (f.carries hw).returns ((Dispatch.steers_step w.order).all.2.1 f hf _).returns

end Courier
