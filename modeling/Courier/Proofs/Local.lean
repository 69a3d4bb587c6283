import Courier.Proofs.Conduct

/-!
A call depends on the levels it uses, and on no others.

A message uses the level it stands on and those that its messages stand on, counted down from the level at hand; a field
that holds no message uses none, but for the two that move the cursor and the header mark of their level. `uses` works
this out. Two rows of levels `AgreeOn` some levels if these are the same in both and the depths are; calls on them that
use no others come to the same, and leave rows that agree on these levels again.

`Levels.AgreeOn.forward`: one level down, the levels that count are one fewer.
`Field.local`, `Message.local`: the results, by induction over the tree.
-/

namespace Courier

open Writer

mutual

/-- whether a call on a message uses the level that is so many below the one at hand -/
def Message.uses : Message → Nat → Prop
  | .mk _ fs _, n => n = 0 ∨ Field.usesAny fs n
termination_by structural m => m

def Field.usesAny : List Field → Nat → Prop
  | [], _ => False
  | f :: fs, n => f.uses n ∨ Field.usesAny fs n
termination_by structural fs => fs

/-- whether a field uses that level -/
def Field.uses : Field → Nat → Prop
  | .item _ v, n => v.uses n
  | .items _ _ vs, n => Value.usesAny vs n
  | .map _ _ _ es, n => Value.usesEntries es n
  | .message (some m), n => ∃ k, n = k + 1 ∧ m.uses k
  | .root m, n => m.uses n
  | .advance, n | .markHeader, n => n = 0
  | _, _ => False
termination_by structural f => f

def Value.uses : Value → Nat → Prop
  | .message m, n => ∃ k, n = k + 1 ∧ m.uses k
  | _, _ => False
termination_by structural v => v

def Value.usesAny : List Value → Nat → Prop
  | [], _ => False
  | v :: vs, n => v.uses n ∨ Value.usesAny vs n
termination_by structural vs => vs

def Value.usesEntries : List (Value × Value) → Nat → Prop
  | [], _ => False
  | (k, v) :: es, n => (k.uses n ∨ v.uses n) ∨ Value.usesEntries es n
termination_by structural es => es

end

/-- the same depth, and the same levels among those of `U`, counted down from the one at hand -/
structure Levels.AgreeOn (U : Nat → Prop) (s t : Levels) : Prop where
  depth : s.depth = t.depth
  level : ∀ n, U n → s.level (s.depth + n) = t.level (s.depth + n)

namespace Levels.AgreeOn

variable {U : Nat → Prop} {s t : Levels}

theorem current (h : AgreeOn U s t) (h0 : U 0) : s.current = t.current := by
  have hl := h.level 0 h0
  rw [Levels.current, Levels.current, ← h.depth]
  exact hl

theorem cursor (h : AgreeOn U s t) (h0 : U 0) : s.cursor = t.cursor :=
  congrArg Level.cursor (h.current h0)

theorem headerWritten (h : AgreeOn U s t) (h0 : U 0) : s.headerWritten = t.headerWritten :=
  congrArg Level.headerWritten (h.current h0)

theorem update (h : AgreeOn U s t) (l : Level) : AgreeOn U (s.update l) (t.update l) := by
  refine ⟨h.depth, fun n hn => ?_⟩
  change (s.update l).level (s.depth + n) = (t.update l).level (s.depth + n)
  cases n with
  | zero =>
    rw [Nat.add_zero, s.level_update_self, h.depth, t.level_update_self]
  | succ n =>
    rw [s.level_update_of_ne l (by omega), t.level_update_of_ne l (by rw [← h.depth]; omega), h.level _ hn]

theorem increment (h : AgreeOn U s t) (h0 : U 0) : AgreeOn U s.increment t.increment := by
  rw [Levels.increment, Levels.increment, h.cursor h0, h.current h0]
  exact h.update _

theorem markHeader (h : AgreeOn U s t) (h0 : U 0) : AgreeOn U s.markHeader t.markHeader := by
  rw [Levels.markHeader, Levels.markHeader, h.current h0]
  exact h.update _

/-- one level down, what counts is one level nearer -/
theorem forward (h : AgreeOn U s t) : AgreeOn (fun n => U (n + 1)) s.forward t.forward := by
  refine ⟨congrArg (· + 1) h.depth, fun n hn => ?_⟩
  have hl := h.level (n + 1) hn
  change s.level (s.depth + 1 + n) = t.level (s.depth + 1 + n)
  rwa [Nat.add_assoc, Nat.add_comm 1 n]

end Levels.AgreeOn

namespace Dispatch

variable {α β : Type}

/-- calls that come to the same, on levels that agree where it counts -/
structure AgreeOn (U : Nat → Prop) (d e : Dispatch α) : Prop where
  result : d.result = e.result
  out : d.out = e.out
  failed : d.failed = e.failed
  left : d.left = e.left
  levels : Levels.AgreeOn U d.levels e.levels

namespace AgreeOn

variable {U : Nat → Prop} {d e : Dispatch α} {s t : Levels}

theorem stay (left : α) (result : Except Fault Bool) (h : Levels.AgreeOn U s t) :
    AgreeOn U (.stay left result s) (.stay left result t) :=
  ⟨rfl, rfl, rfl, rfl, h⟩

theorem ofLayout (left : α) (order : ByteOrder) (l : Layout) (h : Levels.AgreeOn U s t) :
    AgreeOn U (.ofLayout left order l s) (.ofLayout left order l t) := by
  unfold Dispatch.ofLayout
  cases l.result <;> exact ⟨rfl, rfl, rfl, rfl, h⟩

theorem map (h : AgreeOn U d e) (f : α → β) : AgreeOn U (d.map f) (e.map f) :=
  ⟨h.result, h.out, h.failed, congrArg f h.left, h.levels⟩

theorem behind (h : AgreeOn U d e) (o : Output) (failed : Bool) : AgreeOn U (d.behind o failed) (e.behind o failed) :=
  ⟨h.result, congrArg (o ++ ·) h.out, congrArg (failed || ·) h.failed, h.left, h.levels⟩

theorem bind (h : AgreeOn U d e) {next : α → Levels → Dispatch β} {stop : α → β}
    (hn : ∀ a {s t : Levels}, Levels.AgreeOn U s t → AgreeOn U (next a s) (next a t)) :
    AgreeOn U (d.bind next stop) (e.bind next stop) := by
  unfold Dispatch.bind
  rw [h.result, h.left, h.out, h.failed]
  split
  · exact (hn _ h.levels).behind _ _
  · exact h.map stop

/-- back up after a call one level down: that call has left the level at hand alone -/
theorem leave (hst : Levels.AgreeOn U s t) (h : AgreeOn (fun n => U (n + 1)) d e) (hd : Sound s.forward d)
    (he : Sound t.forward e) : AgreeOn U d.leave e.leave := by
  have hdd : d.levels.depth = s.depth + 1 := hd.depth
  have hde : e.levels.depth = s.depth + 1 := h.levels.depth.symm.trans hdd
  have hup : ∀ b, Levels.AgreeOn U (d.levels.retreat b) (e.levels.retreat b) := by
    intro b
    refine ⟨by rw [Levels.depth_retreat, Levels.depth_retreat, hdd, hde], fun n hn => ?_⟩
    have hkept : ∀ {l : Levels} {i : Nat}, i ≠ l.depth ∨ b = false → (l.retreat b).level i = l.level i := by
      rintro l i (hi | rfl)
      · cases b with
        | false => rfl
        | true => exact l.level_update_of_ne .blank hi
      · rfl
    rw [Levels.depth_retreat, hdd, Nat.add_sub_cancel]
    cases n with
    | zero =>
      have hs : s.depth < s.forward.depth := Nat.lt_succ_self _
      have ht : s.depth < t.forward.depth := hst.forward.depth ▸ hs
      calc (d.levels.retreat b).level s.depth = d.levels.level s.depth := hkept (.inl (by omega))
        _ = s.level s.depth := hd.above _ hs
        _ = t.level s.depth := hst.level 0 hn
        _ = e.levels.level s.depth := (he.above _ ht).symm
        _ = (e.levels.retreat b).level s.depth := (hkept (.inl (by omega))).symm
    | succ n =>
      have hl := h.levels.level n hn
      rw [hdd, Nat.add_assoc, Nat.add_comm 1 n] at hl
      by_cases hi : n = 0 ∧ b = true
      · obtain ⟨rfl, rfl⟩ := hi
        have hdb := d.levels.level_update_self .blank
        have heb := e.levels.level_update_self .blank
        rw [hdd] at hdb
        rw [hde] at heb
        exact hdb.trans heb.symm
      · have hne : ∀ {k : Nat}, k = s.depth + 1 → s.depth + (n + 1) ≠ k ∨ b = false := by
          rintro k rfl
          cases b with
          | false => exact .inr rfl
          | true => exact .inl fun hk => hi ⟨by omega, rfl⟩
        rw [hkept (hne hdd), hkept (hne hde), hl]
  unfold Dispatch.leave
  rw [if_neg (by omega), if_neg (by omega), h.result]
  split
  · exact ⟨rfl, h.out, h.failed, h.left, hup _⟩
  · exact ⟨rfl, h.out, rfl, h.left, hup _⟩
  · exact ⟨rfl, h.out, h.failed, h.left, hup _⟩

theorem settle (h : AgreeOn U d e) : AgreeOn U d.settle e.settle := by
  unfold Dispatch.settle
  rw [h.result, h.levels.depth]
  split
  · split
    · exact ⟨rfl, h.out, h.failed, h.left, h.levels.update _⟩
    · exact ⟨rfl, h.out, h.failed, h.left, h.levels⟩
  · exact h
  · exact ⟨rfl, h.out, rfl, h.left, h.levels⟩
  · exact h

theorem whole (h : AgreeOn U d e) (type : Int16) : AgreeOn U (d.whole type) (e.whole type) := by
  unfold Dispatch.whole
  rw [h.result]
  split
  · exact ⟨rfl, h.out, rfl, rfl, h.levels⟩
  · exact h.map _

theorem rounds (h0 : U 0) {d e : Dispatch (Grant × α)} (h : AgreeOn U d e) {n : Nat}
    {pass : Grant → Levels → Dispatch (Grant × α)}
    (hp : ∀ g {s t : Levels}, Levels.AgreeOn U s t → AgreeOn U (pass g s) (pass g t)) (k : Nat) :
    AgreeOn U (d.rounds n pass k) (e.rounds n pass k) := by
  induction k generalizing d e with
  | zero =>
    unfold Dispatch.rounds
    rw [h.result, h.levels.cursor h0]
    split
    · split
      · exact ⟨rfl, h.out, h.failed, h.left, h.levels⟩
      · exact h
    · exact h
  | succ k ih =>
    unfold Dispatch.rounds
    rw [h.result, h.levels.cursor h0, h.left, h.out, h.failed]
    split
    · split
      · exact ih ((hp _ h.levels).behind _ _)
      · exact h
    · exact h

end AgreeOn

/-! ## The induction -/

/-- a call that comes to the same on any levels that agree where it uses them -/
def LocalOn (uses : Nat → Prop) (call : Levels → Dispatch α) : Prop :=
  ∀ U : Nat → Prop, (∀ n, uses n → U n) → ∀ s t, Levels.AgreeOn U s t → AgreeOn U (call s) (call t)

variable {order : ByteOrder}

theorem local_fields {fs : List Field} (h : ∀ f ∈ fs, LocalOn f.uses (f.dispatch order)) (k : Nat) (grant : Grant)
    {U : Nat → Prop} (h0 : U 0) (hU : ∀ n, Field.usesAny fs n → U n) {s t : Levels} (hst : Levels.AgreeOn U s t) :
    AgreeOn U (Field.dispatchAll order k grant fs s) (Field.dispatchAll order k grant fs t) := by
  induction fs generalizing k grant s t with
  | nil => exact .stay _ _ hst
  | cons f fs ih =>
    have hrest := fun k grant {s t} => @ih (fun f hf => h f (List.mem_cons_of_mem _ hf)) k grant
      (fun n hn => hU n (.inr hn)) s t
    rw [Field.dispatchAll, Field.dispatchAll, hst.cursor h0]
    split
    · cases spend grant with
      | none => exact .stay _ _ hst
      | some grant =>
        apply (h f List.mem_cons_self U (fun n hn => hU n (.inl hn)) s t hst).bind
        intro g s t hst
        exact (hrest (k + 1) grant (hst.increment h0)).map _
    · exact (hrest (k + 1) grant hst).map _

theorem local_message (kind : MessageKind) {fields : List Field} (pauses : List Nat)
    (h : ∀ f ∈ fields, LocalOn f.uses (f.dispatch order)) :
    LocalOn (Message.mk kind fields pauses).uses ((Message.mk kind fields pauses).dispatch order) := by
  intro U hU s t hst
  have h0 : U 0 := hU 0 (.inl rfl)
  have hpass : ∀ g {s t : Levels}, Levels.AgreeOn U s t →
      AgreeOn U (Field.dispatchAll order 0 g fields s) (Field.dispatchAll order 0 g fields t) :=
    fun g _ _ hst => local_fields h 0 g h0 (fun n hn => hU n (.inr hn)) hst
  rw [Message.dispatch, Message.dispatch, hst.headerWritten h0]
  split
  · exact (((hpass _ hst).behind _ _).rounds h0 hpass _).map _
  · cases spend pauses.head? with
    | none => exact .stay _ _ hst
    | some grant => exact (((hpass _ (hst.markHeader h0)).behind _ _).rounds h0 hpass _).map _

theorem local_plain {f : Field} (h : f.isPlain = true) : LocalOn f.uses (f.dispatch order) := by
  intro U hU s t hst
  cases f with
  | note | stall | fail => exact .stay _ _ hst
  | advance => exact .stay _ _ (hst.increment (hU 0 rfl))
  | markHeader => exact .stay _ _ (hst.markHeader (hU 0 rfl))
  | message m =>
    cases m with
    | none => rw [Field.dispatch, Field.dispatch]; exact .ofLayout _ _ _ hst
    | some m => cases h
  | data | absent | fixedInt | fixedLong | range | raw | object | nothing =>
    rw [Field.dispatch, Field.dispatch]
    exact .ofLayout _ _ _ hst
  | _ => cases h

theorem local_values {vs : List Value} (h : ∀ v ∈ vs, ∀ t, LocalOn v.uses (v.dispatch order t)) (ty : ItemType) :
    LocalOn (Value.usesAny vs) (Value.dispatchAll order ty vs) := by
  intro U hU s t hst
  induction vs generalizing s t with
  | nil => exact .stay _ _ hst
  | cons v vs ih =>
    rw [Value.dispatchAll, Value.dispatchAll]
    apply (h v List.mem_cons_self ty U (fun n hn => hU n (.inl hn)) s t hst).bind
    intro _ s t hst
    exact ih (fun v hv => h v (List.mem_cons_of_mem _ hv)) (fun n hn => hU n (.inr hn)) s t hst

theorem local_entries {es : List (Value × Value)}
    (h : ∀ e ∈ es, (∀ t, LocalOn e.1.uses (e.1.dispatch order t)) ∧ ∀ t, LocalOn e.2.uses (e.2.dispatch order t))
    (kt vt : ItemType) : LocalOn (Value.usesEntries es) (Value.dispatchEntries order kt vt es) := by
  intro U hU s t hst
  induction es generalizing s t with
  | nil => exact .stay _ _ hst
  | cons e es ih =>
    obtain ⟨hk, hv⟩ := h e List.mem_cons_self
    rw [Value.dispatchEntries, Value.dispatchEntries]
    apply (hk kt U (fun n hn => hU n (.inl (.inl hn))) s t hst).bind
    intro _ s t hst
    apply (hv vt U (fun n hn => hU n (.inl (.inr hn))) s t hst).bind
    intro _ s t hst
    exact ih (fun e he => h e (List.mem_cons_of_mem _ he)) (fun n hn => hU n (.inr hn)) s t hst

/-- a call on a message one level down -/
theorem local_below {m : Message} (h : LocalOn m.uses (m.dispatch order)) :
    LocalOn (fun n => ∃ k, n = k + 1 ∧ m.uses k) fun s => (m.dispatch order s.forward).leave := by
  intro U hU s t hst
  have hin := h (fun n => U (n + 1)) (fun n hn => hU _ ⟨n, rfl, hn⟩) _ _ hst.forward
  exact .leave hst hin (m.sound ..) (m.sound ..)

theorem local_step (order : ByteOrder) :
    Tree.Step (fun m => LocalOn m.uses (m.dispatch order)) (fun f => LocalOn f.uses (f.dispatch order))
      fun v => ∀ t, LocalOn v.uses (v.dispatch order t) where
  message kind _ pauses h := local_message kind pauses h
  plain _ hf := local_plain hf
  item t v h U hU s s' hs := by
    rw [Field.dispatch, Field.dispatch]
    exact (h t U hU s s' hs).map _
  items way t vs h U hU s s' hs := by
    rw [Field.dispatch, Field.dispatch]
    exact ((AgreeOn.ofLayout _ _ _ hs).bind fun _ {s s'} hs => local_values h t U hU s s' hs).map _
  map kt vt linked es h U hU s s' hs := by
    rw [Field.dispatch, Field.dispatch]
    exact ((AgreeOn.ofLayout _ _ _ hs).bind fun _ {s s'} hs => local_entries h kt vt U hU s s' hs).map _
  nested m h U hU s s' hs := by
    rw [Field.dispatch, Field.dispatch]
    exact (local_below h U hU s s' hs).map _
  root m h U hU s s' hs := by
    have hm := (h U hU s s' hs).settle
    rw [Field.dispatch, Field.dispatch]
    exact ⟨congrArg (Except.map fun _ => true) hm.result, hm.out, hm.failed, rfl, hm.levels⟩
  null t U _ s s' hs := by
    rw [Value.dispatch, Value.dispatch]
    exact .ofLayout _ _ _ hs
  data d t U _ s s' hs := by
    rw [Value.dispatch, Value.dispatch]
    exact .ofLayout _ _ _ hs
  inner m h t U hU s s' hs := by
    rw [Value.dispatch, Value.dispatch]
    split
    · exact (local_below h U hU s s' hs).whole _
    · exact .ofLayout _ _ _ hs

end Dispatch

/-- **A call on a message depends on the levels it uses only.** -/
theorem Message.local (order : ByteOrder) (m : Message) : Dispatch.LocalOn m.uses (m.dispatch order) :=
  (Dispatch.local_step order).all.1 m

/-- **A field depends on the levels it uses only.** -/
theorem Field.local (order : ByteOrder) (f : Field) : Dispatch.LocalOn f.uses (f.dispatch order) :=
  (Dispatch.local_step order).all.2.1 f

end Courier
