import Courier.Proofs.Dispatch
import Courier.Proofs.Tree

/-!
What every dispatch keeps to.

`Sound`: a call that comes to its end, or suspends, has marked no refusal on the way; it ends at the depth it started
at, and the levels above the one at hand are as they were. `Message.sound` and its kin draw this from the parts.
`Marked`: a call that is refused has marked it. Every field keeps to that but the one that does nothing but refuse.
-/

namespace Courier

open Writer

namespace Dispatch

variable {α β : Type}

/-- a call that starts on the levels `s` and keeps to the rules -/
structure Sound (s : Levels) (d : Dispatch α) : Prop where
  calm : ∀ b, d.result = .ok b → d.failed = false
  depth : d.levels.depth = s.depth
  above : ∀ i < s.depth, d.levels.level i = s.level i

/-- a refusal is marked -/
def Marked (d : Dispatch α) : Prop :=
  ∀ e, d.result = .error (.error e) → d.failed = true

namespace Sound

variable {s : Levels} {d : Dispatch α}

theorem stay (left : α) (result : Except Fault Bool) (s : Levels) : Sound s (.stay left result s) :=
  ⟨fun _ _ => rfl, rfl, fun _ _ => rfl⟩

/-- a change of the level at hand -/
theorem update (left : α) (s : Levels) (l : Level) : Sound s (.stay left (.ok true) (s.update l)) :=
  ⟨fun _ _ => rfl, rfl, fun _ hi => s.level_update_of_ne l (Nat.ne_of_lt hi)⟩

theorem ofLayout (left : α) (order : ByteOrder) (l : Layout) (s : Levels) : Sound s (.ofLayout left order l s) := by
  unfold Dispatch.ofLayout
  cases l.result with
  | ok => exact ⟨fun _ _ => rfl, rfl, fun _ _ => rfl⟩
  | error e => exact ⟨(fun _ h => by cases h), rfl, fun _ _ => rfl⟩

theorem map (h : Sound s d) (f : α → β) : Sound s (d.map f) :=
  ⟨h.calm, h.depth, h.above⟩

/-- one call behind another that has come to its end -/
theorem behind (h : Sound s d) (hd : d.result = .ok true) {e : Dispatch β} (he : Sound d.levels e) :
    Sound s (e.behind d.out d.failed) where
  calm b hb := by
    change (d.failed || e.failed) = false
    rw [h.calm true hd, he.calm b hb]
    rfl
  depth := he.depth.trans h.depth
  above i hi := (he.above i (by rw [h.depth]; exact hi)).trans (h.above i hi)

theorem bind (h : Sound s d) {next : α → Levels → Dispatch β} {stop : α → β} (hn : ∀ a t, Sound t (next a t)) :
    Sound s (d.bind next stop) := by
  unfold Dispatch.bind
  split
  · rename_i hd
    exact h.behind hd (hn _ _)
  · exact h.map _

theorem depth_ne_zero (h : Sound s.forward d) : d.levels.depth ≠ 0 := by
  rw [h.depth]
  exact Nat.succ_ne_zero _

theorem leave (h : Sound s.forward d) : Sound s d.leave := by
  have hd : d.levels.depth = s.depth + 1 := h.depth
  have key : ∀ b, (d.levels.retreat b).depth = s.depth ∧ ∀ i < s.depth, (d.levels.retreat b).level i = s.level i := by
    intro b
    refine ⟨by rw [Levels.depth_retreat, hd, Nat.add_sub_cancel], fun i hi => ?_⟩
    refine Eq.trans ?_ (h.above i (Nat.lt_succ_of_lt hi))
    cases b with
    | false => rfl
    | true => exact d.levels.level_update_of_ne _ (by omega)
  unfold Dispatch.leave
  rw [if_neg (by omega)]
  split
  · rename_i b hb
    exact ⟨fun _ _ => h.calm b hb, (key b).1, (key b).2⟩
  · rename_i e he
    exact ⟨by simp [he], (key false).1, (key false).2⟩
  · rename_i he
    exact ⟨by simp [he], (key false).1, (key false).2⟩

theorem settle (h : Sound s d) : Sound s d.settle := by
  unfold Dispatch.settle
  split
  · rename_i hd
    split
    · refine ⟨fun _ _ => h.calm true hd, h.depth, fun i hi => ?_⟩
      exact (d.levels.level_update_of_ne _ (by rw [h.depth]; omega)).trans (h.above i hi)
    · exact ⟨(fun _ h => by cases h), h.depth, h.above⟩
  · exact h
  · rename_i e he
    exact ⟨by simp [he], h.depth, h.above⟩
  · exact h

theorem whole (h : Sound s d) (type : Int16) : Sound s (d.whole type) := by
  unfold Dispatch.whole
  split
  · exact ⟨(fun _ h => by cases h), h.depth, h.above⟩
  · exact h.map _

theorem rounds {d : Dispatch (Grant × α)} (h : Sound s d) {n : Nat} {pass : Grant → Levels → Dispatch (Grant × α)}
    (hp : ∀ g t, Sound t (pass g t)) (k : Nat) : Sound s (d.rounds n pass k) := by
  induction k generalizing d with
  | zero =>
    unfold Dispatch.rounds
    split
    · split
      · exact ⟨(fun _ h => by cases h), h.depth, h.above⟩
      · exact h
    · exact h
  | succ k ih =>
    unfold Dispatch.rounds
    split
    · rename_i hd
      split
      · exact ih (h.behind hd (hp _ _))
      · exact h
    · exact h

end Sound

theorem sound_fields {order : ByteOrder} {fs : List Field} (h : ∀ f ∈ fs, ∀ s, Sound s (f.dispatch order s)) (k : Nat)
    (grant : Grant) (s : Levels) : Sound s (Field.dispatchAll order k grant fs s) := by
  induction fs generalizing k grant s with
  | nil => exact .stay ..
  | cons f fs ih =>
    have hrest := ih fun f hf => h f (List.mem_cons_of_mem _ hf)
    rw [Field.dispatchAll]
    split
    · cases spend grant with
      | none => exact .stay ..
      | some grant =>
        refine (h f List.mem_cons_self s).bind fun f t => Sound.map ?_ _
        have hi : Sound t (.stay () (.ok true) t.increment) := .update ..
        have hb := hi.behind rfl (hrest (k + 1) grant t.increment)
        exact ⟨fun b hr => (hrest _ _ _).calm b hr, hb.depth, hb.above⟩
    · exact (hrest (k + 1) grant s).map _

theorem sound_plain (order : ByteOrder) {f : Field} (h : f.isPlain = true) (s : Levels) :
    Sound s (f.dispatch order s) := by
  cases f with
  | note | stall | fail => exact .stay ..
  | advance | markHeader => exact .update ..
  | message m =>
    cases m with
    | none => rw [Field.dispatch]; exact .ofLayout ..
    | some m => cases h
  | data | absent | fixedInt | fixedLong | range | raw | object | nothing => rw [Field.dispatch]; exact .ofLayout ..
  | _ => cases h

theorem sound_values {order : ByteOrder} {vs : List Value} (h : ∀ v ∈ vs, ∀ t s, Sound s (v.dispatch order t s))
    (t : ItemType) (s : Levels) : Sound s (Value.dispatchAll order t vs s) := by
  induction vs generalizing s with
  | nil => exact .stay ..
  | cons v vs ih =>
    rw [Value.dispatchAll]
    exact (h v List.mem_cons_self t s).bind fun _ u => ih (fun v hv => h v (List.mem_cons_of_mem _ hv)) u

theorem sound_entries {order : ByteOrder} {es : List (Value × Value)}
    (h : ∀ e ∈ es, (∀ t s, Sound s (e.1.dispatch order t s)) ∧ ∀ t s, Sound s (e.2.dispatch order t s))
    (kt vt : ItemType) (s : Levels) : Sound s (Value.dispatchEntries order kt vt es s) := by
  induction es generalizing s with
  | nil => exact .stay ..
  | cons e es ih =>
    obtain ⟨hk, hv⟩ := h e List.mem_cons_self
    rw [Value.dispatchEntries]
    exact (hk kt s).bind fun _ u => (hv vt u).bind fun _ u' => ih (fun e he => h e (List.mem_cons_of_mem _ he)) u'

theorem sound_message {order : ByteOrder} (kind : MessageKind) {fields : List Field} (pauses : List Nat)
    (h : ∀ f ∈ fields, ∀ s, Sound s (f.dispatch order s)) (s : Levels) :
    Sound s ((Message.mk kind fields pauses).dispatch order s) := by
  have hp := fun grant t => sound_fields h 0 grant t
  rw [Message.dispatch]
  have hgo : ∀ (o : Output) (g : Grant) (t : Levels), t.depth = s.depth → (∀ i < s.depth, t.level i = s.level i) →
      Sound s ((Field.dispatchAll order 0 g fields t).behind o false) := by
    intro o g t hd hl
    have hs : Sound s (⟨.ok true, o, t, false, ()⟩ : Dispatch Unit) := ⟨fun _ _ => rfl, hd, hl⟩
    exact hs.behind rfl (hp g t)
  split
  · exact ((hgo _ _ s rfl fun _ _ => rfl).rounds hp _).map _
  · cases spend pauses.head? with
    | none => exact .stay ..
    | some grant =>
      have hm : Sound s (.stay () (.ok true) s.markHeader) := .update ..
      exact ((hgo _ grant s.markHeader hm.depth hm.above).rounds hp _).map _

theorem sound_step (order : ByteOrder) :
    Tree.Step (fun m => ∀ s, Sound s (m.dispatch order s)) (fun f => ∀ s, Sound s (f.dispatch order s))
      fun v => ∀ t s, Sound s (v.dispatch order t s) where
  message kind _ pauses h s := sound_message kind pauses h s
  plain _ h s := sound_plain order h s
  item t _ h s := by
    rw [Field.dispatch]
    exact (h t s).map _
  items _ t _ h _ := by
    rw [Field.dispatch]
    exact ((Sound.ofLayout ..).bind fun _ u => sound_values h t u).map _
  map kt vt _ _ h _ := by
    rw [Field.dispatch]
    exact ((Sound.ofLayout ..).bind fun _ u => sound_entries h kt vt u).map _
  nested _ h s := by
    rw [Field.dispatch]
    exact (h s.forward).leave.map _
  root m h s := by
    have hs := (h s).settle
    refine ⟨fun b hb => ?_, hs.depth, hs.above⟩
    rw [Field.dispatch] at hb ⊢
    cases hr : (Dispatch.settle (m.dispatch order s)).result with
    | ok b => exact hs.calm b hr
    | error e => simp [hr, Except.map] at hb
  null _ _ := .ofLayout ..
  data _ _ _ := .ofLayout ..
  inner m h t s := by
    rw [Value.dispatch]
    split
    · exact (h s.forward).leave.whole m.type
    · exact .ofLayout ..

end Dispatch

open Dispatch

theorem Message.sound (order : ByteOrder) (m : Message) (s : Levels) : Sound s (m.dispatch order s) :=
  (sound_step order).all.1 m s

theorem Field.sound (order : ByteOrder) (f : Field) (s : Levels) : Sound s (f.dispatch order s) :=
  (sound_step order).all.2.1 f s

namespace Dispatch

/-! ## Refusals are marked -/

namespace Marked

variable {α β : Type} {d : Dispatch α}

theorem ofLayout (left : α) (order : ByteOrder) (l : Layout) (s : Levels) : Marked (.ofLayout left order l s) := by
  unfold Dispatch.ofLayout
  cases l.result with
  | ok => exact fun _ h => by cases h
  | error e => exact fun _ _ => rfl

theorem bind (h : Marked d) {next : α → Levels → Dispatch β} {stop : α → β} (hn : ∀ a t, Marked (next a t)) :
    Marked (d.bind next stop) := by
  unfold Dispatch.bind
  split
  · intro e he
    change (d.failed || (next d.left d.levels).failed) = true
    rw [hn _ _ e he, Bool.or_true]
  · exact h

theorem leave (d : Dispatch α) : Marked d.leave := by
  unfold Dispatch.leave
  split
  · exact fun _ h => by cases h
  · split
    · rename_i hr
      simp [Marked, hr]
    · exact fun _ _ => rfl
    · rename_i hr
      simp [Marked, hr]

theorem settle (d : Dispatch α) : Marked d.settle := by
  unfold Dispatch.settle
  split
  · rename_i hr
    split
    · simp [Marked, hr]
    · exact fun _ h => by cases h
  · rename_i hr
    simp [Marked, hr]
  · exact fun _ _ => rfl
  · rename_i hr
    simp [Marked, hr]

theorem whole (h : Marked d) (type : Int16) : Marked (d.whole type) := by
  unfold Dispatch.whole
  split
  · exact fun _ _ => rfl
  · exact h

end Marked

theorem marked_value (order : ByteOrder) (v : Value) (t : ItemType) (s : Levels) : Marked (v.dispatch order t s) := by
  cases v with
  | null => rw [Value.dispatch]; exact Marked.ofLayout _ _ _ _
  | data d => rw [Value.dispatch]; exact Marked.ofLayout _ _ _ _
  | message m =>
    rw [Value.dispatch]
    split
    · exact (Marked.leave _).whole m.type
    · exact Marked.ofLayout _ _ _ _

theorem marked_values (order : ByteOrder) (vs : List Value) (t : ItemType) (s : Levels) :
    Marked (Value.dispatchAll order t vs s) := by
  induction vs generalizing s with
  | nil => exact fun _ h => by cases h
  | cons v vs ih => exact (marked_value order v t s).bind fun _ u => ih u

theorem marked_entries (order : ByteOrder) (es : List (Value × Value)) (kt vt : ItemType) (s : Levels) :
    Marked (Value.dispatchEntries order kt vt es s) := by
  induction es generalizing s with
  | nil => exact fun _ h => by cases h
  | cons e es ih =>
    exact (marked_value order e.1 kt s).bind fun _ u => (marked_value order e.2 vt u).bind fun _ u' => ih u'

/-- every field marks its refusals but the one that does nothing but refuse -/
theorem marked_field (order : ByteOrder) {f : Field} (h : ∀ e, f ≠ .fail e) (s : Levels) :
    Marked (f.dispatch order s) := by
  cases f with
  | data | absent | fixedInt | fixedLong | range | raw | object | nothing =>
    rw [Field.dispatch]
    exact Marked.ofLayout _ _ _ _
  | item t v => exact marked_value order v t s
  | items way t vs => rw [Field.dispatch]; exact (Marked.ofLayout _ _ _ _).bind fun _ u => marked_values order vs t u
  | map kt vt linked es => rw [Field.dispatch]; exact (Marked.ofLayout _ _ _ _).bind fun _ u => marked_entries order es kt vt u
  | message m =>
    cases m with
    | none => rw [Field.dispatch]; exact Marked.ofLayout _ _ _ _
    | some m => rw [Field.dispatch]; exact fun e => Marked.leave (m.dispatch order s.forward) e
  | note | advance | markHeader | stall => exact fun _ h => by cases h
  | root m =>
    intro e he
    have hm := Marked.settle (m.dispatch order s)
    rw [Field.dispatch] at he ⊢
    cases hr : (Dispatch.settle (m.dispatch order s)).result with
    | ok b => simp [hr, Except.map] at he
    | error f =>
      cases f with
      | error e => exact hm e hr
      | panic => simp [hr, Except.map] at he
  | fail e => exact absurd rfl (h e)

end Dispatch

end Courier
