import Courier.Proofs.Conduct
import Courier.Proofs.Steady

/-!
A message written in several calls puts out what it puts out in one.

A call that suspends leaves the levels such that a call on the steady twin of the message goes on exactly there: what
the twin puts out from the start is what the suspended call put out, and then what it puts out from there on. That is
`Resumes`; `Message.resumes` is the induction. It rests on two facts about resumable messages: their fields spare the
level at hand, and one pass over the fields is enough.
-/

namespace Courier

open Writer Dispatch

namespace Dispatch

variable {α β : Type}

/-- the level at hand is as it was, and so are those above it -/
def Spares (s : Levels) (d : Dispatch α) : Prop :=
  d.levels.depth = s.depth ∧ ∀ i ≤ s.depth, d.levels.level i = s.level i

namespace Spares

variable {s : Levels} {d : Dispatch α}

theorem stay (left : α) (result : Except Fault Bool) (s : Levels) : Spares s (.stay left result s) :=
  ⟨rfl, fun _ _ => rfl⟩

theorem ofLayout (left : α) (order : ByteOrder) (l : Layout) (s : Levels) : Spares s (.ofLayout left order l s) := by
  unfold Dispatch.ofLayout
  cases l.result <;> exact ⟨rfl, fun _ _ => rfl⟩

theorem bind (h : Spares s d) {next : α → Levels → Dispatch β} {stop : α → β} (hn : ∀ a t, Spares t (next a t)) :
    Spares s (d.bind next stop) := by
  unfold Dispatch.bind
  split
  · obtain ⟨hd, hl⟩ := hn d.left d.levels
    exact ⟨hd.trans h.1, fun i hi => (hl i (by rw [h.1]; exact hi)).trans (h.2 i hi)⟩
  · exact h

theorem leave (h : Sound s.forward d) : Spares s d.leave := by
  have hd : d.levels.depth = s.depth + 1 := h.depth
  have key : ∀ b, (d.levels.retreat b).depth = s.depth ∧ ∀ i ≤ s.depth, (d.levels.retreat b).level i = s.level i := by
    intro b
    refine ⟨by rw [Levels.depth_retreat, hd, Nat.add_sub_cancel], fun i hi => ?_⟩
    refine Eq.trans ?_ (h.above i (Nat.lt_succ_of_le hi))
    cases b with
    | false => rfl
    | true => exact d.levels.level_update_of_ne _ (by omega)
  unfold Dispatch.leave
  rw [if_neg (by omega)]
  split <;> exact key _

theorem whole (h : Spares s d) (type : Int16) : Spares s (d.whole type) := by
  unfold Dispatch.whole
  split <;> exact h

theorem current (h : Spares s d) : d.levels.current = s.current := by
  rw [Levels.current, h.1, h.2 s.depth (Nat.le_refl _), Levels.current]

theorem cursor (h : Spares s d) : d.levels.cursor = s.cursor :=
  congrArg Level.cursor h.current

end Spares

theorem spares_value (order : ByteOrder) (v : Value) (t : ItemType) (s : Levels) : Spares s (v.dispatch order t s) := by
  cases v with
  | null => rw [Value.dispatch]; exact .ofLayout ..
  | data d => rw [Value.dispatch]; exact .ofLayout ..
  | message m =>
    rw [Value.dispatch]
    split
    · exact (Spares.leave (m.sound order s.forward)).whole m.type
    · exact .ofLayout ..

theorem spares_values (order : ByteOrder) (vs : List Value) (t : ItemType) (s : Levels) :
    Spares s (Value.dispatchAll order t vs s) := by
  induction vs generalizing s with
  | nil => exact .stay ..
  | cons v vs ih => exact (spares_value order v t s).bind fun _ u => ih u

theorem spares_entries (order : ByteOrder) (es : List (Value × Value)) (kt vt : ItemType) (s : Levels) :
    Spares s (Value.dispatchEntries order kt vt es s) := by
  induction es generalizing s with
  | nil => exact .stay ..
  | cons e es ih =>
    exact (spares_value order e.1 kt s).bind fun _ u => (spares_value order e.2 vt u).bind fun _ u' => ih u'

/-- a field of a resumable message leaves the level of that message alone -/
theorem spares_field (order : ByteOrder) {f : Field} (h : f.resumable = true) (s : Levels) :
    Spares s (f.dispatch order s) := by
  cases f with
  | data | absent | fixedInt | fixedLong | range | raw | object | nothing => rw [Field.dispatch]; exact .ofLayout ..
  | item t v => exact spares_value order v t s
  | items way t vs => exact (Spares.ofLayout () order _ s).bind fun _ u => spares_values order vs t u
  | map kt vt linked es => exact (Spares.ofLayout () order _ s).bind fun _ u => spares_entries order es kt vt u
  | message m =>
    cases m with
    | none => rw [Field.dispatch]; exact .ofLayout ..
    | some m => exact Spares.leave (m.sound order s.forward)
  | note | stall | fail => exact .stay ..
  | root | advance | markHeader => cases h

/-! ## One pass over the fields -/

/-- the cursor only moves on, and behind `n` where the pass comes to its end -/
structure Advances (n : Nat) (s : Levels) (d : Dispatch α) : Prop where
  depth : d.levels.depth = s.depth
  cursor : s.cursor ≤ d.levels.cursor
  headerWritten : d.levels.headerWritten = s.headerWritten
  last : d.result = .ok true → n ≤ d.levels.cursor

theorem advances_fields (order : ByteOrder) {fs : List Field} (h : ∀ f ∈ fs, f.resumable = true) (k : Nat)
    (grant : Grant) {s : Levels} (hk : k ≤ s.cursor) :
    Advances (k + fs.length) s (Field.dispatchAll order k grant fs s) := by
  induction fs generalizing k grant s with
  | nil => exact ⟨rfl, Nat.le_refl _, rfl, fun _ => hk⟩
  | cons f fs ih =>
    have hrest := ih fun f hf => h f (List.mem_cons_of_mem _ hf)
    rw [Field.dispatchAll, List.length_cons, Nat.add_comm fs.length, ← Nat.add_assoc]
    split
    · rename_i hc
      cases spend grant with
      | none => exact ⟨rfl, Nat.le_refl _, rfl, fun h => by cases h⟩
      | some grant =>
        have hf := spares_field order (h f List.mem_cons_self) s
        simp only [Dispatch.bind]
        split
        · have ht : k + 1 ≤ (f.dispatch order s).levels.increment.cursor := by
            rw [Levels.cursor_increment, hf.cursor]
            omega
          obtain ⟨hd, hcur, hhead, hlast⟩ := hrest (k + 1) grant ht
          refine ⟨hd.trans hf.1, ?_, hhead.trans ?_, hlast⟩
          · rw [Levels.cursor_increment, hf.cursor] at hcur
            exact Nat.le_of_succ_le hcur
          · rw [Levels.headerWritten_increment]
            exact congrArg Level.headerWritten hf.current
        · rename_i hr
          refine ⟨hf.1, Nat.le_of_eq hf.cursor.symm, congrArg Level.headerWritten hf.current, ?_⟩
          exact fun h => absurd h hr
    · obtain ⟨hd, hcur, hhead, hlast⟩ := hrest (k + 1) grant (s := s) (by omega)
      exact ⟨hd, hcur, hhead, hlast⟩

theorem rounds_of_le {n : Nat} {pass : Grant → Levels → Dispatch (Grant × α)} {d : Dispatch (Grant × α)}
    (h : d.result = .ok true → n ≤ d.levels.cursor) (k : Nat) : d.rounds n pass k = d := by
  cases k <;> unfold Dispatch.rounds <;> split
  all_goals first
    | rfl
    | rename_i hr
      rw [if_neg (Nat.not_lt.2 (h hr))]

/-- what a call comes to, no matter what is left -/
def bare (d : Dispatch α) : Dispatch Unit :=
  d.map fun _ => ()

theorem bare_map (d : Dispatch α) (f : α → β) : (d.map f).bare = d.bare := rfl

theorem behind_nothing (d : Dispatch α) : d.behind .nothing false = d := by
  simp [behind]

theorem behind_behind (d : Dispatch α) (o p : Output) : (d.behind p false).behind o false = d.behind (o ++ p) false := by
  simp [behind, Output.append_assoc]

/-- a resumable message goes over its fields once -/
theorem dispatch_resumable (order : ByteOrder) (kind : MessageKind) {fields : List Field} (pauses : List Nat)
    (h : ∀ f ∈ fields, f.resumable = true) (s : Levels) :
    ((Message.mk kind fields pauses).dispatch order s).bare =
      if s.headerWritten then (Field.dispatchAll order 0 pauses.head? fields s).bare
      else match spend pauses.head? with
        | none => .stay () (.ok false) s
        | some grant => ((Field.dispatchAll order 0 grant fields s.markHeader).bare).behind
          ((Layout.fixed order kind.type .done).output order) false := by
  have hlast : ∀ g t, (Field.dispatchAll order 0 g fields t).result = .ok true →
      fields.length ≤ (Field.dispatchAll order 0 g fields t).levels.cursor := by
    intro g t hr
    have := (advances_fields order h 0 g t.cursor.zero_le).last hr
    omega
  rw [Message.dispatch]
  split
  · dsimp only
    rw [behind_nothing, rounds_of_le (hlast _ s)]
    rfl
  · cases spend pauses.head? with
    | none => rfl
    | some grant =>
      dsimp only
      rw [rounds_of_le (d := (Field.dispatchAll order 0 grant fields s.markHeader).behind _ _) (hlast grant s.markHeader)]
      rfl

theorem bare_bind (d : Dispatch α) (n : α → Levels → Dispatch β) (c : α → β) (e : Levels → Dispatch Unit)
    (h : ∀ a s, (n a s).bare = e s) : (d.bind n c).bare = d.bare.bind (fun _ => e) id := by
  rcases d with ⟨(_ | _) | (_ | _), out, levels, failed, left⟩
  case ok.true =>
    change ((n left levels).bare).behind out failed = (e levels).behind out failed
    rw [h]
  all_goals rfl

theorem bind_behind (d : Dispatch α) (o : Output) (n : α → Levels → Dispatch β) (c : α → β) :
    (d.behind o false).bind n c = (d.bind n c).behind o false := by
  rcases d with ⟨(_ | _) | (_ | _), out, levels, failed, left⟩ <;>
    simp [Dispatch.bind, behind, map, Output.append_assoc]

theorem leave_behind (d : Dispatch α) (o : Output) : (d.behind o false).leave = d.leave.behind o false := by
  rcases d with ⟨(_ | _) | _, out, levels, failed, left⟩ <;> by_cases h : levels.depth = 0 <;> simp [leave, behind, h]

theorem settle_behind (d : Dispatch α) (o : Output) : (d.behind o false).settle = d.settle.behind o false := by
  rcases d with ⟨(_ | _) | (_ | _), out, levels, failed, left⟩ <;> by_cases h : levels.depth = 0 <;>
    simp [settle, behind, h]

theorem bare_leave (d : Dispatch α) : d.leave.bare = d.bare.leave := by
  rcases d with ⟨(_ | _) | _, out, levels, failed, left⟩ <;> by_cases h : levels.depth = 0 <;>
    simp [leave, bare, map, h]

theorem bare_settle (d : Dispatch α) : d.settle.bare = d.bare.settle := by
  rcases d with ⟨(_ | _) | (_ | _), out, levels, failed, left⟩ <;> by_cases h : levels.depth = 0 <;>
    simp [settle, bare, map, h]

theorem result_leave {d : Dispatch α} (h : d.levels.depth ≠ 0) : d.leave.result = d.result := by
  rcases d with ⟨(_ | _) | _, out, levels, failed, left⟩ <;> simp only [leave, if_neg h]

theorem levels_leave {d : Dispatch α} (h : d.levels.depth ≠ 0) {b : Bool} (hr : d.result = .ok b) :
    d.leave.levels = d.levels.retreat b := by
  simp only [leave, if_neg h, hr]

/-- the outermost message that comes to its end does so on the outermost level, and clears it -/
theorem settle_done {d : Dispatch α} (h : d.settle.result = .ok true) :
    d.result = .ok true ∧ d.levels.depth = 0 ∧ d.settle.levels = d.levels.wipe := by
  rcases d with ⟨(_ | _) | (_ | _), out, levels, failed, left⟩
  case ok.true =>
    by_cases h0 : levels.depth = 0
    · exact ⟨rfl, h0, by simp only [settle, h0, if_true]⟩
    · simp [settle, h0] at h
  all_goals simp [settle] at h

theorem settle_paused {d : Dispatch α} (h : d.settle.result = .ok false) : d.result = .ok false ∧ d.settle = d := by
  rcases d with ⟨(_ | _) | (_ | _), out, levels, failed, left⟩
  case ok.false => exact ⟨rfl, rfl⟩
  case ok.true => by_cases h0 : levels.depth = 0 <;> simp [settle, h0] at h
  all_goals simp [settle] at h

theorem left_settle (d : Dispatch α) : d.settle.left = d.left := by
  rcases d with ⟨(_ | _) | (_ | _), out, levels, failed, left⟩ <;> simp only [settle]
  split <;> rfl

theorem whole_bare (type : Int16) (d : Dispatch α) : d.bare.whole type = d.whole type := by
  rcases d with ⟨(_ | _) | (_ | _), out, levels, failed, left⟩ <;> rfl

theorem result_of_whole {type : Int16} {d : Dispatch α} (h : (d.whole type).result = .ok true) :
    d.result = .ok true := by
  unfold whole at h
  split at h
  · cases h
  · exact h

/-! ## Going on where a call left off -/

/-- `act` is what a call without pauses comes to. A call that comes to its end comes to the same; where one suspends, a
call without pauses puts out the same and then what it puts out from there on. -/
structure Resumes (s : Levels) (d : Dispatch α) (act : Levels → Dispatch Unit) : Prop where
  done : d.result = .ok true → act s = d.bare
  paused : d.result = .ok false → act s = (act d.levels).behind d.out false

/-- a call that never suspends -/
theorem Resumes.of_done {s : Levels} {d : Dispatch α} {act : Levels → Dispatch Unit}
    (h : d.result = .ok true → act s = d.bare) (hr : d.result ≠ .ok false) : Resumes s d act :=
  ⟨h, fun h => absurd h hr⟩

theorem Resumes.stay (left : α) (result : Except Fault Bool) (s : Levels) :
    Resumes s (.stay left result s) fun s => .stay () result s where
  done _ := rfl
  paused _ := (behind_nothing _).symm

theorem result_ofLayout_ne (left : α) (order : ByteOrder) (l : Layout) (s : Levels) :
    (ofLayout left order l s).result ≠ .ok false := by
  unfold ofLayout
  cases l.result <;> exact fun h => by cases h

theorem result_bind_ne {d : Dispatch α} {n : α → Levels → Dispatch β} {c : α → β} (hd : d.result ≠ .ok false)
    (hn : ∀ a s, (n a s).result ≠ .ok false) : (d.bind n c).result ≠ .ok false := by
  unfold Dispatch.bind
  split
  · exact hn _ _
  · exact hd

theorem result_whole_ne (type : Int16) (d : Dispatch α) : (d.whole type).result ≠ .ok false := by
  unfold whole
  split
  · exact fun h => by cases h
  · rename_i h
    exact h

theorem result_value_ne (order : ByteOrder) (v : Value) (t : ItemType) (s : Levels) :
    (v.dispatch order t s).result ≠ .ok false := by
  cases v with
  | null => rw [Value.dispatch]; exact result_ofLayout_ne _ _ _ _
  | data d => rw [Value.dispatch]; exact result_ofLayout_ne _ _ _ _
  | message m =>
    rw [Value.dispatch]
    split
    · exact result_whole_ne _ _
    · exact result_ofLayout_ne _ _ _ _

theorem result_values_ne (order : ByteOrder) (vs : List Value) (t : ItemType) (s : Levels) :
    (Value.dispatchAll order t vs s).result ≠ .ok false := by
  induction vs generalizing s with
  | nil => exact fun h => by cases h
  | cons v vs ih => exact result_bind_ne (result_value_ne order v t s) fun _ u => ih u

theorem result_entries_ne (order : ByteOrder) (es : List (Value × Value)) (kt vt : ItemType) (s : Levels) :
    (Value.dispatchEntries order kt vt es s).result ≠ .ok false := by
  induction es generalizing s with
  | nil => exact fun h => by cases h
  | cons e es ih =>
    exact result_bind_ne (result_value_ne order e.1 kt s) fun _ u =>
      result_bind_ne (result_value_ne order e.2 vt u) fun _ u' => ih u'

/-- both calls of two in a row come to their end where the two together do -/
theorem bind_done {d : Dispatch α} {n : α → Levels → Dispatch β} {c : α → β} (h : (d.bind n c).result = .ok true) :
    d.result = .ok true ∧ (n d.left d.levels).result = .ok true := by
  unfold Dispatch.bind at h
  split at h
  · rename_i hd
    exact ⟨hd, h⟩
  · rename_i hd
    exact absurd h hd

theorem bind_of_done {d : Dispatch α} {n : α → Levels → Dispatch β} {c : α → β} (h : d.result = .ok true) :
    d.bind n c = (n d.left d.levels).behind d.out d.failed := by
  simp only [Dispatch.bind, h]

theorem left_ofLayout (left : α) (order : ByteOrder) (l : Layout) (s : Levels) : (ofLayout left order l s).left = left := by
  unfold ofLayout
  cases l.result <;> rfl

/-- a layout that comes to its end leaves the levels alone -/
theorem ofLayout_done {left : α} {order : ByteOrder} {l : Layout} {s : Levels}
    (h : (ofLayout left order l s).result = .ok true) :
    l.result = .ok () ∧ (ofLayout left order l s).levels = s ∧ (ofLayout left order l s).out = l.output order := by
  unfold ofLayout at h ⊢
  cases hr : l.result with
  | ok => exact ⟨rfl, rfl, rfl⟩
  | error e => simp [hr] at h

theorem resumes_values {order : ByteOrder} {vs : List Value} (t : ItemType)
    (h : ∀ v ∈ vs, ∀ s, (v.dispatch order t s).result = .ok true → v.steady.dispatch order t s = v.dispatch order t s)
    (s : Levels) (hs : (Value.dispatchAll order t vs s).result = .ok true) :
    Value.dispatchAll order t (Value.steadyAll vs) s = Value.dispatchAll order t vs s := by
  induction vs generalizing s with
  | nil => rfl
  | cons v vs ih =>
    rw [Value.dispatchAll] at hs
    obtain ⟨hv, hvs⟩ := bind_done hs
    rw [Value.steadyAll, Value.dispatchAll, Value.dispatchAll, h v List.mem_cons_self s hv, bind_of_done hv,
      bind_of_done hv, ih (fun v hv => h v (List.mem_cons_of_mem _ hv)) _ hvs]

theorem resumes_entries {order : ByteOrder} {es : List (Value × Value)} (kt vt : ItemType)
    (h : ∀ e ∈ es,
      (∀ s, (e.1.dispatch order kt s).result = .ok true → e.1.steady.dispatch order kt s = e.1.dispatch order kt s) ∧
      ∀ s, (e.2.dispatch order vt s).result = .ok true → e.2.steady.dispatch order vt s = e.2.dispatch order vt s)
    (s : Levels) (hs : (Value.dispatchEntries order kt vt es s).result = .ok true) :
    Value.dispatchEntries order kt vt (Value.steadyEntries es) s = Value.dispatchEntries order kt vt es s := by
  induction es generalizing s with
  | nil => rfl
  | cons e es ih =>
    obtain ⟨k, v⟩ := e
    obtain ⟨hk, hv⟩ := h (k, v) List.mem_cons_self
    rw [Value.dispatchEntries] at hs
    obtain ⟨hks, hrest⟩ := bind_done hs
    obtain ⟨hvs, hes⟩ := bind_done hrest
    rw [Value.steadyEntries, Value.dispatchEntries, Value.dispatchEntries, hk s hks, bind_of_done hks,
      bind_of_done hks, hv _ hvs, bind_of_done hvs, bind_of_done hvs,
      ih (fun e he => h e (List.mem_cons_of_mem _ he)) _ hes]

/-- the fields of a steady message, from number `k` on -/
def steadyPass (order : ByteOrder) (k : Nat) (fs : List Field) (s : Levels) : Dispatch Unit :=
  (Field.dispatchAll order k none (Field.steadyAll fs) s).bare

theorem steadyPass_cons (order : ByteOrder) (k : Nat) (f : Field) (fs : List Field) (s : Levels) :
    steadyPass order k (f :: fs) s =
      if s.cursor = k then
        ((f.steady.dispatch order s).bare).bind (fun _ s => steadyPass order (k + 1) fs s.increment) id
      else steadyPass order (k + 1) fs s := by
  rw [steadyPass, Field.steadyAll, Field.dispatchAll]
  split
  · exact bare_bind _ _ _ (fun s => steadyPass order (k + 1) fs s.increment) fun _ _ => rfl
  · rfl

theorem resumes_fields {order : ByteOrder} {fs : List Field} (hr : ∀ f ∈ fs, f.resumable = true)
    (h : ∀ f ∈ fs, ∀ s, Resumes s (f.dispatch order s) fun s => (f.steady.dispatch order s).bare) (k : Nat)
    (grant : Grant) {s : Levels} (hk : k ≤ s.cursor) :
    Resumes s (Field.dispatchAll order k grant fs s) (steadyPass order k fs) := by
  -- the cursor never lags behind the number of the field at hand, so a field that was passed is passed again
  induction fs generalizing k grant s with
  | nil => exact .stay (grant, ([] : List Field)) (.ok true) s
  | cons f fs ih =>
    have hrest : ∀ g {t : Levels}, k + 1 ≤ t.cursor → _ := fun g t ht =>
      ih (fun f hf => hr f (List.mem_cons_of_mem _ hf)) (fun f hf => h f (List.mem_cons_of_mem _ hf)) (k + 1) g ht
    have hon : ∀ g {t : Levels}, k + 1 ≤ t.cursor → _ := fun g t ht =>
      advances_fields order (fun f hf => hr f (List.mem_cons_of_mem _ hf)) (k + 1) g ht
    have hf := h f List.mem_cons_self s
    have hsp := spares_field order (hr f List.mem_cons_self) s
    rw [Field.dispatchAll]
    split
    · rename_i hc
      cases hg : spend grant with
      | none => exact ⟨(fun h => by cases h), fun _ => (behind_nothing _).symm⟩
      | some g =>
        dsimp only
        have hnext : k + 1 ≤ (f.dispatch order s).levels.increment.cursor := by
          rw [Levels.cursor_increment, hsp.cursor, hc]
        have hcalm := (f.sound order s).calm
        by_cases hd : (f.dispatch order s).result = .ok true
        · -- the field is out, and the pass goes on behind it
          have hp := hrest g hnext
          rw [bind_of_done hd, hcalm true hd]
          have hs : steadyPass order k (f :: fs) s =
              (steadyPass order (k + 1) fs (f.dispatch order s).levels.increment).behind (f.dispatch order s).out false := by
            rw [steadyPass_cons, if_pos hc, hf.done hd, bind_of_done (d := (f.dispatch order s).bare) hd]
            exact congrArg (behind _ _) (hcalm true hd)
          constructor
          · intro hr
            rw [hs, hp.done hr]
            rfl
          · intro hr
            have hcur := (hon g hnext).cursor
            rw [hs, hp.paused hr, behind_behind, steadyPass_cons, if_neg]
            · rfl
            · change (Field.dispatchAll order (k + 1) g fs _).levels.cursor ≠ k
              omega
        · -- the field has suspended or has been refused
          have hb : ∀ n (c : Field → Grant × List Field), (f.dispatch order s).bind n c = (f.dispatch order s).map c := by
            intro n c
            unfold Dispatch.bind
            split
            · contradiction
            · rfl
          rw [hb]
          refine ⟨fun h => absurd h hd, fun hr => ?_⟩
          have hcur : (f.dispatch order s).levels.cursor = k := hsp.cursor.trans hc
          rw [steadyPass_cons, if_pos hc, hf.paused hr, bind_behind]
          change _ = (steadyPass order k (f :: fs) (f.dispatch order s).levels).behind (f.dispatch order s).out false
          rw [steadyPass_cons, if_pos hcur]
    · rename_i hc
      have hk' : k + 1 ≤ s.cursor := by omega
      have hp := hrest grant hk'
      have hs : steadyPass order k (f :: fs) s = steadyPass order (k + 1) fs s := by
        rw [steadyPass_cons, if_neg hc]
      refine ⟨fun hr => hs.trans (hp.done hr), fun hr => ?_⟩
      have hcur := (hon grant hk').cursor
      rw [hs, hp.paused hr]
      change _ = (steadyPass order k (f :: fs) (Field.dispatchAll order (k + 1) grant fs s).levels).behind _ false
      rw [steadyPass_cons, if_neg]
      · rfl
      · omega

theorem resumes_message {order : ByteOrder} (kind : MessageKind) {fields : List Field} (pauses : List Nat)
    (hr : ∀ f ∈ fields, f.resumable = true)
    (h : ∀ f ∈ fields, ∀ s, Resumes s (f.dispatch order s) fun s => (f.steady.dispatch order s).bare) (s : Levels) :
    Resumes s ((Message.mk kind fields pauses).dispatch order s)
      fun s => ((Message.mk kind fields pauses).steady.dispatch order s).bare := by
  have hsteady : ∀ f ∈ Field.steadyAll fields, f.resumable = true := by
    intro f hf
    rw [Field.steadyAll_eq] at hf
    obtain ⟨g, hg, rfl⟩ := List.mem_map.1 hf
    rw [g.resumable_steady]
    exact hr g hg
  have hact : ∀ s : Levels, ((Message.mk kind fields pauses).steady.dispatch order s).bare =
      if s.headerWritten then steadyPass order 0 fields s
      else (steadyPass order 0 fields s.markHeader).behind ((Layout.fixed order kind.type .done).output order) false := by
    intro s
    rw [Message.steady, dispatch_resumable order kind [] hsteady]
    rfl
  have hbare := dispatch_resumable order kind pauses hr s
  suffices key : Resumes s ((Message.mk kind fields pauses).dispatch order s).bare
      fun s => ((Message.mk kind fields pauses).steady.dispatch order s).bare from ⟨key.done, key.paused⟩
  rw [hbare]
  simp only [hact]
  by_cases hw : s.headerWritten = true
  · have hp := resumes_fields hr h 0 pauses.head? s.cursor.zero_le
    have hon := advances_fields order hr 0 pauses.head? s.cursor.zero_le
    simp only [hw, if_true]
    refine ⟨fun hres => (if_pos hw).trans (hp.done hres), fun hres => (if_pos hw).trans ?_⟩
    have hmark : (Field.dispatchAll order 0 pauses.head? fields s).levels.headerWritten = true :=
      hon.headerWritten.trans hw
    exact (hp.paused hres).trans (congrArg (behind · _ false) (if_pos hmark).symm)
  · simp only [hw]
    cases spend pauses.head? with
    | none => exact ⟨(fun h => by cases h), fun _ => (behind_nothing _).symm⟩
    | some grant =>
      have hp := resumes_fields hr h 0 grant s.markHeader.cursor.zero_le
      have hon := advances_fields order hr 0 grant s.markHeader.cursor.zero_le
      refine ⟨fun hres => (if_neg hw).trans (congrArg (behind · _ false) (hp.done hres)), fun hres => (if_neg hw).trans ?_⟩
      have hmark : (Field.dispatchAll order 0 grant fields s.markHeader).levels.headerWritten = true :=
        hon.headerWritten.trans s.headerWritten_markHeader
      refine (congrArg (behind · _ false) (hp.paused hres)).trans ?_
      rw [behind_behind]
      exact congrArg (behind · _ false) (if_pos hmark).symm

theorem resumes_step (order : ByteOrder) :
    Tree.Step
      (fun m => m.resumable = true → ∀ s, Resumes s (m.dispatch order s) fun s => (m.steady.dispatch order s).bare)
      (fun f => f.resumable = true → ∀ s, Resumes s (f.dispatch order s) fun s => (f.steady.dispatch order s).bare)
      fun v => v.resumable = true → ∀ t s,
        (v.dispatch order t s).result = .ok true → v.steady.dispatch order t s = v.dispatch order t s where
  message kind fields pauses h hr s := by
    rw [Message.resumable, Field.resumableAll_iff] at hr
    exact resumes_message kind pauses hr (fun f hf => h f hf (hr f hf)) s
  plain f hf hr s := by
    have hs : f.steady = f := by
      cases f with
      | message m =>
        cases m with
        | none => rfl
        | some m => cases hf
      | root | item | items | map => cases hf
      | _ => rfl
    rw [hs]
    cases f with
    | stall => exact .stay Field.stall (.ok false) s
    | message m =>
      cases m with
      | none => exact .of_done (fun _ => rfl) (by rw [Field.dispatch]; exact result_ofLayout_ne _ _ _ _)
      | some m => cases hf
    | note | fail => exact .of_done (fun _ => rfl) fun h => by cases h
    | root | advance | markHeader => cases hr
    | item | items | map => cases hf
    | _ => exact .of_done (fun _ => rfl) (by rw [Field.dispatch]; exact result_ofLayout_ne _ _ _ _)
  item t v h hr s := by
    refine .of_done (fun hs => ?_) (result_value_ne order v t s)
    rw [Field.dispatch] at hs
    rw [Field.steady, Field.dispatch, Field.dispatch, bare_map, bare_map, h hr t s hs]
  items way t vs h hr s := by
    rw [Field.resumable, Value.resumableAll_iff] at hr
    rw [Field.dispatch]
    refine .of_done (fun hs => ?_)
      (result_bind_ne (result_ofLayout_ne _ _ _ _) fun _ u => result_values_ne order vs t u)
    obtain ⟨hc, hvs⟩ := bind_done (d := ofLayout () order _ s) (n := fun _ => Value.dispatchAll order t vs) hs
    rw [Field.steady, Field.dispatch, bare_map, bare_map, Value.steadyAll_eq, List.length_map, ← Value.steadyAll_eq,
      bind_of_done hc, bind_of_done hc, resumes_values t (fun v hv => h v hv (hr v hv) t) _ hvs]
  map kt vt linked es h hr s := by
    rw [Field.resumable, Value.resumableEntries_iff] at hr
    rw [Field.dispatch]
    refine .of_done (fun hs => ?_)
      (result_bind_ne (result_ofLayout_ne _ _ _ _) fun _ u => result_entries_ne order es kt vt u)
    obtain ⟨hc, hes⟩ := bind_done (d := ofLayout () order _ s) (n := fun _ => Value.dispatchEntries order kt vt es) hs
    rw [Field.steady, Field.dispatch, bare_map, bare_map, Value.steadyEntries_eq, List.length_map,
      ← Value.steadyEntries_eq, bind_of_done hc, bind_of_done hc,
      resumes_entries kt vt (fun e he => ⟨(h e he).1 (hr e he).1 kt, (h e he).2 (hr e he).2 vt⟩) _ hes]
  nested m h hr s := by
    have hm := h hr s.forward
    have hd : (m.dispatch order s.forward).levels.depth = s.depth + 1 := (m.sound order s.forward).depth
    have hact : ∀ s : Levels, ((Field.message (some m)).steady.dispatch order s).bare =
        ((m.steady.dispatch order s.forward).bare).leave := by
      intro s
      rw [Field.steady, Field.dispatch, bare_map, bare_leave]
    have hres := result_leave (d := m.dispatch order s.forward) (by omega)
    rw [Field.dispatch]
    refine ⟨fun hs => ?_, fun hs => ?_⟩
    · rw [hact, hm.done (hres.symm.trans hs), bare_map, bare_leave]
    · have hpaused := hres.symm.trans hs
      -- the suspended level is found again as it was left: going up without clearing it and down again is nothing
      change ((Field.message (some m)).steady.dispatch order s).bare =
        ((Field.message (some m)).steady.dispatch order (m.dispatch order s.forward).leave.levels).bare.behind
          (m.dispatch order s.forward).leave.out false
      rw [hact, hact, hm.paused hpaused, leave_behind, levels_leave (by omega) hpaused,
        Levels.forward_retreat_false (by omega), out_leave]
  root m h hr := by cases hr
  null _ _ _ _ := rfl
  data _ _ _ _ _ := rfl
  inner m h hr t s hs := by
    rw [Value.steady, Value.dispatch, Value.dispatch]
    rw [Value.dispatch] at hs
    split
    · rename_i ht
      rw [if_pos ht] at hs
      have hd : (m.dispatch order s.forward).levels.depth = s.depth + 1 := (m.sound order s.forward).depth
      have hdone := (result_leave (by omega)).symm.trans (result_of_whole hs)
      rw [m.type_steady, ← whole_bare, bare_leave, (h hr s.forward).done hdone, ← bare_leave, whole_bare]
    · rfl

/-! ## What is left of a message -/

theorem left_fields {order : ByteOrder} {fs : List Field} (h : ∀ f ∈ fs, ∀ s, (f.dispatch order s).left.steady = f.steady)
    (k : Nat) (grant : Grant) (s : Levels) :
    Field.steadyAll (Field.dispatchAll order k grant fs s).left.2 = Field.steadyAll fs := by
  induction fs generalizing k grant s with
  | nil => rfl
  | cons f fs ih =>
    have hrest := ih fun f hf => h f (List.mem_cons_of_mem _ hf)
    rw [Field.dispatchAll]
    split
    · cases spend grant with
      | none => rfl
      | some grant =>
        simp only [Dispatch.bind]
        split
        · simp only [behind, map, Field.steadyAll, hrest, h f List.mem_cons_self s]
        · simp only [map, Field.steadyAll, h f List.mem_cons_self s]
    · simp only [map, Field.steadyAll, hrest]

theorem left_rounds {d : Dispatch (Grant × List Field)} {gs : List Field} {n : Nat}
    {pass : Grant → Levels → Dispatch (Grant × List Field)} (hd : Field.steadyAll d.left.2 = gs)
    (hp : ∀ g t, Field.steadyAll (pass g t).left.2 = gs) (k : Nat) :
    Field.steadyAll (d.rounds n pass k).left.2 = gs := by
  induction k generalizing d with
  | zero =>
    unfold Dispatch.rounds
    split
    · split <;> exact hd
    · exact hd
  | succ k ih =>
    unfold Dispatch.rounds
    split
    · split
      · exact ih (hp _ _)
      · exact hd
    · exact hd

/-- calls only use up pauses -/
theorem left_step (order : ByteOrder) :
    Tree.Step (fun m => ∀ s, (m.dispatch order s).left.steady = m.steady)
      (fun f => ∀ s, (f.dispatch order s).left.steady = f.steady) fun _ => True where
  message kind fields pauses h s := by
    have hp := fun g t => left_fields h 0 g t
    have hgo : ∀ (o : Output) g t, Field.steadyAll (rounds fields.length (fun g s => Field.dispatchAll order 0 g fields s)
        g.rounds ((Field.dispatchAll order 0 g fields t).behind o false)).left.2 = Field.steadyAll fields :=
      fun o g t => left_rounds (d := (Field.dispatchAll order 0 g fields t).behind o false) (hp g t) hp _
    rw [Message.dispatch, Message.steady]
    split
    · exact congrArg (Message.mk kind · []) (hgo _ _ s)
    · cases spend pauses.head? with
      | none => rfl
      | some grant => exact congrArg (Message.mk kind · []) (hgo _ grant s.markHeader)
  plain f hf s := by
    cases f with
    | message m =>
      cases m with
      | none => rw [Field.dispatch, left_ofLayout]
      | some m => cases hf
    | item | items | map | root => cases hf
    | note | advance | markHeader | stall | fail => rfl
    | _ => rw [Field.dispatch, left_ofLayout]
  item _ _ _ _ := rfl
  items _ _ _ _ _ := rfl
  map _ _ _ _ _ _ := rfl
  nested m h s := by
    rw [Field.dispatch]
    have hl : ∀ d : Dispatch Message, d.leave.left = d.left := by
      intro d
      rcases d with ⟨(_ | _) | _, out, levels, failed, left⟩ <;> simp only [leave] <;> split <;> rfl
    exact congrArg (fun m => Field.message (some m)) ((congrArg Message.steady (hl _)).trans (h s.forward))
  root m h s := rfl
  null := trivial
  data _ := trivial
  inner _ _ := trivial

end Dispatch

theorem Message.steady_left (order : ByteOrder) (m : Message) (s : Levels) : (m.dispatch order s).left.steady = m.steady :=
  (left_step order).all.1 m s

/-- **A call that suspends can be gone on with.** -/
theorem Message.resumes {m : Message} (hm : m.resumable = true) (order : ByteOrder) (s : Levels) :
    Resumes s (m.dispatch order s) fun s => (m.steady.dispatch order s).bare :=
  (resumes_step order).all.1 m hm s

namespace Dispatch

theorem root_steady_left (order : ByteOrder) (m : Message) (s : Levels) : (root order m s).left.steady = m.steady :=
  (congrArg Message.steady (left_settle _)).trans (m.steady_left order s)

theorem root_resumes {m : Message} (hm : m.resumable = true) (order : ByteOrder) (s : Levels) :
    Resumes s (root order m s) fun s => (root order m.steady s).bare := by
  have h := m.resumes hm order s
  unfold root
  constructor
  · intro hr
    rw [bare_settle, h.done (settle_done hr).1, bare_settle]
  · intro hr
    obtain ⟨hp, hs⟩ := settle_paused hr
    simp only [hs, bare_settle]
    rw [h.paused hp, settle_behind]

end Dispatch

end Courier
