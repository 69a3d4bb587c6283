import Courier.Proofs.Moments
import Courier.Proofs.Resume
import Courier.Proofs.RoomDecides

/-!
The segments that a call puts out, in two sessions side by side.

The moments of a call list the segments that it sets about putting out. Let two sessions keep pace; then the same call
lists the same segments in both, whatever their byte orders are, and unless it is refused each session has put out just
these segments, each in its own byte order. That is `Spelled`, which the ways of putting calls together respect.

Each half of it is worth having by itself: with one session on both sides it says that the moments of a call account for
every byte that it puts out.

`Message.spelled`, `Field.spelled`: the calls.
`spelled_root`, `spelled_nested`: a call on the outermost message, and one on a nested message.
-/

namespace Courier

open Writer Moment Segment

namespace Moment

theorem puts_append (xs ys : List Moment) : puts (xs ++ ys) = puts xs ++ puts ys :=
  List.flatMap_append

/-- what lies around a moment does not count -/
theorem puts_below (xs : List Moment) (type : Int16) : puts (xs.map (.below type)) = puts xs := by
  unfold puts
  rw [List.flatMap_map]
  rfl

end Moment

namespace Writer

variable {α β : Type} {C : Nat → Nat → Prop}

/-- two calls that come to the same, keep their sessions at pace and set about the same segments, which each session has
put out in its byte order unless the calls are refused -/
structure Spelled (C : Nat → Nat → Prop) (w v : Writer) (s t : Sent α) (xs ys : List Moment) : Prop where
  abreast : Abreast (Pace C) s t
  left_order : s.writer.order = w.order
  right_order : t.writer.order = v.order
  proper : ∀ x ∈ puts xs, x.Proper
  puts : puts ys = puts xs
  left : ∀ b, s.result = .ok b → s.writer.written = w.written ++ spell w.order (Moment.puts xs)
  right : ∀ b, s.result = .ok b → t.writer.written = v.written ++ spell v.order (Moment.puts ys)

namespace Spelled

variable {w v : Writer} {s t : Sent α} {xs ys : List Moment}

/-- nothing is done -/
theorem stay (h : Pace C w v) (result : Except Fault Bool) (left : α) :
    Spelled C w v ⟨result, w, left⟩ ⟨result, v, left⟩ [] [] :=
  ⟨⟨rfl, rfl, h⟩, rfl, rfl, fun _ h => (by cases h), rfl, fun _ _ => (List.append_nil _).symm,
    fun _ _ => (List.append_nil _).symm⟩

theorem refused (h : Pace C w v) (e : WireError) :
    Spelled C w v (sent () (refuse e) w) (sent () (refuse e) v) [] [] :=
  ⟨⟨rfl, rfl, h.mark⟩, rfl, rfl, fun _ h => (by cases h), rfl, fun _ hb => (by cases hb), fun _ hb => (by cases hb)⟩

theorem map (h : Spelled C w v s t xs ys) (f : α → β) : Spelled C w v (s.map f) (t.map f) xs ys :=
  ⟨h.abreast.map f, h.left_order, h.right_order, h.proper, h.puts, h.left, h.right⟩

/-- moments at which nothing is put out do not count -/
theorem cons (h : Spelled C w v s t xs ys) {x y : Moment} (hx : x.segments = []) (hy : y.segments = []) :
    Spelled C w v s t (x :: xs) (y :: ys) := by
  have hxs : Moment.puts (x :: xs) = Moment.puts xs := by rw [Moment.puts, List.flatMap_cons, hx]; rfl
  have hys : Moment.puts (y :: ys) = Moment.puts ys := by rw [Moment.puts, List.flatMap_cons, hy]; rfl
  refine ⟨h.abreast, h.left_order, h.right_order, ?_, ?_, ?_, ?_⟩
  · rw [hxs]
    exact h.proper
  · rw [hxs, hys]
    exact h.puts
  · rw [hxs]
    exact h.left
  · rw [hys]
    exact h.right

/-- a call that starts on other levels -/
theorem onNesting {f g : Nesting → Nesting} (h : Spelled C (w.onNesting f) (v.onNesting g) s t xs ys) :
    Spelled C w v s t xs ys :=
  ⟨h.abreast, h.left_order, h.right_order, h.proper, h.puts, h.left, h.right⟩

/-- one call behind another that has come to its end -/
theorem seq (h : Spelled C w v s t xs ys) (hs : s.result = .ok true) {s' t' : Sent β} {xs' ys' : List Moment}
    (h' : Spelled C s.writer t.writer s' t' xs' ys') : Spelled C w v s' t' (xs ++ xs') (ys ++ ys') where
  abreast := h'.abreast
  left_order := h'.left_order.trans h.left_order
  right_order := h'.right_order.trans h.right_order
  proper := by
    rw [puts_append]
    exact List.forall_mem_append.2 ⟨h.proper, h'.proper⟩
  puts := by rw [puts_append, puts_append, h.puts, h'.puts]
  left b hb := by
    rw [h'.left b hb, h.left true hs, h.left_order, puts_append, spell_append, List.append_assoc]
  right b hb := by
    rw [h'.right b hb, h.right true hs, h.right_order, puts_append, spell_append, List.append_assoc]

theorem bind (h : Spelled C w v s t xs ys) {f : α → Writer → Sent β} {g : α → β} {m : Writer → List Moment}
    (hf : ∀ a {w v : Writer}, Pace C w v → Spelled C w v (f a w) (f a v) (m w) (m v)) :
    Spelled C w v (s.bind f g) (t.bind f g) (xs ++ s.onward m) (ys ++ t.onward m) := by
  by_cases hs : s.result = .ok true
  · have ht := h.abreast.result.symm.trans hs
    rw [Sent.bind_of_done hs, Sent.bind_of_done ht, Sent.onward_of_done hs, Sent.onward_of_done ht, ← h.abreast.left]
    exact h.seq hs (hf s.left h.abreast.writer)
  · have ht : t.result ≠ .ok true := fun ht => hs (h.abreast.result.trans ht)
    rw [Sent.bind_of_ne hs, Sent.bind_of_ne ht, Sent.onward_of_ne hs, Sent.onward_of_ne ht, List.append_nil,
      List.append_nil]
    exact h.map g

/-- an act that touches no level -/
theorem lays (hC : Sized C) {act : Writing Unit} {l : ByteOrder → Layout} {segs : List Segment} (ha : Lays act l)
    (hl : Spells l segs) (left : α) (h : Pace C w v) :
    Spelled C w v (sent left act w) (sent left act v) [⟨.put segs, w, none⟩] [⟨.put segs, v, none⟩] := by
  have key : ∀ {u : Writer}, u.Inside → (sent left act u).writer.order = u.order ∧
      ∀ b, (sent left act u).result = .ok b → (sent left act u).writer.written = u.written ++ spell u.order segs := by
    intro u hu
    have hcarry := Carries.ofLayout ha hu left
    refine ⟨hcarry.keeps.order, fun b hb => ?_⟩
    have htells := hcarry.tells_of_ok hb
    have hd := htells.result.symm.trans hb
    cases b with
    | false => exact absurd hd (Dispatch.result_ofLayout_ne _ _ _ _)
    | true =>
      obtain ⟨hres, -, hout⟩ := Dispatch.ofLayout_done hd
      rw [htells.written true hd, hout, hl.spelled u.order hres]
  have habreast := (tandem_pace hC).lays ha hl left h
  have hputs : ∀ u : Writer, Moment.puts [⟨.put segs, u, none⟩] = segs := fun u => List.append_nil segs
  refine ⟨habreast, (key h.left_inside).1, (key h.right_inside).1, ?_, rfl, fun b hb => ?_, fun b hb => ?_⟩
  · rw [hputs]
    exact hl.proper
  · rw [hputs]
    exact (key h.left_inside).2 b hb
  · rw [hputs]
    exact (key h.right_inside).2 b (habreast.result.symm.trans hb)

/-- calls that answer for others -/
theorem relay (h : Spelled C w v s t xs ys) {s' t' : Sent β} (ha : Abreast (Pace C) s' t') (hs : Relays s s')
    (ht : Relays t t') : Spelled C w v s' t' xs ys where
  abreast := ha
  left_order := hs.order.trans h.left_order
  right_order := ht.order.trans h.right_order
  proper := h.proper
  puts := h.puts
  left b hb := by
    obtain ⟨c, hc⟩ := hs.ended b hb
    rw [hs.written b hb, h.left c hc]
  right b hb := by
    obtain ⟨c, hc⟩ := hs.ended b hb
    rw [ht.written b (ha.result.symm.trans hb), h.right c hc]

theorem leave (hC : Sized C) (h : Spelled C (enter w) (enter v) s t xs ys) :
    Spelled C w v (leave s) (leave t) xs ys :=
  h.onNesting.relay ((tandem_pace hC).leave h.abreast) (relays_leave s) (relays_leave t)

theorem settle (hC : Sized C) (h : Spelled C w v s t xs ys) : Spelled C w v (settle s) (settle t) xs ys :=
  h.relay ((tandem_pace hC).settle h.abreast) (relays_settle s) (relays_settle t)

theorem below (h : Spelled C w v s t xs ys) (type : Int16) :
    Spelled C w v s t (xs.map (.below type)) (ys.map (.below type)) := by
  refine ⟨h.abreast, h.left_order, h.right_order, ?_, ?_, ?_, ?_⟩
  · rw [puts_below]
    exact h.proper
  · rw [puts_below, puts_below]
    exact h.puts
  · rw [puts_below]
    exact h.left
  · rw [puts_below]
    exact h.right

theorem whole (hC : Sized C) (h : Spelled C w v s t xs ys) (type : Int16) :
    Spelled C w v (sent () (fun _ => Writer.whole type s) w) (sent () (fun _ => Writer.whole type t) v)
      (xs.map (.below type)) (ys.map (.below type)) :=
  (h.relay ((tandem_pace hC).whole h.abreast type w v) (relays_whole s type w) (relays_whole t type v)).below type

/-- going over the fields time after time -/
theorem rounds (hC : Sized C) {s t : Sent (Grant × α)} (h : Spelled C w v s t xs ys) {n : Nat}
    {pass : Grant → Writer → Sent (Grant × α)} {moments : Grant → Writer → List Moment}
    (hp : ∀ g {w v : Writer}, Pace C w v → Spelled C w v (pass g w) (pass g v) (moments g w) (moments g v)) (k : Nat) :
    Spelled C w v (rounds n pass k s) (rounds n pass k t) (xs ++ s.laps n pass moments k)
      (ys ++ t.laps n pass moments k) := by
  induction k generalizing s t xs ys with
  | zero =>
    rw [Sent.laps, Sent.laps, List.append_nil, List.append_nil]
    exact h.relay ((tandem_pace hC).rounds h.abreast (fun g _ _ hv => (hp g hv).abreast) 0) (relays_rounds s n pass)
      (relays_rounds t n pass)
  | succ k ih =>
    by_cases hs : s.result = .ok true
    · have ht := h.abreast.result.symm.trans hs
      have hc := (tandem_pace hC).cursor h.abreast.writer
      rw [Sent.laps, Sent.laps, Sent.onward_of_done hs, Sent.onward_of_done ht, Writer.rounds, Writer.rounds, hs, ht, hc,
        ← h.abreast.left]
      dsimp only
      by_cases hn : t.writer.cursor < n
      · rw [if_pos hn, if_pos hn, if_pos hn, if_pos hn, ← List.append_assoc, ← List.append_assoc]
        exact ih (h.seq hs (hp s.left.1 h.abreast.writer))
      · rw [if_neg hn, if_neg hn, if_neg hn, if_neg hn, List.append_nil, List.append_nil]
        exact h
    · have ht : t.result ≠ .ok true := fun ht => hs (h.abreast.result.trans ht)
      rw [rounds_of_ne hs, rounds_of_ne ht, Sent.laps, Sent.laps, Sent.onward_of_ne hs, Sent.onward_of_ne ht,
        List.append_nil, List.append_nil]
      exact h

/-! ## Calls -/

theorem fields (hC : Sized C) {fs : List Field}
    (hf : ∀ f ∈ fs, ∀ {w v : Writer}, Pace C w v → Spelled C w v (f.write w) (f.write v) (f.moments w) (f.moments v))
    (k : Nat) (grant : Grant) (h : Pace C w v) :
    Spelled C w v (Field.writeAll k grant fs w) (Field.writeAll k grant fs v) (Field.momentsAll k grant fs w)
      (Field.momentsAll k grant fs v) := by
  induction fs generalizing k grant w v with
  | nil =>
    rw [Field.writeAll, Field.writeAll, Field.momentsAll, Field.momentsAll]
    exact stay h _ _
  | cons f fs ih =>
    have hrest := fun k grant {w v : Writer} => @ih w v (fun f hfs => hf f (List.mem_cons_of_mem _ hfs)) k grant
    rw [Field.writeAll_cons, Field.writeAll_cons, Field.momentsAll, Field.momentsAll, (tandem_pace hC).cursor h]
    split
    · cases spend grant with
      | none => exact stay h _ _
      | some grant =>
        refine (hf f List.mem_cons_self h).bind fun f _ _ hv => ?_
        exact ((hrest (k + 1) grant (hv.onNesting Nesting.view_increment)).map _).onNesting
    · exact (hrest (k + 1) grant h).map _

theorem values {vs : List Value} {ty : ItemType}
    (hx : ∀ x ∈ vs, ∀ {w v : Writer}, Pace C w v →
      Spelled C w v (sent () (x.write ty) w) (sent () (x.write ty) v) (x.moments ty w) (x.moments ty v))
    (h : Pace C w v) :
    Spelled C w v (sent () (Value.writeAll ty vs) w) (sent () (Value.writeAll ty vs) v) (Value.momentsAll ty vs w)
      (Value.momentsAll ty vs v) := by
  induction vs generalizing w v with
  | nil => exact stay h _ _
  | cons x vs ih =>
    rw [Value.writeAll, sent_bind, sent_bind, Value.momentsAll, Value.momentsAll]
    exact (hx x List.mem_cons_self h).bind fun _ _ _ hv => ih (fun x hxs => hx x (List.mem_cons_of_mem _ hxs)) hv

theorem entries {es : List (Value × Value)} {kt vt : ItemType}
    (hx : ∀ e ∈ es,
      (∀ {w v : Writer}, Pace C w v →
        Spelled C w v (sent () (e.1.write kt) w) (sent () (e.1.write kt) v) (e.1.moments kt w) (e.1.moments kt v)) ∧
      ∀ {w v : Writer}, Pace C w v →
        Spelled C w v (sent () (e.2.write vt) w) (sent () (e.2.write vt) v) (e.2.moments vt w) (e.2.moments vt v))
    (h : Pace C w v) :
    Spelled C w v (sent () (Value.writeEntries kt vt es) w) (sent () (Value.writeEntries kt vt es) v)
      (Value.momentsEntries kt vt es w) (Value.momentsEntries kt vt es v) := by
  induction es generalizing w v with
  | nil => exact stay h _ _
  | cons e es ih =>
    obtain ⟨hk, hv⟩ := hx e List.mem_cons_self
    rw [Value.writeEntries, sent_bind, sent_bind, Value.momentsEntries, Value.momentsEntries]
    refine (hk h).bind fun _ _ _ h₁ => ?_
    rw [sent_bind, sent_bind]
    exact (hv h₁).bind fun _ _ _ h₂ => ih (fun e he => hx e (List.mem_cons_of_mem _ he)) h₂

theorem message (hC : Sized C) (kind : MessageKind) {fields : List Field} (pauses : List Nat)
    (hf : ∀ f ∈ fields, ∀ {w v : Writer}, Pace C w v →
      Spelled C w v (f.write w) (f.write v) (f.moments w) (f.moments v))
    (h : Pace C w v) :
    Spelled C w v ((Message.mk kind fields pauses).write w) ((Message.mk kind fields pauses).write v)
      ((Message.mk kind fields pauses).moments w) ((Message.mk kind fields pauses).moments v) := by
  have hpass : ∀ g {w v : Writer}, Pace C w v → Spelled C w v (passes fields g w) (passes fields g v)
      (passMoments fields g w) (passMoments fields g v) := fun g _ _ hv =>
    (Spelled.fields hC hf 0 g hv).rounds hC (fun g _ _ hv => Spelled.fields hC hf 0 g hv) _
  rw [Message.moments_eq, Message.moments_eq]
  refine cons ?_ rfl rfl
  rw [Message.onward, Message.onward, Message.write_mk, Message.write_mk, (tandem_pace hC).headerWritten h]
  split
  · exact (hpass _ h).map _
  · cases spend pauses.head? with
    | none => exact stay h _ _
    | some grant =>
      have hhead : Spelled C w v (header kind.type w) (header kind.type v) [⟨.put [.of kind.type], w, none⟩]
          [⟨.put [.of kind.type], v, none⟩] := by
        have hput := lays hC (Lays.fixed kind.type Lays.done).alone (Spells.done.fixed (.short kind.type)) () h
        have hmark := hput.bind (f := fun _ v => ⟨.ok true, v.onNesting .markHeader, ()⟩) (g := id) (m := fun _ => [])
          fun _ _ _ hv => (stay (hv.onNesting Nesting.view_markHeader) _ _).onNesting
        have hnone : ∀ u : Sent Unit, u.onward (fun _ => []) = [] := by
          intro u
          unfold Sent.onward
          split <;> rfl
        rwa [hnone, hnone, List.append_nil, List.append_nil] at hmark
      exact hhead.bind fun _ _ _ hv => (hpass grant hv).map _

/-- a field that holds neither a message nor a value puts out its segments and nothing else -/
theorem plain (hC : Sized C) {f : Field} (hf : f.isPlain = true) (h : Pace C w v) :
    Spelled C w v (f.write w) (f.write v) [⟨.put f.segments, w, none⟩] [⟨.put f.segments, v, none⟩] := by
  cases f with
  | data d => exact lays hC (lays_writeDatum d) d.spells _ h
  | absent t => exact lays hC (lays_writeAbsent t) t.spells_absent _ h
  | fixedInt n => exact lays hC (Lays.fixed n Lays.done).alone (Spells.done.fixed (.int n)) _ h
  | fixedLong n => exact lays hC (Lays.fixed n Lays.done).alone (Spells.done.fixed (.long n)) _ h
  | range bs offset len => exact lays hC (lays_writeByteArrayPart bs offset len) (spells_part bs offset len) _ h
  | raw bs => exact lays hC (Lays.put (Nat.le_refl _) Lays.done).alone (Spells.done.bytes bs) _ h
  | object shape p => exact lays hC (fun _ => rfl) (Spells.object p.emission) _ h
  | nothing => exact lays hC (Lays.fixed nullLength Lays.done).alone (Spells.done.fixed (.int nullLength)) _ h
  | message m =>
    cases m with
    | none => exact lays hC (Lays.fixed nullMessageType Lays.done).alone (Spells.done.fixed (.short nullMessageType)) _ h
    | some m => cases hf
  | advance => exact ((stay (h.onNesting Nesting.view_increment) _ _).onNesting).cons rfl rfl
  | markHeader => exact ((stay (h.onNesting Nesting.view_markHeader) _ _).onNesting).cons rfl rfl
  | note | stall | fail => exact (stay h _ _).cons rfl rfl
  | item | items | map | root => cases hf

end Spelled

theorem spelled_step (hC : Sized C) :
    Tree.Step
      (fun m => ∀ {w v : Writer}, Pace C w v → Spelled C w v (m.write w) (m.write v) (m.moments w) (m.moments v))
      (fun f => ∀ {w v : Writer}, Pace C w v → Spelled C w v (f.write w) (f.write v) (f.moments w) (f.moments v))
      fun x => ∀ t, ∀ {w v : Writer}, Pace C w v →
        Spelled C w v (sent () (x.write t) w) (sent () (x.write t) v) (x.moments t w) (x.moments t v) where
  message kind _ pauses hf _ _ h := Spelled.message hC kind pauses hf h
  plain f hf w v h := by
    rw [Field.moments_plain hf, Field.moments_plain hf]
    exact Spelled.plain hC hf h
  item t x hx _ _ h := by
    rw [Field.write_item, Field.write_item, Field.moments, Field.moments]
    exact ((hx t h).map _).cons rfl rfl
  items way t vs hx _ _ h := by
    have hcount := Spelled.lays hC (lays_writeCount way t vs.length) (spells_counted way t vs.length) () h
    rw [Field.write_items, Field.write_items, Field.moments, Field.moments]
    exact ((hcount.bind fun _ _ _ hv => Spelled.values (fun x hxs => hx x hxs t) hv).map _).cons rfl rfl
  map kt vt linked es hx _ _ h := by
    have hcount := Spelled.lays hC (Lays.count es.length Lays.done).alone (Spells.done.count es.length) () h
    rw [Field.write_map, Field.write_map, Field.moments, Field.moments]
    refine ((hcount.bind fun _ _ _ hv => ?_).map _).cons rfl rfl
    exact Spelled.entries (fun e he => ⟨(hx e he).1 kt, (hx e he).2 vt⟩) hv
  nested m hm _ _ h := by
    rw [Field.write, Field.write, Field.moments, Field.moments]
    exact ((hm (h.onNesting Nesting.view_forward)).leave hC).map fun m => Field.message (some m)
  root m hm w v h := by
    have hs := (hm h).settle hC
    rw [Field.write, Field.write, Field.moments, Field.moments]
    exact hs.relay ⟨congrArg (Except.map fun _ => true) hs.abreast.result, rfl, hs.abreast.writer⟩
      (relays_root _ _) (relays_root _ _)
  null t w v h := by
    rw [Value.write, Value.moments, Value.moments]
    split
    · exact Spelled.lays hC (lays_writeAbsent t) t.spells_absent () h
    · exact Spelled.refused h _
  data d t w v h := by
    rw [Value.write, Value.moments, Value.moments]
    split
    · exact Spelled.lays hC (lays_writeDatum d) d.spells () h
    · exact Spelled.refused h _
  inner m hm t w v h := by
    rw [Value.moments, Value.moments]
    by_cases ht : t = .message
    · rw [Value.write_message ht, if_pos ht, if_pos ht]
      exact ((hm (h.onNesting Nesting.view_forward)).leave hC).whole hC m.type
    · rw [Value.write_message_ne ht, if_neg ht, if_neg ht]
      exact Spelled.refused h _

end Writer

/-- **A call puts out the same segments in sessions that keep pace**, each session in its byte order, unless it is
refused. -/
theorem Message.spelled {C : Nat → Nat → Prop} (hC : Sized C) (m : Message) {w v : Writer} (h : Pace C w v) :
    Spelled C w v (m.write w) (m.write v) (m.moments w) (m.moments v) :=
  (spelled_step hC).all.1 m h

theorem Field.spelled {C : Nat → Nat → Prop} (hC : Sized C) (f : Field) {w v : Writer} (h : Pace C w v) :
    Spelled C w v (f.write w) (f.write v) (f.moments w) (f.moments v) :=
  (spelled_step hC).all.2.1 f h

namespace Writer

theorem spelled_root {C : Nat → Nat → Prop} (hC : Sized C) (m : Message) {w v : Writer} (h : Pace C w v) :
    Spelled C w v (w.writeRoot m) (v.writeRoot m) (m.moments w) (m.moments v) :=
  (m.spelled hC h).settle hC

theorem spelled_nested {C : Nat → Nat → Prop} (hC : Sized C) (m : Message) {w v : Writer} (h : Pace C w v) :
    Spelled C w v (w.writeMessage m) (v.writeMessage m) (m.moments (enter w)) (m.moments (enter v)) :=
  (m.spelled hC (h.onNesting Nesting.view_forward)).leave hC

end Writer

end Courier
