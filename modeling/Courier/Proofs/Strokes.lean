import Courier.Proofs.Ancestors
import Courier.Proofs.Workshop

/-!
What a session does to its buffer, stroke by stroke.

A `Stroke` is one of the things that all writing is made of: room asked for, bytes written where there is room for them,
the position moved over bytes that are there, a change of the levels, a refusal marked. `Along` goes from these to what
is made of them: a relation that holds along every layout, every change of the levels and every mark holds along every
field, message and operation, and along every code of a message; `Reached.along` is a first use of it. An operation is
strokes in a row, `Strokes`, each of which is `Lawful`: the position stays within the buffer and is not moved back, what
stood in front of the operation is left alone, and the buffer grows only where room is asked for that it has not got, to
the least power of two that holds what is asked for or to the largest buffer.

A `Piece` is what is written by one of the encoders: `Piece.InRange` puts them on the tail of the buffer that room was
made in, and says that none of them runs off its end.

`buffer_disciplined`: the main result, of every state of a write session.
-/

namespace Courier

open Writer

/-- the least power of two that holds `n` -/
theorem isLeast_powerOfTwoFrom (n : Nat) : IsLeast {q | n ≤ q ∧ ∃ k, q = 2 ^ k} (powerOfTwoFrom n) := by
  refine ⟨⟨le_powerOfTwoFrom n, ?_⟩, ?_⟩
  · unfold powerOfTwoFrom
    split
    · exact ⟨0, rfl⟩
    · exact ⟨_, Nat.one_shiftLeft _⟩
  · rintro q ⟨hq, k, rfl⟩
    unfold powerOfTwoFrom
    split
    · exact Nat.one_le_two_pow
    · rename_i hn
      rw [Nat.one_shiftLeft]
      have hlog : (n - 1).log2 < k := (Nat.log2_lt (by omega)).2 (by omega)
      exact Nat.pow_le_pow_right (by decide) hlog

namespace Writer

variable {α β : Type}

/-! ## Along a call -/

/-- a relation that holds along whatever touches no level, along changes of the levels and along marks -/
structure Along (R : Writer → Writer → Prop) : Prop where
  refl : ∀ u, R u u
  trans : ∀ {u v w}, R u v → R v w → R u w
  act : ∀ (l : Layout) u, R u (after (l.run u))
  onNesting : ∀ (f : Nesting → Nesting) u, R u (u.onNesting f)
  mark : ∀ u : Writer, R u { u with failed := true }

namespace Along

variable {R : Writer → Writer → Prop} {u : Writer}

theorem sent (h : Along R) {act : Writing Unit} {l : ByteOrder → Layout} (ha : Lays act l) (left : α) (u : Writer) :
    R u (sent left act u).writer := by
  have hact : (Writer.sent left act u).writer = after (act u) := by
    unfold Writer.sent
    cases act u <;> rfl
  rw [hact, ha u]
  exact h.act (l u.order) u

theorem bind (h : Along R) {s : Sent α} (hs : R u s.writer) {next : α → Writer → Sent β} {stop : α → β}
    (hn : ∀ a v, R v (next a v).writer) : R u (s.bind next stop).writer := by
  unfold Sent.bind
  split
  · exact h.trans hs (hn s.left s.writer)
  · exact hs

theorem onto (h : Along R) {s : Sent α} (hs : R u s.writer) {next : Except WireError Bool → Writer → Sent Unit}
    (hn : ∀ r v, R v (next r v).writer) : R u (s.onto next).writer := by
  unfold Sent.onto
  rcases s.result with (e | _) | b
  · exact h.trans hs (hn _ _)
  · exact hs
  · exact h.trans hs (hn _ _)

theorem leave (h : Along R) {s : Sent α} (hs : R u s.writer) : R u (leave s).writer := by
  obtain ⟨result, v, left⟩ := s
  have hup : ∀ b, R u (v.onNesting (·.retreat b)) := fun b => h.trans hs (h.onNesting _ v)
  rcases result with (e | _) | b <;> unfold Writer.leave <;> dsimp only <;> split
  all_goals first
    | exact hs
    | exact hup _
    | exact h.trans (hup _) (h.mark _)

theorem settle (h : Along R) {s : Sent α} (hs : R u s.writer) : R u (settle s).writer := by
  rw [settle_eq]
  split
  · split
    · exact h.trans hs (h.onNesting .wipe s.writer)
    · exact hs
  · exact h.trans hs (h.mark s.writer)
  · exact hs

theorem whole (h : Along R) {s : Sent α} (hs : R u s.writer) (type : Int16) (v : Writer) :
    R u (Writer.sent () (fun _ => whole type s) v).writer := by
  rcases hr : s.result with f | (_ | _) <;> simp only [Writer.sent, Writer.whole, hr]
  · exact hs
  · exact h.trans hs (h.mark s.writer)
  · exact hs

theorem rounds (h : Along R) {n : Nat} {pass : Grant → Writer → Sent (Grant × α)} (hp : ∀ g v, R v (pass g v).writer)
    (k : Nat) {s : Sent (Grant × α)} (hs : R u s.writer) : R u (rounds n pass k s).writer := by
  induction k generalizing s with
  | zero =>
    unfold Writer.rounds
    split
    · split <;> exact hs
    · exact hs
  | succ k ih =>
    unfold Writer.rounds
    split
    · split
      · exact ih (h.trans hs (hp s.left.1 s.writer))
      · exact hs
    · exact hs

theorem fields (h : Along R) {fs : List Field} (hf : ∀ f ∈ fs, ∀ u, R u (f.write u).writer) (k : Nat) (grant : Grant)
    (u : Writer) : R u (Field.writeAll k grant fs u).writer := by
  induction fs generalizing k grant u with
  | nil => exact h.refl u
  | cons f fs ih =>
    have hrest := ih fun f hm => hf f (List.mem_cons_of_mem _ hm)
    rw [Field.writeAll_cons]
    split
    · cases spend grant with
      | none => exact h.refl u
      | some grant =>
        exact h.bind (hf f List.mem_cons_self u) fun f v => h.trans (h.onNesting .increment v) (hrest (k + 1) grant _)
    · exact hrest (k + 1) grant u

theorem message (h : Along R) (kind : MessageKind) {fields : List Field} (pauses : List Nat)
    (hf : ∀ f ∈ fields, ∀ u, R u (f.write u).writer) (u : Writer) :
    R u ((Message.mk kind fields pauses).write u).writer := by
  have hpass : ∀ g v, R v (passes fields g v).writer := fun g v =>
    h.rounds (fun g v => h.fields hf 0 g v) g.rounds (h.fields hf 0 g v)
  rw [Message.write_mk]
  split
  · exact hpass _ u
  · cases spend pauses.head? with
    | none => exact h.refl u
    | some grant =>
      have hheader : R u (header kind.type u).writer :=
        h.bind (h.sent (Lays.fixed kind.type Lays.done).alone () u) fun _ v => h.onNesting .markHeader v
      exact h.bind hheader fun _ v => hpass grant v

theorem plain (h : Along R) {f : Field} (hf : f.isPlain = true) (u : Writer) : R u (f.write u).writer := by
  cases f with
  | data d => exact h.sent (lays_writeDatum d) _ u
  | absent t => exact h.sent (lays_writeAbsent t) _ u
  | fixedInt v => exact h.sent (Lays.fixed v Lays.done).alone _ u
  | fixedLong v => exact h.sent (Lays.fixed v Lays.done).alone _ u
  | range bs offset len => exact h.sent (lays_writeByteArrayPart bs offset len) _ u
  | raw bs => exact h.sent (Lays.put (Nat.le_refl _) Lays.done).alone _ u
  | object shape p => exact h.sent (l := fun _ => .object p.emission) (fun _ => rfl) _ u
  | nothing => exact h.sent (Lays.fixed nullLength Lays.done).alone _ u
  | message m =>
    cases m with
    | none => exact h.sent (Lays.fixed nullMessageType Lays.done).alone _ u
    | some m => cases hf
  | note | stall | fail => exact h.refl u
  | advance => exact h.onNesting .increment u
  | markHeader => exact h.onNesting .markHeader u
  | _ => cases hf

theorem values (h : Along R) {vs : List Value} (hv : ∀ v ∈ vs, ∀ t u, R u (Writer.sent () (v.write t) u).writer)
    (t : ItemType) (u : Writer) : R u (Writer.sent () (Value.writeAll t vs) u).writer := by
  induction vs generalizing u with
  | nil => exact h.refl u
  | cons v vs ih =>
    rw [Value.writeAll, sent_bind]
    exact h.bind (hv v List.mem_cons_self t u) fun _ x => ih (fun v hm => hv v (List.mem_cons_of_mem _ hm)) x

theorem entries (h : Along R) {es : List (Value × Value)}
    (hv : ∀ e ∈ es, (∀ t u, R u (Writer.sent () (e.1.write t) u).writer) ∧
      ∀ t u, R u (Writer.sent () (e.2.write t) u).writer)
    (kt vt : ItemType) (u : Writer) : R u (Writer.sent () (Value.writeEntries kt vt es) u).writer := by
  induction es generalizing u with
  | nil => exact h.refl u
  | cons e es ih =>
    obtain ⟨hk, hw⟩ := hv e List.mem_cons_self
    rw [Value.writeEntries, sent_bind]
    refine h.bind (hk kt u) fun _ x => ?_
    rw [sent_bind]
    exact h.bind (hw vt x) fun _ y => ih (fun e hm => hv e (List.mem_cons_of_mem _ hm)) y

theorem step (h : Along R) :
    Tree.Step (fun m => ∀ u, R u (m.write u).writer) (fun f => ∀ u, R u (f.write u).writer)
      fun v => ∀ t u, R u (Writer.sent () (v.write t) u).writer where
  message kind _ pauses hf u := h.message kind pauses hf u
  plain _ hf u := h.plain hf u
  item t v hv u := by
    rw [Field.write_item]
    exact hv t u
  items way t vs hv u := by
    rw [Field.write_items]
    exact h.bind (h.sent (lays_writeCount way t vs.length) () u) fun _ x => h.values hv t x
  map kt vt _ es hv u := by
    rw [Field.write_map]
    exact h.bind (h.sent (Lays.count es.length Lays.done).alone () u) fun _ x => h.entries hv kt vt x
  nested m hm u := h.leave (h.trans (h.onNesting .forward u) (hm (enter u)))
  root m hm u := h.settle (hm u)
  null t u := by
    rw [Value.write]
    split
    · exact h.sent (lays_writeAbsent t) () u
    · exact h.sent (l := fun _ => .refuse _) (fun _ => rfl) () u
  data d t u := by
    rw [Value.write]
    split
    · exact h.sent (lays_writeDatum d) () u
    · exact h.sent (l := fun _ => .refuse _) (fun _ => rfl) () u
  inner m hm t u := by
    by_cases ht : t = .message
    · rw [Value.write_message ht]
      exact h.whole (h.leave (h.trans (h.onNesting .forward u) (hm (enter u)))) m.type u
    · rw [Value.write_message_ne ht]
      exact h.sent (l := fun _ => .refuse _) (fun _ => rfl) () u

/-- **What holds along the parts of a call holds along every operation.** -/
theorem op (h : Along R) (op : WriteOp) (u : Writer) : R u (op.run u).2 := by
  cases op with
  | field f =>
    unfold WriteOp.run
    dsimp only
    split <;> exact h.step.all.2.1 _ u
  | root m => exact h.settle (h.step.all.1 m u)
  | debug => exact h.refl u

theorem code (h : Along R) (c : WriteCode) (u : Writer) : R u (c.run u).writer := by
  induction c generalizing u with
  | finish r => exact h.refl u
  | act l next ih => exact h.onto (h.sent (l := fun _ => l) (fun _ => rfl) () u) fun r v => ih r v v
  | field f next ih => exact h.onto (h.step.all.2.1 f u) fun r v => ih r v v
  | nested body next ihBody ih =>
    exact h.onto (h.leave (h.trans (h.onNesting .forward u) (ihBody (enter u)))) fun r v => ih r v v
  | root body next ihBody ih => exact h.onto (h.settle (ihBody u)) fun r v => ih r v v

end Along

/-- the states of a session are never left -/
theorem Reached.along : Along fun u v => u.Reached → v.Reached where
  refl _ hu := hu
  trans h k hu := k (h hu)
  act l _ hu := hu.act l
  onNesting f _ hu := hu.onNesting f
  mark _ hu := hu.failed

/-- **A code stays in the states of a session.** -/
theorem Reached.code {w : Writer} (h : w.Reached) (c : WriteCode) : (c.run w).writer.Reached :=
  Reached.along.code c w h

/-! ## Strokes -/

/-- one of the things that writing is made of, in an operation that began at `start` -/
inductive Stroke (start : Nat) (u : Writer) : Writer → Prop
  /-- room asked for, be it had or refused -/
  | reserve (n : Nat) : Stroke start u (after (reserve n u))
  /-- bytes written where there is room for them -/
  | splice {off : Nat} {bs : Bytes} (behind : start ≤ off) (room : off + bs.length ≤ u.capacity) :
    Stroke start u (after (splice off bs u))
  /-- the position moved over bytes that are there -/
  | advance {n : Nat} (room : u.position + n ≤ u.capacity) : Stroke start u (after (advance n u))
  | onNesting (f : Nesting → Nesting) : Stroke start u (u.onNesting f)
  | mark : Stroke start u { u with failed := true }

/-- strokes in a row -/
def Strokes (start : Nat) : Writer → Writer → Prop :=
  Relation.ReflTransGen (Stroke start)

/-- what the strokes of an operation keep to, from one moment of it to a later one -/
structure Kept (start : Nat) (u v : Writer) : Prop where
  inside : v.position ≤ v.capacity
  position_le : u.position ≤ v.position
  capacity_le : u.capacity ≤ v.capacity
  /-- what stood in front of the operation stands there still -/
  front : v.scratch.bytes.take start = u.scratch.bytes.take start

/-- what a single stroke keeps to -/
structure Lawful (start : Nat) (u v : Writer) : Prop extends Kept start u v where
  /-- the buffer grows where room is asked for that it has not got, to the least power of two that holds what is asked
  for or to the largest buffer -/
  growth : u.capacity ≠ v.capacity → ∃ n p, v = after (Writer.reserve n u) ∧ u.capacity < u.position + n ∧
    IsLeast {q | u.position + n ≤ q ∧ ∃ k, q = 2 ^ k} p ∧ v.capacity = min p maxBufferSize ∧
    u.position + n ≤ v.capacity

/-- an operation that began at `start` is under way -/
structure Open (start : Nat) (u : Writer) : Prop where
  inside : u.Inside
  start_le : start ≤ u.position

theorem Open.kept {start : Nat} {u v : Writer} (hu : Open start u) (h : Kept start u v) : Open start v :=
  ⟨h.inside, Nat.le_trans hu.start_le h.position_le⟩

/-- a stroke that leaves the position and the buffer alone -/
theorem Open.lawful {start : Nat} {u v : Writer} (hu : Open start u) (hp : v.position = u.position)
    (hs : v.scratch = u.scratch) : Lawful start u v := by
  have hc : v.capacity = u.capacity := congrArg Scratch.capacity hs
  have hin : u.position ≤ u.capacity := hu.inside
  exact ⟨⟨by omega, Nat.le_of_eq hp.symm, Nat.le_of_eq hc.symm, by rw [hs]⟩, fun h => absurd hc.symm h⟩

theorem lawful_reserve {start : Nat} {u : Writer} (hu : Open start u) (n : Nat) :
    Lawful start u (after (Writer.reserve n u)) := by
  have hres := u.reserve_eq n
  by_cases hf : u.Fits n
  · rw [if_pos hf] at hres
    have hk := keeps_grow hu.inside n
    have hfront : (u.grow n).scratch.bytes.take start = u.scratch.bytes.take start := by
      have h := congrArg (List.take start) hk.front
      rwa [written, List.take_take, List.take_take, Nat.min_eq_left hu.start_le] at h
    rw [hres]
    refine ⟨⟨hk.inside, hk.position_le, hk.capacity_le, hfront⟩, fun hne => ?_⟩
    have hc : u.capacity < u.position + n := by
      by_contra hc
      exact hne (by rw [after, grow, if_pos (Nat.le_of_not_lt hc)])
    have hn : u.position + n ≤ maxBufferSize := by
      unfold Fits at hf
      omega
    have hp := (isLeast_powerOfTwoFrom (u.position + n)).1.1
    have hsize : (u.grow n).capacity = min (powerOfTwoFrom (u.position + n)) maxBufferSize := by
      rw [grow, if_neg (by omega)]
      exact Nat.max_eq_right (by simp only [capacity] at hc; omega)
    exact ⟨n, _, by rw [hres], hc, isLeast_powerOfTwoFrom _, hsize, le_capacity_grow hf⟩
  · rw [hres, if_neg hf]
    exact hu.lawful rfl rfl

/-- **Every stroke is lawful.** -/
theorem Stroke.lawful {start : Nat} {u v : Writer} (h : Stroke start u v) (hu : Open start u) : Lawful start u v := by
  cases h with
  | reserve n => exact lawful_reserve hu n
  | splice behind room =>
    rw [Writer.splice, if_pos room]
    exact ⟨⟨hu.inside, Nat.le_refl _, Nat.le_refl _, u.scratch.take_overwrite room behind⟩, fun h => absurd rfl h⟩
  | advance room => exact ⟨⟨room, Nat.le_add_right .., Nat.le_refl _, rfl⟩, fun h => absurd rfl h⟩
  | onNesting f => exact hu.lawful rfl rfl
  | mark => exact hu.lawful rfl rfl

/-- **Strokes in a row keep to what each of them keeps to.** -/
theorem Strokes.kept {start : Nat} {u v : Writer} (h : Strokes start u v) (hu : Open start u) : Kept start u v := by
  induction h with
  | refl => exact ⟨hu.inside, Nat.le_refl _, Nat.le_refl _, rfl⟩
  | tail _ hs ih =>
    have hl := hs.lawful (hu.kept ih)
    exact ⟨hl.inside, Nat.le_trans ih.position_le hl.position_le, Nat.le_trans ih.capacity_le hl.capacity_le,
      hl.front.trans ih.front⟩

theorem Strokes.open {start : Nat} {u v : Writer} (h : Strokes start u v) (hu : Open start u) : Open start v :=
  hu.kept (h.kept hu)

namespace Strokes

variable {start : Nat} {u v : Writer}

theorem trans {w : Writer} (h : Strokes start u v) (k : Strokes start v w) : Strokes start u w :=
  Relation.ReflTransGen.trans h k

theorem grow {n : Nat} (h : u.Fits n) : Strokes start u (u.grow n) := by
  have hs : Stroke start u (after (Writer.reserve n u)) := .reserve n
  rw [reserve_eq, if_pos h] at hs
  exact .single hs

theorem append {bs : Bytes} (hstart : start ≤ u.position) (h : u.position + bs.length ≤ u.capacity) :
    Strokes start u (u.append bs) := by
  have hs : Stroke start u (after (Writer.splice u.position bs u)) := .splice hstart h
  rw [Writer.splice, if_pos h] at hs
  exact (Relation.ReflTransGen.single hs).tail (.advance h)

theorem put (hu : Open start u) {room : Nat} {bs : Bytes} (h : bs.length ≤ room) :
    Strokes start u (after (Writer.put room bs u)) := by
  rw [put_eq u h]
  by_cases hf : u.Fits room
  · rw [if_pos hf]
    have hfit : (u.grow room).position + bs.length ≤ (u.grow room).capacity := by
      rw [position_grow]
      exact Nat.le_trans (Nat.add_le_add_left h _) (le_capacity_grow hf)
    have hstart : start ≤ (u.grow room).position := by
      rw [position_grow]
      exact hu.start_le
    exact (grow hf).trans (append hstart hfit)
  · rw [if_neg hf]
    exact .single .mark

/-- pieces of output, one behind the other -/
theorem putPieces (ps : List Bytes) (hu : Open start u) : Strokes start u (after (Writer.putPieces ps u)) := by
  induction ps generalizing u with
  | nil => exact .refl
  | cons p ps ih =>
    have hp : Strokes start u (after (putBytes p u)) := .put hu (Nat.le_refl _)
    rw [Writer.putPieces, bind_eq]
    rcases hx : putBytes p u with ⟨_, v⟩ | ⟨f, v⟩ <;> rw [hx] at hp
    · exact hp.trans (ih (hp.open hu))
    · exact hp

/-- the size of an object goes where room was left for it -/
theorem fillSize {off : Nat} (h : start ≤ off) (hroom : off + lengthPrefixSize ≤ u.capacity) :
    Strokes start u (after (Writer.fillSize off u)) := by
  unfold Writer.fillSize
  cases encodeLength (u.position - off - lengthPrefixSize) with
  | error e => exact .single .mark
  | ok size =>
    refine .single (.splice h ?_)
    rw [Fixed.length_bytes]
    exact hroom

theorem writeEmission (e : Emission) (hu : Open start u) : Strokes start u (after (Writer.writeEmission e u)) := by
  rw [writeEmission_eq, reserve_eq]
  by_cases hf : u.Fits lengthPrefixSize
  · rw [if_pos hf]
    dsimp only
    have hp := u.position_grow lengthPrefixSize
    have hfit : (u.grow lengthPrefixSize).position + lengthPrefixSize ≤ (u.grow lengthPrefixSize).capacity := by
      rw [hp]
      exact le_capacity_grow hf
    -- room is left for the size, and the pieces are put behind it
    have hmoved : Strokes start u _ := Relation.ReflTransGen.tail (grow hf) (.advance hfit)
    have hpieces : Strokes start _ _ := putPieces e.pieces (hmoved.open hu)
    have hkept := hpieces.kept (hmoved.open hu)
    have hall := hmoved.trans hpieces
    simp only [Writer.advance, after] at hall hkept
    generalize Writer.putPieces e.pieces _ = x at hall hkept
    have hroom : u.position + lengthPrefixSize ≤ (after x).capacity := by
      rw [← hp]
      exact Nat.le_trans hkept.position_le hkept.inside
    rcases x with ⟨_, v⟩ | ⟨err | _, v⟩
    · dsimp only
      split
      · exact hall.trans (fillSize hu.start_le hroom)
      · exact hall.tail .mark
    · exact hall
    · exact hall
  · rw [if_neg hf]
    exact .single .mark

/-- whatever touches no level is strokes in a row -/
theorem layout (l : Layout) (hu : Open start u) : Strokes start u (after (l.run u)) := by
  induction l generalizing u with
  | done => exact .refl
  | refuse e => exact .single .mark
  | reserve room next ih =>
    have hr : Strokes start u (after (Writer.reserve room u)) := .single (.reserve room)
    rw [Layout.run, bind_eq]
    rcases hx : Writer.reserve room u with ⟨_, v⟩ | ⟨f, v⟩ <;> rw [hx] at hr
    · exact hr.trans (ih (hr.open hu))
    · exact hr
  | put room bs fits next ih =>
    have hp : Strokes start u (after (Writer.put room bs u)) := .put hu fits
    rw [Layout.run, bind_eq]
    rcases hx : Writer.put room bs u with ⟨_, v⟩ | ⟨f, v⟩ <;> rw [hx] at hp
    · exact hp.trans (ih (hp.open hu))
    · exact hp
  | object e => exact writeEmission e hu

/-- strokes hold along every call -/
theorem along (start : Nat) : Along fun u v => Open start u → Strokes start u v where
  refl _ _ := .refl
  trans h k hu := (h hu).trans (k ((h hu).open hu))
  act l _ hu := layout l hu
  onNesting f _ _ := .single (.onNesting f)
  mark _ _ := .single .mark

end Strokes

/-! ## Encoders on the tail of the buffer -/

/-- what one of the encoders writes -/
inductive Piece where
  | bytes (bs : Bytes)
  | fixed (α : Type) [Fixed α] (v : α)
  | array (α : Type) [Fixed α] (vs : List α)
  | int (v : Int32)
  | long (v : Int64)
  | booleans (vs : List Bool)

namespace Piece

/-- the room that is made for a piece -/
def room : Piece → Nat
  | bytes bs => bs.length
  | fixed α _ => Fixed.size α
  | array α vs => vs.length * Fixed.size α
  | int _ => maxVarint32
  | long _ => maxVarint64
  | booleans vs => vs.length

/-- the bytes of a piece -/
def out (swap : Bool) : Piece → Bytes
  | bytes bs => bs
  | fixed _ v => Fixed.bytes swap v
  | array _ vs => Fixed.run swap vs
  | int v => Varint.encode32 v
  | long v => Varint.encode64 v
  | booleans vs => boolBytes vs

/-- what its encoder makes of the tail of the buffer; nothing where it would run off the end -/
def encode (swap : Bool) (tail : Bytes) : Piece → Option Bytes
  | bytes bs => tail.overwrite 0 bs
  | fixed _ v => Fixed.writeFixed tail v swap
  | array _ vs => (Fixed.encodeSlice vs tail swap).map Prod.fst
  | int v => Varint.write32 tail v
  | long v => Varint.write64 tail v
  | booleans vs => some (encodeBools vs tail).1

/-- the session that writes a piece: room is made, the piece is written, and the position moves behind it -/
def act : Piece → Writing Unit
  | bytes bs => putBytes bs
  | fixed _ v => putFixed v
  | array α vs => do
    let w ← get
    put (vs.length * Fixed.size α) (Fixed.run w.order.swap vs)
  | int v => writeInt v
  | long v => writeLong v
  | booleans vs => put vs.length (boolBytes vs)

/-- where room is had, the encoder does not run off the tail of the buffer, and what it makes of it is what the session
holds behind the write; where room is refused, that is the end of it -/
structure InRange (p : Piece) (w : Writer) : Prop where
  had : ∀ pos u, reserve p.room w = .ok pos u → pos ≤ u.capacity ∧ ∃ tail v,
    p.encode u.order.swap (u.scratch.bytes.drop pos) = some tail ∧ p.act w = .ok () v ∧
    v.scratch.bytes = u.scratch.bytes.take pos ++ tail ∧ v.position ≤ v.capacity
  refused : ∀ f u, reserve p.room w = .error f u → p.act w = .error f u

theorem act_eq (p : Piece) (w : Writer) : p.act w = put p.room (p.out w.order.swap) w := by
  cases p <;> rfl

theorem length_out_le (p : Piece) (swap : Bool) : (p.out swap).length ≤ p.room := by
  cases p with
  | bytes bs => exact Nat.le_refl _
  | fixed α v => exact Nat.le_of_eq (Fixed.length_bytes ..)
  | array α vs => exact Nat.le_of_eq (Fixed.length_run ..)
  | int v | long v => exact Varint.length_groups_le ..
  | booleans vs => exact Nat.le_of_eq (List.length_map ..)

/-- **No encoder runs off a tail that the room of its piece was made in.** -/
theorem encode_eq (p : Piece) (swap : Bool) {tail : Bytes} (h : p.room ≤ tail.length) :
    p.encode swap tail = some (p.out swap ++ tail.drop (p.out swap).length) := by
  have hover : tail.overwrite 0 (p.out swap) = some (p.out swap ++ tail.drop (p.out swap).length) := by
    rw [Bytes.overwrite, Nat.zero_add, if_pos (Nat.le_trans (p.length_out_le swap) h), List.take_zero, List.nil_append]
  cases p with
  | bytes | fixed | int | long => exact hover
  | array α vs =>
    change ((tail.overwrite 0 (Fixed.run swap vs)).map _).map Prod.fst = _
    rw [Option.map_map]
    change (tail.overwrite 0 (Fixed.run swap vs)).map id = _
    rw [Option.map_id]
    exact hover
  | booleans vs =>
    have hl : (boolBytes vs).length = vs.length := List.length_map ..
    rw [encode, encodeBools_eq vs tail h, out, hl]

theorem inRange (p : Piece) {w : Writer} (hw : w.Inside) : p.InRange w := by
  have hle := p.length_out_le w.order.swap
  refine ⟨fun pos u h => ?_, fun f u h => ?_⟩
  · rw [reserve_eq] at h
    split at h
    · rename_i hf
      obtain ⟨rfl, rfl⟩ := EStateM.Result.ok.inj h
      have hroom := le_capacity_grow hf
      have hpos := w.position_grow p.room
      have horder : (w.grow p.room).order = w.order := (keeps_grow hw p.room).order
      have hfit : (w.grow p.room).position + (p.out w.order.swap).length ≤ (w.grow p.room).capacity := by omega
      have htail : p.room ≤ ((w.grow p.room).scratch.bytes.drop w.position).length := by
        rw [List.length_drop, Scratch.length_bytes]
        simp only [capacity] at hroom
        omega
      refine ⟨by omega, _, (w.grow p.room).append (p.out w.order.swap), p.encode_eq _ htail, ?_, ?_, hfit⟩
      · rw [p.act_eq, put_eq w hle, if_pos hf]
      · rw [horder, List.drop_drop, ← List.append_assoc, ← hpos]
        exact Scratch.bytes_overwrite_eq _ hfit
    · cases h
  · rw [reserve_eq] at h
    split at h
    · cases h
    · rename_i hf
      rw [p.act_eq, put_eq w hle, if_neg hf, crowded]
      injection h with hfault hu
      rw [← hfault, ← hu]

end Piece

/-! ## The main result -/

/-- what holds of a session and its buffer, whatever is written next -/
structure Discipline (w : Writer) : Prop where
  /-- the position lies within the buffer -/
  inside : w.position ≤ w.capacity
  /-- an operation is strokes in a row -/
  operation : ∀ op : WriteOp, Strokes w.position w (op.run w).2
  /-- and so is the code of a message -/
  code : ∀ c : WriteCode, Strokes w.position w (c.run w).writer
  /-- every stroke on the way is lawful -/
  lawful : ∀ u v, Strokes w.position w u → Stroke w.position u v → Lawful w.position u v
  /-- and so the rules hold from the start of the operation to every moment of it -/
  kept : ∀ v, Strokes w.position w v → Kept w.position w v
  /-- an operation that stops does so on account of the levels, which its dispatch tells without any buffer -/
  stops : ∀ op : WriteOp, (op.run w).1 = none → (op.dispatch w.order w.nesting.view).result = .error .panic
  /-- room that is refused leaves the position and the buffer alone -/
  refused : ∀ n f u, reserve n w = .error f u →
    (∃ r, f = .error (.capacityOverflow r)) ∧ u.position = w.position ∧ u.scratch = w.scratch
  /-- no encoder runs off the tail of the buffer -/
  pieces : ∀ p : Piece, p.InRange w
  /-- the front of the buffer is there to be handed over when the session is closed -/
  close : w.scratch.take? w.position = some w.written ∧ ∀ b : Bench, b.closeWrite w ≠ none

/-- an operation that stops is one whose dispatch stops -/
theorem dispatch_of_stop {op : WriteOp} {w : Writer} (hw : w.Inside) (h : (op.run w).1 = none) :
    (op.dispatch w.order w.nesting.view).result = .error .panic := by
  by_contra hd
  cases op with
  | field f =>
    have hr := (f.carries hw).returns hd
    unfold WriteOp.run at h
    dsimp only at h
    rcases hx : (f.write w).result with (e | _) | b
    · cases f <;> simp [hx, WriteReply.ofCall, WriteReply.ofAct] at h
    · exact hr hx
    · cases f <;> simp [hx, WriteReply.ofCall, WriteReply.ofAct] at h
  | root m =>
    have hr := (carries_writeRoot m hw).returns hd
    unfold WriteOp.run at h
    rcases hx : (w.writeRoot m).result with (e | _) | b
    · simp [hx, WriteReply.ofCall] at h
    · exact hr hx
    · simp [hx, WriteReply.ofCall] at h
  | debug => cases h

/-- **The discipline of the buffer.** In every state of a write session, whatever is written next is done in strokes:
room is asked for, bytes are written where there is room for them, the position moves over bytes that are there. The
position stays within the buffer and never moves back; the buffer never shrinks, and where it grows, that is for room it
has not got, to the least power of two that holds the bytes asked for or to the largest buffer. What stood in front of
the operation stands there still. Room that is refused leaves the position and the buffer as they were. No encoder runs
off the tail it is given, the size of an object is filled in within the buffer, and a session can always be closed: where
an operation stops at all, the levels are the reason. -/
theorem buffer_disciplined {w : Writer} (hw : w.Reached) : Discipline w := by
  have hin := hw.within.1
  have hopen : Open w.position w := ⟨hin, Nat.le_refl _⟩
  refine ⟨hin, fun op => (Strokes.along _).op op w hopen, fun c => (Strokes.along _).code c w hopen,
    fun u v hu hs => hs.lawful (hu.open hopen), fun v hv => hv.kept hopen, fun op => dispatch_of_stop hin,
    fun n f u h => ?_, fun p => p.inRange hin, ?_, fun b => ?_⟩
  · rw [reserve_eq] at h
    split at h
    · cases h
    · injection h with hfault hu
      rw [← hfault, ← hu]
      exact ⟨⟨_, rfl⟩, rfl, rfl⟩
  · have hc : w.position ≤ w.scratch.capacity := hin
    rw [Scratch.take?, if_pos hc, Scratch.front_eq_take]
    rfl
  · rw [Bench.closeWrite_eq b hin]
    exact Option.some_ne_none _

/-- a buffer of one byte that grows for a long, and what was written before it -/
theorem long_written_in_strokes :
    ∃ w, snugWriter = some w ∧ w.capacity = 1 ∧ ((WriteOp.field (.data (.long 300))).run w).2.capacity = 16 ∧
      Strokes 1 w ((WriteOp.field (.data (.long 300))).run w).2 ∧
      ((WriteOp.field (.data (.long 300))).run w).2.scratch.bytes.take 1 = [9] := by
  have hshape : snugWriter.map (fun w => (w.position, w.capacity, w.scratch.bytes.take 1,
      ((WriteOp.field (.data (.long 300))).run w).2.capacity)) = some (1, 1, [9], 16) := by decide +kernel
  obtain ⟨w, hw, hshape⟩ := Option.map_eq_some_iff.1 hshape
  obtain ⟨hposition, hcapacity, hfront, hgrown⟩ : _ ∧ _ ∧ _ ∧ _ := by simpa only [Prod.mk.injEq] using hshape
  have hd := buffer_disciplined (reached_snugWriter hw)
  have hstrokes := hd.operation (.field (.data (.long 300)))
  have hkept := (hd.kept _ hstrokes).front
  rw [hposition] at hstrokes hkept
  exact ⟨w, hw, hcapacity, hgrown, hstrokes, hkept.trans hfront⟩

end Writer

end Courier
