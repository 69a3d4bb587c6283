import Courier.Proofs.Groups
import Courier.Proofs.LevelsUnread
import Courier.Proofs.Opaque

/-!
An object does not reach the reads behind it.

No read looks at bytes that have been passed: on frames that show the same from their common position on, each read
comes to the same. `Onward` says so of an act, and `onward_field` of every field. Since a session goes on right behind
an object with the limit that it had, the reads behind it do not depend on what the object held or on what its decoder
made of that.

`object_fenced`: the main result, of every session and every decoder.
-/

namespace Courier

/-- frames that show the same from their common position on, whatever has been passed -/
structure Frame.Ahead (f g : Frame) : Prop where
  position : g.position = f.position
  limit : g.limit = f.limit
  size : g.size = f.size
  extent : g.extent = f.extent
  rest : g.data.drop f.position = f.data.drop f.position

namespace Frame.Ahead

variable {f g : Frame}

theorem cut (h : f.Ahead g) (n : Nat) : g.cut n = f.cut n := by
  rw [cut_eq, cut_eq, h.position, h.rest]

theorem available (h : f.Ahead g) : g.available = f.available := by
  simp only [Frame.available, h.position, h.limit, h.extent]

theorem peek (h : f.Ahead g) (n : Nat) : g.peek n = f.peek n := by
  rw [Frame.peek, Frame.peek, h.available, h.cut]

theorem readable (h : f.Ahead g) : g.readable = f.readable := by
  rw [Frame.readable, Frame.readable, h.position, h.rest, h.available]

theorem slice? (h : f.Ahead g) (n : Nat) : g.slice? n = f.slice? n := by
  rw [Frame.slice?, Frame.slice?, h.position, h.extent, h.cut]

theorem remaining (h : f.Ahead g) : g.remaining = f.remaining := by
  rw [Frame.remaining, Frame.remaining, h.limit, h.position]

theorem underflow (h : f.Ahead g) (n : Nat) : g.underflow n = f.underflow n := by
  rw [Frame.underflow, Frame.underflow, h.position, h.limit]

theorem locate (h : f.Ahead g) (e : WireError) : g.locate e = f.locate e := by
  cases e with
  | bufferUnderflow p n l => exact h.underflow n
  | _ => rfl

/-- what is ahead of a position is ahead of a later one -/
theorem onward (h : f.Ahead g) (n : Nat) :
    (f.setPosition (f.position + n)).Ahead (g.setPosition (g.position + n)) := by
  refine ⟨by rw [h.position]; rfl, h.limit, h.size, h.extent, ?_⟩
  change g.data.drop (f.position + n) = f.data.drop (f.position + n)
  rw [← List.drop_drop, ← List.drop_drop, h.rest]

end Frame.Ahead

namespace Reader

variable {α β γ : Type}

/-- sessions over such frames that differ in nothing else -/
structure Ahead (r s : Reader) : Prop where
  frame : r.frame.Ahead s.frame
  nesting : s.nesting = r.nesting
  factory : s.factory = r.factory
  order : s.order = r.order
  maxLength : s.maxLength = r.maxLength

/-- acts on such sessions that come to the same -/
inductive Together : EStateM.Result Fault Reader α → EStateM.Result Fault Reader α → Prop
  | ok (a : α) {r s : Reader} (h : Ahead r s) : Together (.ok a r) (.ok a s)
  | error (f : Fault) {r s : Reader} (h : Ahead r s) : Together (.error f r) (.error f s)

/-- an act that does not look at what has been passed, and does not go back -/
def Onward (act : Reading α) : Prop :=
  ∀ r s, Ahead r s → Together (act r) (act s)

namespace Ahead

variable {r s : Reader}

theorem position (h : Ahead r s) : s.position = r.position :=
  h.frame.position

theorem remaining (h : Ahead r s) : s.remaining = r.remaining :=
  h.frame.remaining

theorem depth (h : Ahead r s) : s.depth = r.depth :=
  congrArg Nesting.depth h.nesting

theorem debugText (h : Ahead r s) : s.debugText = r.debugText := by
  unfold Reader.debugText
  simp only [h.position, h.frame.limit, h.depth, h.order]

theorem advance (h : Ahead r s) (n : Nat) : Ahead (r.advance n) (s.advance n) :=
  ⟨h.frame.onward n, h.nesting, h.factory, h.order, h.maxLength⟩

theorem onNesting (h : Ahead r s) (f : Nesting → Nesting) : Ahead (r.onNesting f) (s.onNesting f) :=
  ⟨h.frame, congrArg f h.nesting, h.factory, h.order, h.maxLength⟩

end Ahead

namespace Onward

theorem pure (a : α) : Onward (Pure.pure a : Reading α) :=
  fun _ _ h => .ok a h

theorem refuse (e : WireError) : Onward (Reader.refuse e : Reading α) :=
  fun _ _ h => .error _ h

theorem panic : Onward (throw .panic : Reading α) :=
  fun _ _ h => .error _ h

theorem bind {act : Reading α} {next : α → Reading β} (h : Onward act) (hn : ∀ a, Onward (next a)) :
    Onward (act >>= next) := by
  intro r s hrs
  rw [bind_eq, bind_eq]
  have key := h r s hrs
  generalize act r = x at key
  generalize act s = y at key
  rcases key with ⟨a, h⟩ | ⟨f, h⟩
  · exact hn a _ _ h
  · exact .error f h

/-- an act that asks for anything but what has been passed -/
theorem ask {next : Reader → Reading α} (hs : ∀ r s, Ahead r s → next s = next r) (hn : ∀ r, Onward (next r)) :
    Onward (do next (← get)) := by
  intro r s h
  rw [bind_eq, bind_eq]
  change Together (next r r) (next s s)
  rw [hs r s h]
  exact hn r r s h

theorem take (n : Nat) : Onward (take n) := by
  intro r s h
  simp only [Reader.take, h.frame.available, h.frame.underflow, h.frame.slice?]
  split
  · exact .error _ h
  · cases r.frame.slice? n with
    | none => exact .error _ h
    | some bs => exact .ok bs (h.advance n)

/-- a read of the frame that is one of what lies ahead -/
theorem onFrame {read : Frame → Except WireError (α × Frame)}
    (hread : ∀ f g, f.Ahead g → (∃ a n, read f = .ok (a, f.setPosition (f.position + n)) ∧
      read g = .ok (a, g.setPosition (g.position + n))) ∨ ∃ e, read f = .error e ∧ read g = .error e) :
    Onward (onFrame read) := by
  intro r s h
  rcases hread _ _ h.frame with ⟨a, n, hr, hs⟩ | ⟨e, hr, hs⟩
  · simp only [Reader.onFrame, hr, hs]
    exact .ok a (h.advance n)
  · simp only [Reader.onFrame, hr, hs]
    exact .error _ h

theorem byte : Onward readByte := by
  apply onFrame
  intro f g h
  simp only [Frame.readByte, h.peek, h.underflow]
  rcases f.peek 1 with _ | ⟨b, _⟩
  · exact .inr ⟨_, rfl, rfl⟩
  · exact .inl ⟨b, 1, rfl, rfl⟩

theorem form {α : Type} (form : Varint.Form α) : Onward (Reader.onFrame (Frame.readForm form)) := by
  apply onFrame
  intro f g h
  simp only [Frame.readForm, h.peek, h.locate]
  rcases form.decode (f.peek form.most) with e | ⟨v, n⟩
  · exact .inr ⟨_, rfl, rfl⟩
  · exact .inl ⟨v, n, rfl, rfl⟩

theorem int : Onward readInt := by
  rw [readInt, Frame.readInt_eq]
  exact form _

theorem long : Onward readLong := by
  rw [readLong, Frame.readLong_eq]
  exact form _

theorem upTo (n : Nat) : Onward (readUpTo n) := by
  intro r s h
  simp only [readUpTo, h.frame.peek]
  exact .ok _ (h.advance _)

theorem cuts : Cuts Onward where
  pure := pure
  bind := bind
  refuse := refuse
  panic := panic
  take := take
  order hs hn := ask (fun r s h => hs r s h.order) hn

theorem length (kind : String) (size : Nat) : Onward (readLength kind size) := by
  apply (cuts.fixed Int32).bind
  intro raw
  apply (cuts.ofExcept _).bind
  intro o
  cases o with
  | none => exact .pure none
  | some len =>
    apply ask (fun r s h => by rw [h.maxLength, h.remaining, h.frame.underflow])
    intro r
    split
    · exact .refuse _
    · split
      · exact .refuse _
      · exact .pure _

/-- an object, whatever its decoder does -/
theorem objectWith (d : Decoder α) : Onward (readObjectWith d) := by
  rw [readObjectWith_eq]
  apply (length _ _).bind
  intro o
  cases o with
  | none => exact .refuse _
  | some size =>
    intro r s h
    simp only [objectOf, h.frame.readable]
    cases (d.run (r.frame.readable.take size)).1 with
    | some a => exact .ok a (h.advance size)
    | none => exact .error _ (h.advance size)

theorem probe (p : Probe) : Onward (probe p) := by
  cases p with
  | position => exact ask (fun r s h => by rw [h.position]) fun _ => .pure _
  | remaining => exact ask (fun r s h => by rw [h.remaining]) fun _ => .pure _
  | depth => exact ask (fun r s h => by rw [h.depth]) fun _ => .pure _
  | debug => exact ask (fun r s h => by rw [h.debugText]) fun _ => .pure _

theorem into (n : Nat) : Onward (readInto n) := by
  unfold readInto
  split
  · exact upTo n
  · exact .panic

theorem leaves : Leaves Onward where
  pure := pure
  bind := bind
  refuse := refuse
  byte := byte
  int := int
  long := long
  fixed α _ _ := cuts.fixed α
  length := length
  array α := cuts.array length α
  byteArray := cuts.byteArray length
  booleanArray := cuts.booleanArray length
  string := cuts.string length
  object _ := objectWith _
  probe := probe

/-! ## Messages -/

theorem blueprint : Onward readBlueprint := by
  apply (cuts.fixed Int16).bind
  intro type
  split
  · exact .pure none
  · apply ask (fun r s h => by rw [h.factory])
    intro r
    cases r.factory type with
    | none => exact .refuse _
    | some b => exact .pure _

theorem below {act : Reading α} (h : Onward act) : Onward (below act) := by
  intro r s hrs
  have key := h _ _ (hrs.onNesting .forward)
  unfold Reader.below
  generalize act (r.onNesting .forward) = x at key
  generalize act (s.onNesting .forward) = y at key
  rcases key with ⟨a, h⟩ | ⟨f, h⟩
  · simp only [h.depth]
    split
    · exact .error _ h
    · exact .ok a (h.onNesting _)
  · cases f with
    | panic => exact .error _ h
    | error e =>
      simp only [h.depth]
      split
      · exact .error _ h
      · exact .error _ (h.onNesting _)

theorem onLevel {act : Reading α} (h : Onward act) : Onward (onLevel act) := by
  intro r s hrs
  have key := h r s hrs
  unfold Reader.onLevel
  generalize act r = x at key
  generalize act s = y at key
  rcases key with ⟨a, h⟩ | ⟨f, h⟩
  · simp only [h.depth]
    split
    · exact .ok a (h.onNesting _)
    · exact .error _ h
  · exact .error f h

theorem descends : Descends Onward where
  toLeaves := leaves
  panic := panic
  blueprint := blueprint
  into := into
  below := below
  onLevel := onLevel

theorem readAt (place : Place) : Onward (readAt place) := by
  intro r s h
  have hb : s.nestingBound = r.nestingBound := by rw [nestingBound, nestingBound, h.remaining]
  rw [Reader.readAt, Reader.readAt, hb]
  exact descends.follow _ place r s h

end Onward

/-- no read looks at bytes that have been passed -/
theorem onward_field (k : FieldKind) : Onward (readField k) :=
  Onward.descends.field .readAt k

/-! ## The size in front of an object -/

/-- what a session makes of the size in front of an object: it has to be there whole, not negative, no more than the
largest length of the session, and no more than the bytes that are left behind it -/
def objectSize (r : Reader) : Except WireError Nat :=
  if r.frame.available < lengthPrefixSize then .error (r.frame.underflow lengthPrefixSize)
  else
    let behind := r.advance lengthPrefixSize
    let size := (Fixed.value r.order.swap (r.frame.cut lengthPrefixSize) : Int32).toInt
    if size < 0 ∨ r.maxLength < size then .error (.invalidLength "object" size)
    else if behind.remaining < size then .error (behind.frame.underflow size.toNat)
    else .ok size.toNat

/-- how many bytes are gone once that size has been refused -/
def sizeTaken (r : Reader) : Nat :=
  if r.frame.available < lengthPrefixSize then 0 else lengthPrefixSize

/-- the bytes of an object of that size -/
def objectBytes (r : Reader) (size : Nat) : Bytes :=
  (r.frame.data.drop (r.position + lengthPrefixSize)).take size

/-- the same session where other bytes stand for the object -/
def withObject (r : Reader) (bs : Bytes) : Reader :=
  let start := r.position + lengthPrefixSize
  { r with frame := { r.frame with
    cells := (r.frame.data.take start ++ bs ++ r.frame.data.drop (start + bs.length)).toArray } }

/-- a length that is there whole, as an object has it in front -/
theorem readLength_object {r : Reader} (h : lengthPrefixSize ≤ r.frame.available) :
    let size := (Fixed.value r.order.swap (r.frame.cut lengthPrefixSize) : Int32).toInt
    let behind := r.advance lengthPrefixSize
    readLength "object" 1 r = if size = -1 then .ok none behind
      else if size < 0 ∨ r.maxLength < size then .error (.error (.invalidLength "object" size)) behind
      else if behind.remaining < size.toNat then .error (.error (behind.frame.underflow size.toNat)) behind
      else .ok (some size.toNat) behind := by
  have hlen := readLength_eq "object" 1 (takeFixed_eq Int32 (r := r) (by decide) h)
  rw [Nat.mul_one] at hlen
  exact hlen

/-- a size that is refused is all that is gone -/
theorem objectSize_error (d : Decoder α) {r : Reader} {e : WireError} (h : r.objectSize = .error e) :
    readObjectWith d r = .error (.error e) (r.advance r.sizeTaken) := by
  rw [readObjectWith_eq, bind_eq]
  unfold objectSize at h
  unfold sizeTaken
  by_cases hshort : r.frame.available < lengthPrefixSize
  · rw [if_pos hshort] at h ⊢
    obtain rfl := Except.error.inj h
    rw [readLength, bind_eq, takeFixed_short Int32 hshort]
    rfl
  rw [if_neg hshort] at h ⊢
  rw [readLength_object (Nat.not_lt.1 hshort)]
  generalize (Fixed.value r.order.swap (r.frame.cut lengthPrefixSize) : Int32).toInt = size at h ⊢
  dsimp only at h ⊢
  by_cases hnull : size = -1
  · subst hnull
    obtain rfl := Except.error.inj h
    rfl
  rw [if_neg hnull]
  by_cases hbad : size < 0 ∨ r.maxLength < size
  · rw [if_pos hbad] at h ⊢
    obtain rfl := Except.error.inj h
    rfl
  rw [if_neg hbad] at h ⊢
  by_cases hmore : (r.advance lengthPrefixSize).remaining < size
  · rw [if_pos hmore] at h
    obtain rfl := Except.error.inj h
    rw [if_pos (by omega)]
  · rw [if_neg hmore] at h
    cases h

/-- a size that is taken, and the room for its object -/
theorem objectSize_ok {r : Reader} {size : Nat} (h : r.objectSize = .ok size) :
    readLength "object" 1 r = .ok (some size) (r.advance lengthPrefixSize) := by
  unfold objectSize at h
  by_cases hshort : r.frame.available < lengthPrefixSize
  · rw [if_pos hshort] at h
    cases h
  rw [if_neg hshort] at h
  rw [readLength_object (Nat.not_lt.1 hshort)]
  generalize (Fixed.value r.order.swap (r.frame.cut lengthPrefixSize) : Int32).toInt = len at h ⊢
  dsimp only at h ⊢
  by_cases hbad : len < 0 ∨ r.maxLength < len
  · rw [if_pos hbad] at h
    cases h
  rw [if_neg hbad] at h ⊢
  by_cases hmore : (r.advance lengthPrefixSize).remaining < len
  · rw [if_pos hmore] at h
    cases h
  rw [if_neg hmore] at h
  obtain rfl := Except.ok.inj h
  rw [if_neg (by omega), if_neg (by omega)]

/-- the bytes of an object that there is room for are the next ones -/
theorem readable_objectBytes {r : Reader} {size : Nat} (h : r.objectSize = .ok size) :
    (r.advance lengthPrefixSize).frame.readable.take size = r.objectBytes size ∧ (r.objectBytes size).length = size := by
  obtain ⟨hl, hn⟩ := readLength_ok (objectSize_ok h)
  rw [Nat.mul_one] at hn
  have hav := Frame.available_of_le (Nat.le_trans (Nat.le_add_right ..) hn) hl
  have hbytes : (r.advance lengthPrefixSize).frame.readable.take size = r.objectBytes size := by
    rw [Frame.readable, hav, List.take_take, Nat.min_eq_left (by simp only [position] at hn; omega)]
    rfl
  refine ⟨hbytes, ?_⟩
  rw [← hbytes, List.length_take, Frame.length_readable, hav]
  simp only [position] at hn
  omega

/-- an object whose size is taken -/
theorem readObjectWith_ok (d : Decoder α) {r : Reader} {size : Nat} (h : r.objectSize = .ok size) :
    readObjectWith d r = verdict (d.run (r.objectBytes size)).1 (r.advance (lengthPrefixSize + size)) := by
  rw [readObjectWith_eq, bind_eq, objectSize_ok h]
  simp only [objectOf, (readable_objectBytes h).1, advance_advance]

/-! ## Other bytes in the place of an object -/

section WithObject

variable {r : Reader} {bs : Bytes} (h : r.objectSize = .ok bs.length)

include h

/-- there is room for the object within the data -/
theorem object_le_extent : r.position + lengthPrefixSize + bs.length ≤ r.frame.extent := by
  obtain ⟨hl, hn⟩ := readLength_ok (objectSize_ok h)
  rw [Nat.mul_one] at hn
  exact Nat.le_trans hn hl

/-- the bytes up to the object are those there were -/
theorem data_withObject : ∃ front, front.length = r.position + lengthPrefixSize ∧
    r.frame.data.take (r.position + lengthPrefixSize) = front ∧
    (r.withObject bs).frame.data = front ++ bs ++ r.frame.data.drop (r.position + lengthPrefixSize + bs.length) := by
  have hin := object_le_extent h
  refine ⟨_, ?_, rfl, rfl⟩
  rw [List.length_take, Frame.length_data]
  omega

theorem extent_withObject : (r.withObject bs).frame.extent = r.frame.extent := by
  have hin := object_le_extent h
  obtain ⟨front, hlen, -, hdata⟩ := data_withObject h
  have := congrArg List.length hdata
  simp only [Frame.length_data, List.length_append, List.length_drop, hlen] at this
  omega

theorem cut_withObject : (r.withObject bs).frame.cut lengthPrefixSize = r.frame.cut lengthPrefixSize := by
  obtain ⟨front, hlen, hfront, hdata⟩ := data_withObject h
  rw [Frame.cut_eq, Frame.cut_eq, List.take_drop, List.take_drop]
  change ((r.withObject bs).frame.data.take (r.position + lengthPrefixSize)).drop r.position = _
  rw [hdata, List.append_assoc, List.take_left' hlen, ← hfront]
  rfl

/-- the size in front of the object is the one that was there -/
theorem objectSize_withObject : (r.withObject bs).objectSize = .ok bs.length := by
  have hav : (r.withObject bs).frame.available = r.frame.available := by
    simp only [Frame.available, extent_withObject h]
    rfl
  rw [← h, objectSize, objectSize, hav, cut_withObject h]
  rfl

/-- behind the object nothing is different -/
theorem ahead_withObject :
    Ahead (r.advance (lengthPrefixSize + bs.length)) ((r.withObject bs).advance (lengthPrefixSize + bs.length)) := by
  obtain ⟨front, hlen, -, hdata⟩ := data_withObject h
  refine ⟨⟨rfl, rfl, rfl, extent_withObject h, ?_⟩, rfl, rfl, rfl, rfl⟩
  change (r.withObject bs).frame.data.drop (r.position + (lengthPrefixSize + bs.length)) = _
  rw [hdata, List.drop_left' (by rw [List.length_append, hlen, Nat.add_assoc]), Nat.add_assoc]
  rfl

end WithObject

/-! ## Reads behind an object -/

/-- what can be asked of a session: a field, or an object for a decoder at hand -/
inductive Ask (γ : Type) where
  | field (k : FieldKind)
  | object (d : Decoder γ)

/-- what is asked for, read -/
def Ask.read : Ask γ → Reading (Field ⊕ γ)
  | .field k => return .inl (← readField k)
  | .object d => return .inr (← readObjectWith d)

/-- the answers to these, one after another; `none` is a stop, and the last -/
def answers : List (Ask γ) → Reader → List (Option (Except WireError (Field ⊕ γ)))
  | [], _ => []
  | a :: as, r =>
    match a.read r with
    | .ok v r => some (.ok v) :: answers as r
    | .error (.error e) r => some (.error e) :: answers as r
    | .error .panic _ => [none]

/-- the session that an act leaves -/
def left : EStateM.Result Fault Reader α → Reader
  | .ok _ r => r
  | .error _ r => r

theorem onward_ask (a : Ask γ) : Onward a.read := by
  cases a with
  | field k => exact Onward.leaves.map (onward_field k) Sum.inl
  | object d => exact Onward.leaves.map (.objectWith d) Sum.inr

/-- sessions that show the same ahead give the same answers -/
theorem answers_ahead (asks : List (Ask γ)) {r s : Reader} (h : Ahead r s) : answers asks s = answers asks r := by
  induction asks generalizing r s with
  | nil => rfl
  | cons a asks ih =>
    have key := onward_ask a r s h
    unfold answers
    generalize a.read r = x at key
    generalize a.read s = y at key
    rcases key with ⟨v, h⟩ | ⟨f, h⟩
    · exact congrArg _ (ih h)
    · cases f with
      | panic => rfl
      | error e => exact congrArg _ (ih h)

theorem left_verdict (o : Option α) (r : Reader) : left (verdict o r) = r := by
  cases o <;> rfl

/-- **Objects are fenced off from what is behind them.** Wherever the position and the limit of a session are and
whatever its bytes, the size in front of an object is refused, with at most its own bytes gone, or taken. Then any
decoder makes of the object what it makes of the `size` bytes behind their size and nothing after them, and whether it
answers or fails, the session goes on right behind them, its data and its limit as they were. Had other bytes stood for
the object, for this decoder or another, every read from there on would have given the same answer. -/
theorem object_fenced (d : Decoder α) (r : Reader) :
    (∀ e, r.objectSize = .error e → readObjectWith d r = .error (.error e) (r.advance r.sizeTaken)) ∧
    ∀ size, r.objectSize = .ok size → (r.objectBytes size).length = size ∧
      readObjectWith d r = verdict (d.run (r.objectBytes size)).1 (r.advance (lengthPrefixSize + size)) ∧
      ∀ (bs : Bytes) (β : Type) (c : Decoder β), bs.length = size → ∀ (γ : Type) (asks : List (Ask γ)),
        answers asks (left (readObjectWith c (r.withObject bs))) = answers asks (left (readObjectWith d r)) := by
  refine ⟨fun e => objectSize_error d, ?_⟩
  intro size h
  refine ⟨(readable_objectBytes h).2, readObjectWith_ok d h, ?_⟩
  rintro bs β c rfl γ asks
  rw [readObjectWith_ok d h, readObjectWith_ok c (objectSize_withObject h), left_verdict, left_verdict]
  exact answers_ahead asks (ahead_withObject h)

/-- an object of three bytes, one byte behind it, and one more that the window does not show -/
def walledReader : Reader where
  frame := ⟨#[9, 3, 0, 0, 0, 1, 2, 3, 7, 8], 1, 9, none⟩
  nesting := .ofCapacity 1
  factory := fun _ => none
  order := .little
  maxLength := 3

/-- a decoder that asks for more than there is -/
def greedy : Decoder Bytes :=
  .read 2 fun bs => .read 5 fun cs => .done (bs ++ cs)

theorem greedy_decoder_fenced :
    readObjectWith greedy walledReader = .ok [1, 2, 3] (walledReader.advance 7) ∧
      ∀ (γ : Type) (asks : List (Ask γ)),
        answers asks (left (readObjectWith (.fail : Decoder Unit) (walledReader.withObject [4, 5, 6])))
          = answers asks (walledReader.advance 7) := by
  have hsize : walledReader.objectSize = .ok 3 := by decide
  obtain ⟨-, hread, hbehind⟩ := (object_fenced greedy walledReader).2 3 hsize
  have hread : readObjectWith greedy walledReader = .ok [1, 2, 3] (walledReader.advance 7) := hread
  refine ⟨hread, fun γ asks => ?_⟩
  rw [hbehind [4, 5, 6] Unit .fail rfl γ asks, hread]
  rfl

end Reader

end Courier
