import Courier.Proofs.Bound
import Courier.Proofs.LevelsUnread

/-!
Reads of two windows, one of which begins with the other.

A narrow session and a wide one are `Wider` apart if the window of the wide one shows what that of the narrow one shows
and then some bytes behind; where in their frames the windows lie, and what lies around them, is left open. An act
`Follows` another if, from sessions like these, the two come to the same or else have a reason not to: the narrow
session ran `short` of bytes that the wide one still had, or the wide one was `lost` at a message that only the factory
of the narrow one knows. Where nothing lies behind and the factories are one, there is no such reason, so the two are
refused alike as well, up to where they say they stand.

`follows_take`, `follows_length`, …, `follows_objectWith`: the leaves.
`follows_follow`: messages, by induction on how deep they are followed.
`follows_readField`: every read that suits the bytes behind.
-/

namespace Courier

/-- the same refusal by two sessions that began at `p` and at `q`: where it says where it stands, the two stand as far
apart as they began -/
inductive WireError.Shifted (p q : Nat) : WireError → WireError → Prop
  | moved {position limit position' limit' : Nat} (needed : Nat) (hp : position' + p = position + q)
      (hl : limit' + p = limit + q) :
      Shifted p q (.bufferUnderflow position needed limit) (.bufferUnderflow position' needed limit')
  | same {e : WireError} (h : ∀ position needed limit, e ≠ .bufferUnderflow position needed limit) : Shifted p q e e

/-- whether a read tells nothing of where the window lies in its frame -/
def FieldKind.windowed : FieldKind → Bool
  | .probe .position | .probe .debug | .fail (.bufferUnderflow ..) => false
  | _ => true

/-- whether a read tells nothing of what lies behind it either: it is one of a typed field, of a message or of a
container -/
def FieldKind.typed : FieldKind → Bool
  | .raw _ | .probe .remaining => false
  | k => k.windowed

/-- a read that can be made with these bytes behind the window and without them -/
def FieldKind.Suits (behind : Bytes) (k : FieldKind) : Prop :=
  if behind = [] then k.windowed = true else k.typed = true

theorem FieldKind.windowed_of_typed {k : FieldKind} (h : k.typed = true) : k.windowed = true := by
  unfold typed at h
  split at h
  · cases h
  · cases h
  · exact h

theorem FieldKind.Suits.windowed {behind : Bytes} {k : FieldKind} (h : k.Suits behind) : k.windowed = true := by
  unfold Suits at h
  split at h
  · exact h
  · exact windowed_of_typed h

theorem FieldKind.suits_of_typed {k : FieldKind} (h : k.typed = true) (behind : Bytes) : k.Suits behind := by
  unfold Suits
  split
  · exact windowed_of_typed h
  · exact h

/-- nothing lies behind a read that is not typed -/
theorem FieldKind.Suits.behind_eq {behind : Bytes} {k : FieldKind} (h : k.Suits behind) (hk : k.typed = false) :
    behind = [] := by
  by_contra hb
  rw [Suits, if_neg hb, hk] at h
  cases h

namespace Reader

variable {α β : Type}

/-- what may tell a narrow session and a wide one apart -/
structure Gap where
  /-- what the wide window shows behind the narrow one -/
  behind : Bytes
  /-- where the narrow session began -/
  narrow : Nat
  /-- where the wide session began -/
  wide : Nat
  /-- what the narrow session knows messages by -/
  factory : Factory
  /-- what the wide session knows messages by -/
  fewer : Factory

/-- the wide session knows no message that the narrow one does not, and reads all it knows with suitable reads -/
structure Gap.Fair (g : Gap) : Prop where
  known : ∀ type b, g.fewer type = some b → g.factory type = some b
  suits : ∀ type b, g.fewer type = some b → ∀ k ∈ b.schema, k.Suits g.behind

/-- a narrow session and a wide one, both at depth `d` -/
structure Wider (g : Gap) (d : Nat) (r s : Reader) : Prop where
  factory : r.factory = g.factory
  fewer : s.factory = g.fewer
  order : s.order = r.order
  maxLength : s.maxLength = r.maxLength
  levels : r.nesting.view = s.nesting.view
  depth : r.depth = d
  position_le : r.position ≤ r.frame.limit
  limit_le : r.frame.limit ≤ r.frame.extent
  wide_position_le : s.position ≤ s.frame.limit
  wide_limit_le : s.frame.limit ≤ s.frame.extent
  window : s.frame.readable = r.frame.readable ++ g.behind
  offset : s.position + g.narrow = r.position + g.wide

/-- what acts of the two sessions come to -/
inductive Outcome (g : Gap) (d : Nat) : EStateM.Result Fault Reader α → EStateM.Result Fault Reader α → Prop
  | ok (a : α) {r s : Reader} (h : Wider g d r s) : Outcome g d (.ok a r) (.ok a s)
  | refused {e e' : WireError} {r s : Reader} (he : e.Shifted g.narrow g.wide e') (h : Wider g d r s) :
      Outcome g d (.error (.error e) r) (.error (.error e') s)
  | panic {r s : Reader} : Outcome g d (.error .panic r) (.error .panic s)
  /-- the narrow session wants bytes that lie behind its window -/
  | short {e : WireError} {r : Reader} {y : EStateM.Result Fault Reader α} (hx : g.behind ≠ []) (hd : r.depth = d) :
      Outcome g d (.error (.error e) r) y
  /-- the wide session has come upon a message it does not know -/
  | lost {x : EStateM.Result Fault Reader α} {f : Fault} {s : Reader} (hf : g.fewer ≠ g.factory) :
      Outcome g d x (.error f s)

/-- an act of the narrow session and one of the wide session that follows it -/
def Follows (g : Gap) (act act' : Reading α) : Prop :=
  ∀ d r s, Wider g d r s → Outcome g d (act r) (act' s)

variable {g : Gap} {d : Nat}

namespace Wider

variable {r s : Reader}

theorem available (h : Wider g d r s) : s.frame.available = r.frame.available + g.behind.length := by
  rw [← Frame.length_readable, ← Frame.length_readable, h.window, List.length_append]

theorem remaining (h : Wider g d r s) : r.remaining = r.frame.available :=
  (Frame.available_of_le h.position_le h.limit_le).symm

theorem wide_remaining (h : Wider g d r s) : s.remaining = s.frame.available :=
  (Frame.available_of_le h.wide_position_le h.wide_limit_le).symm

theorem wide_depth (h : Wider g d r s) : s.depth = d :=
  (congrArg Levels.depth h.levels).symm.trans h.depth

/-- with nothing behind, the limits are as far apart as the sessions began -/
theorem limit_offset (h : Wider g d r s) (hx : g.behind = []) : s.frame.limit + g.narrow = r.frame.limit + g.wide := by
  have ha := h.available
  rw [← h.remaining, ← h.wide_remaining, hx] at ha
  have := h.position_le
  have := h.wide_position_le
  have := h.offset
  simp only [Reader.remaining, Frame.remaining, position, List.length_nil] at *
  omega

/-- what the wide session sees in front of it goes on with what the narrow one sees -/
theorem peek_append (h : Wider g d r s) (n : Nat) :
    s.frame.peek n = r.frame.peek n ++ g.behind.take (n - r.frame.available) := by
  rw [Frame.peek_eq_take, Frame.peek_eq_take, h.window, List.take_append, Frame.length_readable]

theorem peek (h : Wider g d r s) {n : Nat} (hn : n ≤ r.frame.available ∨ g.behind = []) :
    s.frame.peek n = r.frame.peek n := by
  rw [h.peek_append]
  rcases hn with hn | hx
  · rw [Nat.sub_eq_zero_of_le hn, List.take_zero, List.append_nil]
  · rw [hx, List.take_nil, List.append_nil]

theorem cut (h : Wider g d r s) {n : Nat} (hn : n ≤ r.frame.available) : s.frame.cut n = r.frame.cut n := by
  have hp := h.peek (.inl hn)
  have hs : n ≤ s.frame.available := by rw [h.available]; omega
  rwa [Frame.peek, Frame.peek, Nat.min_eq_left hn, Nat.min_eq_left hs] at hp

/-- both sessions go on by as many bytes -/
theorem move (h : Wider g d r s) {n : Nat} (hn : n ≤ r.frame.available) :
    Wider g d { r with frame := r.frame.setPosition (r.position + n) }
      { s with frame := s.frame.setPosition (s.position + n) } := by
  have ha := h.available
  rw [← h.remaining] at hn ha
  rw [← h.wide_remaining] at ha
  have hp := h.position_le
  have hq := h.wide_position_le
  have hr : r.position + n ≤ r.frame.limit := by
    simp only [Reader.remaining, Frame.remaining, position] at *
    omega
  have hs : s.position + n ≤ s.frame.limit := by
    simp only [Reader.remaining, Frame.remaining, position] at *
    omega
  have hlen : n ≤ r.frame.readable.length := by rw [Frame.length_readable, ← h.remaining]; exact hn
  refine { h with position_le := hr, wide_position_le := hs, window := ?_, offset := ?_ }
  · calc (s.frame.setPosition (s.position + n)).readable = s.frame.readable.drop n :=
          Frame.readable_advance h.wide_limit_le hs
      _ = r.frame.readable.drop n ++ g.behind := by rw [h.window, List.drop_append_of_le_length hlen]
      _ = (r.frame.setPosition (r.position + n)).readable ++ g.behind := by
          rw [← Frame.readable_advance h.limit_le hr]
          rfl
  · have := h.offset
    change s.position + n + g.narrow = r.position + n + g.wide
    omega

/-- an act on the levels that is one on their view -/
theorem onNesting (h : Wider g d r s) {f : Nesting → Nesting} {v : Levels → Levels} (hf : ∀ n, (f n).view = v n.view)
    {d' : Nat} (hd : (r.onNesting f).depth = d') : Wider g d' (r.onNesting f) (s.onNesting f) :=
  { h with
    levels := by change (f _).view = (f _).view; rw [hf, hf, h.levels]
    depth := hd }

theorem forward (h : Wider g d r s) : Wider g (d + 1) (r.onNesting .forward) (s.onNesting .forward) :=
  h.onNesting Nesting.view_forward (by rw [← h.depth]; exact r.nesting.depth_forward)

theorem retreat (h : Wider g (d + 1) r s) (b : Bool) :
    Wider g d (r.onNesting (·.retreat b)) (s.onNesting (·.retreat b)) := by
  apply h.onNesting (v := (·.retreat b)) fun n => n.view_retreat b
  calc (r.onNesting (·.retreat b)).depth = r.depth - 1 := r.nesting.depth_retreat b
    _ = d := by rw [h.depth, Nat.add_sub_cancel]

/-- a session that wants more than there is runs short, or both do -/
theorem starve (h : Wider g d r s) (n : Nat) {y : EStateM.Result Fault Reader α}
    (hy : g.behind = [] → y = .error (.error (s.frame.underflow n)) s) :
    Outcome g d (.error (.error (r.frame.underflow n)) r) y := by
  by_cases hx : g.behind = []
  · rw [hy hx]
    exact .refused (.moved n h.offset (h.limit_offset hx)) h
  · exact .short hx h.depth

/-- a refusal that says nothing of where it stands -/
theorem refuse (h : Wider g d r s) {e : WireError} (he : ∀ p n l, e ≠ .bufferUnderflow p n l) :
    Outcome g d (Reader.refuse (α := α) e r) (Reader.refuse (α := α) e s) :=
  .refused (.same he) h

end Wider

/-! ## Acts in a row -/

theorem Outcome.bind {act act' : Reading α} {next next' : α → Reading β} {r s : Reader}
    (h : Outcome g d (act r) (act' s))
    (hn : ∀ a t u, act r = .ok a t → act' s = .ok a u → Wider g d t u → Outcome g d (next a t) (next' a u)) :
    Outcome g d ((act >>= next) r) ((act' >>= next') s) := by
  rw [bind_eq, bind_eq]
  generalize hx : act r = x at h
  generalize hy : act' s = y at h
  cases h with
  | ok a h => exact hn a _ _ hx hy h
  | refused he h => exact .refused he h
  | panic => exact .panic
  | short hb hd => exact .short hb hd
  | lost hf => exact .lost hf

namespace Follows

theorem pure (a : α) : Follows g (Pure.pure a : Reading α) (Pure.pure a) :=
  fun _ _ _ h => .ok a h

theorem panic : Follows g (throw .panic : Reading α) (throw .panic) :=
  fun _ _ _ _ => .panic

theorem refuse {e : WireError} (he : ∀ p n l, e ≠ .bufferUnderflow p n l) :
    Follows g (Reader.refuse (α := α) e) (Reader.refuse e) :=
  fun _ _ _ h => h.refuse he

theorem bind {act act' : Reading α} {next next' : α → Reading β} (h : Follows g act act')
    (hn : ∀ a, Follows g (next a) (next' a)) : Follows g (act >>= next) (act' >>= next') :=
  fun d r s hrs => (h d r s hrs).bind fun a t u _ _ htu => hn a d t u htu

/-- an act that asks for the session -/
theorem ask {next next' : Reader → Reading α} (h : ∀ d r s, Wider g d r s → Outcome g d (next r r) (next' s s)) :
    Follows g (do next (← get)) (do next' (← get)) := by
  intro d r s hrs
  rw [bind_eq, bind_eq]
  exact h d r s hrs

end Follows

/-! ## Leaves -/

theorem follows_take (n : Nat) : Follows g (take n) (take n) := by
  intro d r s h
  have ha := h.available
  unfold take
  by_cases hn : r.frame.available < n
  · rw [if_pos hn]
    apply h.starve
    intro hx
    rw [hx] at ha
    rw [if_pos (by rw [ha]; exact hn)]
  · have hr := h.remaining
    have hs := h.wide_remaining
    have hp := h.position_le
    have hq := h.wide_position_le
    have hl := h.limit_le
    have hm := h.wide_limit_le
    simp only [Reader.remaining, Frame.remaining, position] at hr hs hp hq
    rw [if_neg hn, if_neg (by omega), Frame.slice?, Frame.slice?, if_pos (by omega), if_pos (by omega),
      h.cut (by omega)]
    exact .ok _ (h.move (by omega))

theorem follows_fixed (α : Type) [Fixed α] : Follows g (takeFixed α) (takeFixed α) := by
  apply (follows_take _).bind
  intro bs
  apply Follows.ask
  intro d r s h
  rw [h.order]
  cases (Fixed.readFixed bs r.order.swap : Option α) with
  | none => exact .panic
  | some v => exact .ok v h

theorem decodeLength_error {kind : String} {raw : Int32} {e : WireError} (h : decodeLength kind raw = .error e) :
    ∀ p n l, e ≠ .bufferUnderflow p n l := by
  unfold decodeLength at h
  split at h
  · cases h
  · split at h
    · cases h
      intro p n l he
      cases he
    · cases h

theorem follows_length (kind : String) (size : Nat) : Follows g (readLength kind size) (readLength kind size) := by
  apply (follows_fixed Int32).bind
  intro raw
  cases hd : decodeLength kind raw with
  | error e => exact fun d r s h => .refused (.same (decodeLength_error hd)) h
  | ok o =>
    apply (Follows.pure o).bind
    intro o
    cases o with
    | none => exact .pure none
    | some len =>
      apply Follows.ask
      intro d r s h
      rw [h.maxLength]
      by_cases hmax : r.maxLength < len
      · rw [if_pos hmax, if_pos hmax]
        exact h.refuse fun p n l he => by cases he
      · rw [if_neg hmax, if_neg hmax]
        have ha := h.available
        rw [← h.remaining, ← h.wide_remaining] at ha
        by_cases hrem : r.remaining < len * size
        · rw [if_pos hrem]
          apply h.starve
          intro hx
          rw [hx] at ha
          rw [if_pos (by rw [ha]; exact hrem)]
          rfl
        · rw [if_neg hrem, if_neg (by omega)]
          exact .ok _ h

theorem follows_array (α : Type) [Fixed α] : Follows g (takeArray α) (takeArray α) := by
  apply (follows_length _ _).bind
  intro o
  cases o with
  | none => exact .pure none
  | some len =>
    apply (follows_take _).bind
    intro bs
    apply Follows.ask
    intro d r s h
    rw [h.order]
    cases (Fixed.decodeSlice bs len r.order.swap : Option (List α)) with
    | none => exact .panic
    | some vs => exact .ok _ h

theorem follows_byteArray : Follows g readByteArray readByteArray := by
  apply (follows_length _ _).bind
  intro o
  cases o with
  | none => exact .pure none
  | some len => exact (follows_take len).bind fun bs => .pure (some bs)

theorem follows_booleanArray : Follows g readBooleanArray readBooleanArray := by
  apply (follows_length _ _).bind
  intro o
  cases o with
  | none => exact .pure none
  | some len =>
    apply (follows_take len).bind
    intro bs
    cases decodeBools bs len with
    | none => exact .panic
    | some vs => exact .pure _

theorem follows_string : Follows g readString readString := by
  apply (follows_length _ _).bind
  intro o
  cases o with
  | none => exact .pure none
  | some len =>
    apply (follows_take len).bind
    intro bs
    cases Utf8.decode? bs with
    | none => exact .refuse fun p n l he => by cases he
    | some v => exact .pure _

theorem follows_byte : Follows g readByte readByte := by
  intro d r s h
  have hs := h.peek_append 1
  have hl := length_peek_le r.frame 1
  unfold readByte onFrame Frame.readByte
  cases hp : r.frame.peek 1 with
  | nil =>
    apply h.starve
    intro hx
    rw [hs, hp, hx, List.take_nil]
    rfl
  | cons b bs =>
    rw [hs, hp]
    rw [hp] at hl
    have h1 : 1 ≤ r.frame.available :=
      calc 1 ≤ bs.length + 1 := Nat.succ_le_succ (Nat.zero_le _)
        _ ≤ r.frame.available := hl
    exact .ok b (h.move h1)

/-- a number of groups -/
theorem follows_form {form : Varint.Form α} (hform : form.Lawful) :
    Follows g (onFrame (Frame.readForm form)) (onFrame (Frame.readForm form)) := by
  intro d r s h
  have hs := h.peek_append form.most
  simp only [onFrame, Frame.readForm]
  cases hd : form.decode (r.frame.peek form.most) with
  | ok x =>
    obtain ⟨v, k⟩ := x
    have hk : k ≤ r.frame.available :=
      calc k ≤ (r.frame.peek form.most).length := (hform.length_of_decode hd).2
        _ ≤ r.frame.available := length_peek_le ..
    rw [hs, hform.decode_append hd]
    exact .ok _ (h.move hk)
  | error e =>
    by_cases hx : g.behind = []
    · rw [h.peek (.inr hx), hd]
      cases e with
      | bufferUnderflow p needed l => exact .refused (.moved needed h.offset (h.limit_offset hx)) h
      | _ => exact .refused (.same fun p n l he => by cases he) h
    · exact .short hx h.depth

theorem follows_int : Follows g readInt readInt := by
  rw [readInt, Frame.readInt_eq]
  exact follows_form Varint.grouped32.lawful

theorem follows_long : Follows g readLong readLong := by
  rw [readLong, Frame.readLong_eq]
  exact follows_form Varint.grouped64.lawful

/-- where nothing lies behind, up to `n` bytes are the same bytes -/
theorem follows_upTo (hx : g.behind = []) (n : Nat) : Follows g (readUpTo n) (readUpTo n) := by
  intro d r s h
  unfold readUpTo
  rw [h.peek (.inr hx)]
  exact .ok _ (h.move (length_peek_le ..))

/-- the bytes of an object are the same in both sessions, and so is what its decoder makes of them -/
theorem follows_objectWith (c : Decoder α) : Follows g (readObjectWith c) (readObjectWith c) := by
  rw [readObjectWith_eq]
  intro d r s h
  apply (follows_length "object" 1 d r s h).bind
  intro o t u ht _ k
  cases o with
  | none => exact k.refuse fun p n l he => by cases he
  | some size =>
    have hroom := (readLength_ok ht).2
    have hav : size ≤ t.frame.available := by
      rw [← k.remaining]
      simp only [Reader.remaining, Frame.remaining, position] at *
      omega
    have hbytes : u.frame.readable.take size = t.frame.readable.take size := by
      rw [k.window, List.take_append_of_le_length (by rwa [Frame.length_readable])]
    have hmove : Wider g d (t.advance size) (u.advance size) := k.move hav
    simp only [objectOf, hbytes]
    cases (c.run (t.frame.readable.take size)).1 with
    | some a => exact .ok a hmove
    | none => exact hmove.refuse fun p n l he => by cases he

theorem follows_blueprint (hg : g.Fair) : Follows g readBlueprint readBlueprint := by
  apply (follows_fixed Int16).bind
  intro type
  split
  · exact .pure none
  · apply Follows.ask
    intro d r s h
    rw [h.factory, h.fewer]
    cases hs : g.fewer type with
    | some b =>
      rw [hg.known type b hs]
      exact .ok _ h
    | none =>
      by_cases hf : g.fewer = g.factory
      · rw [← hf, hs]
        exact h.refuse fun p n l he => by cases he
      · exact .lost hf

/-! ## Messages -/

theorem Follows.below {act act' : Reading α} (h : Follows g act act') : Follows g (below act) (below act') := by
  intro d r s hrs
  have key := h (d + 1) _ _ hrs.forward
  unfold Reader.below
  generalize act (r.onNesting .forward) = x at key
  generalize act' (s.onNesting .forward) = y at key
  have hne : d + 1 ≠ 0 := Nat.succ_ne_zero d
  cases key with
  | ok a k =>
    simp only [k.depth, k.wide_depth, hne, if_false]
    exact .ok a (k.retreat true)
  | refused he k =>
    simp only [k.depth, k.wide_depth, hne, if_false]
    exact .refused he (k.retreat false)
  | panic => exact .panic
  | @short e t _ hx hd =>
    simp only [hd, hne, if_false]
    refine .short hx ?_
    calc (t.onNesting (·.retreat false)).depth = t.depth - 1 := t.nesting.depth_retreat false
      _ = d := by rw [hd, Nat.add_sub_cancel]
  | @lost _ f t hf =>
    cases f with
    | panic => exact .lost hf
    | error e =>
      dsimp only
      by_cases ht : t.depth = 0
      · rw [if_pos ht]
        exact .lost hf
      · rw [if_neg ht]
        exact .lost hf

theorem Follows.onLevel {act act' : Reading α} (h : Follows g act act') : Follows g (onLevel act) (onLevel act') := by
  intro d r s hrs
  have key := h d r s hrs
  unfold Reader.onLevel
  generalize act r = x at key
  generalize act' s = y at key
  cases key with
  | @ok a t u k =>
    simp only [k.depth, k.wide_depth]
    split
    · refine .ok a (k.onNesting Nesting.view_wipe ?_)
      exact t.nesting.depth_wipe.trans k.depth
    · exact .panic
  | refused he k => exact .refused he k
  | panic => exact .panic
  | short hx hd => exact .short hx hd
  | lost hf => exact .lost hf

theorem follows_pairs (g : Gap) : Pairs (Follows g) where
  pure := .pure
  bind := .bind
  byte := follows_byte
  int := follows_int
  long := follows_long
  fixed α _ _ := follows_fixed α
  length := follows_length
  array α _ := follows_array α
  byteArray := follows_byteArray
  booleanArray := follows_booleanArray
  string := follows_string
  object _ := follows_objectWith _

theorem follows_into (hx : g.behind = []) (n : Nat) : Follows g (readInto n) (readInto n) := by
  unfold readInto
  split
  · exact follows_upTo hx n
  · exact .panic

theorem follows_probe {p : Probe} (hp : (FieldKind.probe p).Suits g.behind) : Follows g (probe p) (probe p) := by
  intro d r s h
  cases p with
  | position | debug => cases hp.windowed
  | remaining =>
    have hrem : s.remaining = r.remaining := by
      rw [h.wide_remaining, h.remaining, h.available, hp.behind_eq rfl]
      rfl
    have key : Outcome g d (.ok (Note.number r.remaining) r) (.ok (Note.number s.remaining) s) := by
      rw [hrem]
      exact .ok _ h
    exact key
  | depth =>
    have key : Outcome g d (.ok (Note.number r.depth) r) (.ok (Note.number s.depth) s) := by
      rw [h.depth, h.wide_depth]
      exact .ok _ h
    exact key

/-- a suitable field, once the messages in it are read in ways that follow one another -/
theorem follows_field {at₁ at₂ : Place → Reading (Option Message)} (hat : ∀ place, Follows g (at₁ place) (at₂ place))
    {k : FieldKind} (hk : k.Suits g.behind) : Follows g (fieldWith at₁ k) (fieldWith at₂ k) := by
  refine (follows_pairs g).field (hat .nested) k (fun _ => hat .root) ?_ ?_ ?_
  · rintro n rfl
    exact follows_into (hk.behind_eq rfl) n
  · rintro p rfl
    exact follows_probe hk
  · rintro e rfl
    refine .refuse fun p n l he => ?_
    subst he
    cases hk.windowed

theorem follows_follow (hg : g.Fair) (n : Nat) (place : Place) : Follows g (follow n place) (follow n place) := by
  induction n generalizing place with
  | zero => exact .panic
  | succ n ih =>
    intro d r s h
    rw [follow]
    apply (follows_blueprint hg d r s h).bind
    intro o t u _ hu k
    cases o with
    | none => exact .ok none k
    | some b =>
      have hfine := fine_blueprint h.wide_limit_le
      rw [hu] at hfine
      obtain ⟨type, hb⟩ := hfine.post.2 b rfl
      rw [h.fewer] at hb
      have hbody : Follows g (bodyWith (follow n) b) (bodyWith (follow n) b) :=
        (follows_pairs g).body fun k hk => follows_field ih (hg.suits type b hb k hk)
      cases place with
      | nested => exact (follows_pairs g).map hbody.below some d t u k
      | root => exact (follows_pairs g).map hbody.onLevel some d t u k

theorem follows_readAt (hg : g.Fair) (place : Place) : Follows g (readAt place) (readAt place) := by
  intro d r s h
  have hr : Short (r.remaining + s.remaining + 1) r := ⟨h.limit_le, by omega⟩
  have hs : Short (r.remaining + s.remaining + 1) s := ⟨h.wide_limit_le, by omega⟩
  rw [← (enough_readAt _ place r hr).1, ← (enough_readAt _ place s hs).1]
  exact follows_follow hg _ place d r s h

/-- **Every suitable read of the wide session follows** that of the narrow one. -/
theorem follows_readField (hg : g.Fair) {k : FieldKind} (hk : k.Suits g.behind) : Follows g (readField k) (readField k) :=
  follows_field (follows_readAt hg) hk

end Reader

end Courier
