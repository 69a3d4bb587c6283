import Courier.Proofs.Groups
import Courier.Proofs.Levels
import Courier.Proofs.Opaque
import Courier.Proofs.Words

/-!
What a read gives where its bytes are at hand.

`Shows` says what a session has in front of it: the bytes of its window, and levels that are all clear. An act `Gives`
something on some bytes if, wherever these stand at the front of the window, it takes just them and answers with such a
thing, whatever comes behind. Acts in a row take their bytes in a row: that is `Gives.bind`.

`gives_take`, `gives_fixed`, `gives_int`, …: the leaves.
`Gives.length`: a length, and what is done about it.
`gives_objectWith`: an opaque object, if its decoder takes the bytes of that object.
-/

namespace Courier

namespace Reader

variable {α β : Type}

/-- what a session was opened with -/
structure Terms where
  factory : Factory
  order : ByteOrder
  maxLength : Nat

/-- the terms of a session -/
def terms (r : Reader) : Terms :=
  ⟨r.factory, r.order, r.maxLength⟩

/-- a session under these terms, with `bs` in its window and all levels clear -/
structure Shows (c : Terms) (r : Reader) (bs : Bytes) : Prop where
  terms : r.terms = c
  clear : ∀ i, r.nesting.level i = .blank
  position_le : r.position ≤ r.frame.limit
  limit_le : r.frame.limit ≤ r.frame.extent
  window : r.frame.readable = bs

/-- `s` comes after `r`, with `n` bytes taken and all levels clear -/
structure Moved (r s : Reader) (n : Nat) : Prop where
  frame : s.frame = r.frame.setPosition (r.position + n)
  terms : s.terms = r.terms
  clear : ∀ i, s.nesting.level i = .blank
  depth : s.depth = r.depth

/-- on `bs` the act gives something like this, and takes just these bytes -/
def Gives (c : Terms) (act : Reading α) (bs : Bytes) (Q : α → Prop) : Prop :=
  ∀ r rest, Shows c r (bs ++ rest) → ∃ a s, act r = .ok a s ∧ Moved r s bs.length ∧ Q a

namespace Shows

variable {c : Terms} {r : Reader} {bs cs : Bytes}

theorem available (h : Shows c r bs) : r.frame.available = r.frame.limit - r.position :=
  Frame.available_of_le h.position_le h.limit_le

theorem length_eq (h : Shows c r bs) : bs.length = r.frame.limit - r.position := by
  rw [← h.window, Frame.length_readable, h.available]

theorem remaining (h : Shows c r bs) : r.remaining = bs.length :=
  h.length_eq.symm

/-- what is shown once some bytes have been taken -/
theorem moved {s : Reader} (h : Shows c r (bs ++ cs)) (hm : Moved r s bs.length) : Shows c s cs := by
  have hl := h.length_eq
  rw [List.length_append] at hl
  have hp := h.position_le
  have hin : r.position + bs.length ≤ r.frame.limit := by omega
  refine ⟨hm.terms.trans h.terms, hm.clear, ?_, ?_, ?_⟩
  · rw [position, hm.frame]
    exact hin
  · rw [hm.frame]
    exact h.limit_le
  · calc s.frame.readable = r.frame.readable.drop bs.length := by
          rw [hm.frame]
          exact Frame.readable_advance h.limit_le hin
      _ = cs := by rw [h.window, List.drop_left]

/-- bytes at the front of the window can be cut out of the frame -/
theorem slice? (h : Shows c r (bs ++ cs)) : r.frame.slice? bs.length = some bs := by
  have hl := h.length_eq
  rw [List.length_append] at hl
  have hlim := h.limit_le
  have hp := h.position_le
  have hin : r.frame.position + bs.length ≤ r.frame.extent := by
    change r.position + bs.length ≤ _
    omega
  have hw := congrArg (List.take bs.length) h.window
  rw [Frame.readable, List.take_take, List.take_left, h.available, Nat.min_eq_left (by omega)] at hw
  rw [Frame.slice?, if_pos hin, Frame.cut_eq, hw]

end Shows

theorem Moved.refl {c : Terms} {r : Reader} {bs : Bytes} (h : Shows c r bs) : Moved r r 0 :=
  ⟨rfl, rfl, h.clear, rfl⟩

theorem Moved.trans {r s t : Reader} {m n : Nat} (h : Moved r s m) (k : Moved s t n) : Moved r t (m + n) where
  frame := by
    have hpos : s.position = r.position + m := by rw [position, h.frame]; rfl
    rw [k.frame, hpos, h.frame, Nat.add_assoc]
    rfl
  terms := k.terms.trans h.terms
  clear := k.clear
  depth := k.depth.trans h.depth

namespace Gives

variable {c : Terms} {act : Reading α} {bs cs : Bytes} {P Q : α → Prop}

theorem pure {a : α} (h : Q a) : Gives c (pure a) [] Q :=
  fun r _ hr => ⟨a, r, rfl, .refl hr, h⟩

theorem mono (h : Gives c act bs P) (hQ : ∀ a, P a → Q a) : Gives c act bs Q := by
  intro r rest hr
  obtain ⟨a, s, ha, hs, hp⟩ := h r rest hr
  exact ⟨a, s, ha, hs, hQ a hp⟩

theorem bind {n : α → Reading β} {R : β → Prop} (h : Gives c act bs P)
    (hn : ∀ a, P a → Gives c (n a) cs R) : Gives c (act >>= n) (bs ++ cs) R := by
  intro r rest hr
  rw [List.append_assoc] at hr
  obtain ⟨a, s, ha, hs, hp⟩ := h r _ hr
  obtain ⟨b, t, hb, ht, hq⟩ := hn a hp s rest (hr.moved hs)
  refine ⟨b, t, ?_, ?_, hq⟩
  · rw [bind_eq, ha]
    exact hb
  · rw [List.length_append]
    exact hs.trans ht

/-- an act, and one behind it that takes nothing more -/
theorem bind_nil {n : α → Reading β} {R : β → Prop} (h : Gives c act bs P) (hn : ∀ a, P a → Gives c (n a) [] R) :
    Gives c (act >>= n) bs R := by
  have := h.bind hn
  rwa [List.append_nil] at this

/-- an act, and an answer made of what it gives -/
theorem map {f : α → β} {R : β → Prop} (h : Gives c act bs P) (hf : ∀ a, P a → R (f a)) :
    Gives c (do return f (← act)) bs R :=
  h.bind_nil fun a ha => Gives.pure (hf a ha)

/-- the terms of the session, looked up on the way -/
theorem get {next : Reader → Reading β} {R : β → Prop} (h : ∀ r : Reader, r.terms = c → Gives c (next r) bs R) :
    Gives c (do next (← MonadState.get)) bs R := by
  intro r rest hr
  obtain ⟨b, s, hb, hs, hq⟩ := h r hr.terms r rest hr
  exact ⟨b, s, by rw [bind_eq]; exact hb, hs, hq⟩

end Gives

variable {c : Terms} {bs cs : Bytes}

/-! ## The leaves -/

theorem gives_take (c : Terms) (bs : Bytes) : Gives c (take bs.length) bs (· = bs) := by
  intro r rest hr
  have hl := hr.length_eq
  rw [List.length_append] at hl
  refine ⟨bs, { r with frame := r.frame.setPosition (r.position + bs.length) }, ?_, ?_, rfl⟩
  · rw [take, if_neg (by rw [hr.available]; omega), hr.slice?]
  · exact ⟨rfl, rfl, hr.clear, rfl⟩

theorem gives_fixed {α : Type} [Fixed α] (c : Terms) (v : α) :
    Gives c (takeFixed α) (Fixed.bytes c.order.swap v) (· = v) := by
  have hl : (Fixed.bytes c.order.swap v).length = Fixed.size α := Fixed.length_bytes ..
  have hget := gives_take c (Fixed.bytes c.order.swap v)
  rw [hl] at hget
  apply hget.bind_nil
  intro bs hbs
  apply Gives.get
  intro r hr
  have ho : r.order = c.order := congrArg Terms.order hr
  have hv : Fixed.readFixed bs r.order.swap = some v := by
    rw [hbs, ho, Fixed.readFixed, if_pos (by rw [hl]), List.take_of_length_le (by rw [hl]), Fixed.value_bytes]
  rw [hv]
  exact .pure rfl

/-- a read of the frame that takes its bytes from the front of the window -/
theorem gives_onFrame {read : Frame → Except WireError (α × Frame)} {a : α}
    (h : ∀ f : Frame, (∃ rest, f.readable = bs ++ rest) → read f = .ok (a, f.setPosition (f.position + bs.length))) :
    Gives c (onFrame read) bs (· = a) := by
  intro r rest hr
  refine ⟨a, { r with frame := r.frame.setPosition (r.position + bs.length) }, ?_, ⟨rfl, rfl, hr.clear, rfl⟩, rfl⟩
  rw [onFrame, h r.frame ⟨rest, hr.window⟩]
  rfl

theorem gives_byte (c : Terms) (b : UInt8) : Gives c readByte [b] (· = b) := by
  refine gives_onFrame ?_
  rintro f ⟨rest, hf⟩
  rw [Frame.readByte, Frame.peek_eq_take, hf]
  rfl

/-- a number of groups, read back from the front of the window -/
theorem gives_form (c : Terms) {form : Varint.Form α} (h : form.Lawful) (v : α) :
    Gives c (onFrame (Frame.readForm form)) (form.encode v) (· = v) := by
  refine gives_onFrame ?_
  rintro f ⟨rest, hf⟩
  have hmost : (form.encode v).length ≤ form.most := (h.length_encode v).trans_le (h.encodedLength_mem v).2
  have hpeek : f.peek form.most = form.encode v ++ rest.take (form.most - (form.encode v).length) := by
    rw [Frame.peek_eq_take, hf, List.take_append, List.take_of_length_le hmost]
  rw [Frame.readForm, hpeek, h.decode_encode, h.length_encode]

theorem gives_int (c : Terms) (v : Int32) : Gives c readInt (Varint.encode32 v) (· = v) := by
  rw [readInt, Frame.readInt_eq]
  exact gives_form c Varint.grouped32.lawful v

theorem gives_long (c : Terms) (v : Int64) : Gives c readLong (Varint.encode64 v) (· = v) := by
  rw [readLong, Frame.readLong_eq]
  exact gives_form c Varint.grouped64.lawful v

/-! ## Lengths -/

theorem toInt_ofNat {n : Nat} (h : n ≤ 2147483647) : (Int32.ofNat n).toInt = n := by
  have := Int32.toInt_ofNat' (n := n)
  rw [this, Int.bmod_eq_of_le] <;> simp only [Int32.size] <;> omega

theorem decodeLength_ofNat (kind : String) {n : Nat} (h : n ≤ 2147483647) :
    decodeLength kind (Int32.ofNat n) = .ok (some n) := by
  have hn := toInt_ofNat h
  have hne : Int32.ofNat n ≠ nullLength := by
    intro he
    rw [he] at hn
    have h1 : nullLength.toInt = -1 := by decide
    omega
  have hlt : ¬ Int32.ofNat n < 0 := by
    rw [Int32.lt_iff_toInt_lt, hn]
    have h0 : (0 : Int32).toInt = 0 := by decide
    omega
  rw [decodeLength, if_neg hne, if_neg hlt, hn]
  rfl

/-- a length that is small enough, with enough bytes behind it -/
theorem Gives.length {kind : String} {size len : Nat} {n : Option Nat → Reading β} {R : β → Prop}
    (hmax : len ≤ c.maxLength) (hlen : len ≤ 2147483647) (hroom : len * size ≤ cs.length)
    (hn : Gives c (n (some len)) cs R) :
    Gives c (readLength kind size >>= n) (Fixed.bytes c.order.swap (Int32.ofNat len) ++ cs) R := by
  intro r rest hr
  rw [List.append_assoc] at hr
  obtain ⟨_, s, ha, hs, rfl⟩ := gives_fixed c (Int32.ofNat len) r _ hr
  have hshow := hr.moved hs
  obtain ⟨b, t, hb, ht, hq⟩ := hn s rest hshow
  have hread : readLength kind size r = .ok (some len) s := by
    have hm : ¬ s.maxLength < len := by
      have : s.maxLength = c.maxLength := congrArg Terms.maxLength hshow.terms
      omega
    have hrem : ¬ s.remaining < len * size := by
      rw [hshow.remaining, List.length_append]
      omega
    rw [readLength, bind_eq, ha]
    simp only [decodeLength_ofNat kind hlen, ofExcept, pure_bind]
    rw [bind_eq]
    change (if s.maxLength < len then _ else if s.remaining < len * size then _ else _ : Reading (Option Nat)) s = _
    rw [if_neg hm, if_neg hrem]
    rfl
  refine ⟨b, t, by rw [bind_eq, hread]; exact hb, ?_, hq⟩
  rw [List.length_append]
  exact hs.trans ht

/-- the length of what is absent -/
theorem gives_absent (c : Terms) (kind : String) (size : Nat) :
    Gives c (readLength kind size) (Fixed.bytes c.order.swap nullLength) (· = none) := by
  unfold readLength
  apply (gives_fixed c nullLength).bind_nil
  intro raw hraw
  subst hraw
  exact .pure rfl

theorem gives_absentArray (c : Terms) (α : Type) [Fixed α] :
    Gives c (takeArray α) (Fixed.bytes c.order.swap nullLength) (· = none) :=
  (gives_absent c _ _).bind_nil fun n hn => by rw [hn]; exact .pure rfl

theorem gives_array {α : Type} [Fixed α] {c : Terms} {vs : List α} (hmax : vs.length ≤ c.maxLength)
    (hlen : vs.length ≤ 2147483647) :
    Gives c (takeArray α) (Fixed.bytes c.order.swap (Int32.ofNat vs.length) ++ Fixed.run c.order.swap vs)
      (· = some vs) := by
  have hrun := Fixed.length_run c.order.swap vs
  refine Gives.length hmax hlen (Nat.le_of_eq hrun.symm) ?_
  have ht := gives_take c (Fixed.run c.order.swap vs)
  rw [hrun] at ht
  apply ht.bind_nil
  intro bs hbs
  apply Gives.get
  intro r hr
  have ho : r.order = c.order := congrArg Terms.order hr
  rw [hbs, ho, Fixed.decodeSlice_run]
  exact .pure rfl

theorem gives_byteArray {bs : Bytes} (hmax : bs.length ≤ c.maxLength) (hlen : bs.length ≤ 2147483647) :
    Gives c readByteArray (Fixed.bytes c.order.swap (Int32.ofNat bs.length) ++ bs) (· = some bs) :=
  Gives.length hmax hlen (by omega) ((gives_take c bs).map fun _ h => congrArg some h)

theorem gives_booleanArray {vs : List Bool} (hmax : vs.length ≤ c.maxLength) (hlen : vs.length ≤ 2147483647) :
    Gives c readBooleanArray (Fixed.bytes c.order.swap (Int32.ofNat vs.length) ++ boolBytes vs) (· = some vs) := by
  have hl : (boolBytes vs).length = vs.length := List.length_map ..
  refine Gives.length hmax hlen (by omega) ?_
  have ht := gives_take c (boolBytes vs)
  rw [hl] at ht
  apply ht.bind_nil
  intro bs hbs
  have hd : decodeBools bs vs.length = some vs := by
    rw [hbs, ← List.append_nil (boolBytes vs), decodeBools_boolBytes]
  rw [hd]
  exact .pure rfl

theorem decode_encode_utf8 (s : String) : Utf8.decode? (Utf8.encode s) = some s := by
  have hb : (Utf8.encode s).toByteArray = s.toUTF8 := by
    rw [Utf8.encode]
    ext1
    simp
  rw [Utf8.decode?, hb, String.fromUTF8?]
  exact dif_pos s.isValidUTF8

theorem gives_string {s : String} (hmax : (Utf8.encode s).length ≤ c.maxLength)
    (hlen : (Utf8.encode s).length ≤ 2147483647) :
    Gives c readString (Fixed.bytes c.order.swap (Int32.ofNat (Utf8.encode s).length) ++ Utf8.encode s)
      (· = some s) := by
  refine Gives.length hmax hlen (by omega) ((gives_take c _).bind_nil fun bs hbs => ?_)
  rw [hbs, decode_encode_utf8]
  exact .pure rfl

theorem trim_of_trimmed {ws : List UInt64} (h : ws.getLast? ≠ some 0) : BitSet.trim ws = ws := by
  rw [BitSet.trim, ← List.head?_reverse] at *
  rw [List.dropWhile_eq_self_iff.2, List.reverse_reverse]
  intro hl
  rw [List.head?_eq_getElem?, List.getElem?_eq_getElem hl] at h
  simpa using h

theorem gives_bitSet {s : BitSet} (hmax : s.words.length ≤ c.maxLength) (hlen : s.words.length ≤ 2147483647) :
    Gives c readBitSet
      (Fixed.bytes c.order.swap (Int32.ofNat s.words.length) ++ Fixed.run c.order.swap s.words) (· = some s) := by
  apply (gives_array hmax hlen).bind_nil
  intro ws hws
  subst hws
  refine .pure (congrArg some ?_)
  obtain ⟨ws, h⟩ := s
  simp only [BitSet.ofWords, BitSet.mk.injEq]
  exact trim_of_trimmed h

theorem gives_halves (c : Terms) (v : Uuid) :
    Gives c readHalves (Varint.encode64 v.most.toInt64 ++ Varint.encode64 v.least.toInt64) (· = v) := by
  apply (gives_long c v.most.toInt64).bind
  intro most hmost
  apply (gives_long c v.least.toInt64).map
  intro least hleast
  rw [hmost, hleast, UInt64.toUInt64_toInt64, UInt64.toUInt64_toInt64]

/-- the byte in front of an identifier -/
theorem gives_boolean (c : Terms) (b : Bool) : Gives c readBoolean [if b then 1 else 0] (· = b) := by
  apply (gives_byte c _).map
  intro v hv
  rw [hv]
  cases b <;> decide

theorem gives_uuid (c : Terms) (v : Uuid) :
    Gives c readUuid ([0] ++ (Varint.encode64 v.most.toInt64 ++ Varint.encode64 v.least.toInt64)) (· = some v) := by
  apply (gives_boolean c false).bind
  intro b hb
  rw [hb]
  exact (gives_halves c v).map fun _ h => congrArg some h

theorem gives_extendedUuid (c : Terms) (v : ExtendedUuid) :
    Gives c readExtendedUuid
      ([0] ++ (Varint.encode64 v.globalId.most.toInt64 ++ Varint.encode64 v.globalId.least.toInt64 ++
        Varint.encode64 v.localId)) (· = some v) := by
  apply (gives_boolean c false).bind
  intro b hb
  rw [hb]
  apply (gives_halves c v.globalId).bind
  intro g hg
  apply (gives_long c v.localId).map
  intro l hl
  rw [hg, hl]

/-! ## Opaque objects -/

theorem gives_upTo (c : Terms) (bs : Bytes) : Gives c (readUpTo bs.length) bs (· = bs) := by
  intro r rest hr
  have hp : r.frame.peek bs.length = bs := by rw [Frame.peek_eq_take, hr.window, List.take_left]
  refine ⟨bs, { r with frame := r.frame.setPosition (r.position + bs.length) }, ?_, ⟨rfl, rfl, hr.clear, rfl⟩, rfl⟩
  simp only [readUpTo, hp]

/-- an object whose decoder takes its bytes; the session goes on right behind it -/
theorem gives_objectWith {α : Type} {d : Decoder α} {a : α} (hmax : bs.length ≤ c.maxLength)
    (hlen : bs.length ≤ 2147483647) (hd : (d.run bs).1 = some a) :
    Gives c (readObjectWith d) (Fixed.bytes c.order.swap (Int32.ofNat bs.length) ++ bs) (· = a) := by
  rw [readObjectWith_eq]
  apply Gives.length hmax hlen (by omega)
  intro r rest hr
  refine ⟨a, r.advance bs.length, ?_, ⟨rfl, rfl, hr.clear, rfl⟩, rfl⟩
  simp only [objectOf, hr.window, List.take_left, hd, verdict]

end Reader

end Courier
