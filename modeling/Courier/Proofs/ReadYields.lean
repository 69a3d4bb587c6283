import Courier.Proofs.LevelsCleared
import Courier.Proofs.Retrieve

/-!
What a read that came to an answer has taken, and what it would take to write the answer.

Readers accept more than writers emit: numbers with groups to spare, any byte but zero for true or for an absent
identifier, sets with zero words at their end. An act `Yields` something if, wherever it comes to an answer, the answer
and the number of bytes that were taken for it are as said; acts in a row add up what they take. Of each leaf that holds
a datum it is shown that the datum goes through when it is written, as `Layout.Slim` says, and puts out no more bytes
than were taken.

`Reader.yields_datum`: the same of data of all kinds.
-/

namespace Courier

open Writer

/-! ## Sizes -/

theorem BitSet.length_trim_le (ws : List UInt64) : (trim ws).length ≤ ws.length := by
  rw [trim, List.length_reverse]
  exact (List.length_dropWhile_le ..).trans_eq List.length_reverse

/-- a length off the wire is one that can travel again -/
theorem decodeLength_le {kind : String} {raw : Int32} {len : Nat} (h : decodeLength kind raw = .ok (some len)) :
    len ≤ 2147483647 := by
  unfold decodeLength at h
  split at h
  · cases h
  · split at h
    · cases h
    · obtain rfl := Option.some.inj (Except.ok.inj h)
      have := raw.toInt_lt
      omega

theorem encode_decode_utf8 {bs : Bytes} {s : String} (h : Utf8.decode? bs = some s) : Utf8.encode s = bs := by
  unfold Utf8.decode? String.fromUTF8? at h
  split at h
  · obtain rfl := Option.some.inj h
    change bs.toByteArray.data.toList = bs
    rw [List.data_toByteArray]
  · cases h

/-- a layout that goes through and puts out no more than `n` bytes -/
structure Layout.Slim (order : ByteOrder) (l : Layout) (n : Nat) : Prop where
  result : l.result = .ok ()
  length_le : (l.output order).bytes.length ≤ n

namespace Layout

variable {order : ByteOrder} {l : Layout} {n k : Nat}

theorem Slim.mono (h : l.Slim order n) (hk : n ≤ k) : l.Slim order k :=
  ⟨h.result, h.length_le.trans hk⟩

theorem slim_done : done.Slim order 0 :=
  ⟨rfl, Nat.le_refl _⟩

theorem Slim.put {room : Nat} {bs : Bytes} {fits : bs.length ≤ room} (h : l.Slim order n) (hb : bs.length ≤ k) :
    (put room bs fits l).Slim order (k + n) := by
  refine ⟨h.result, ?_⟩
  rw [output, Output.bytes_append, List.length_append]
  exact Nat.add_le_add hb h.length_le

theorem Slim.fixed {α : Type} [Fixed α] {v : α} (h : l.Slim order n) : (fixed order v l).Slim order (Fixed.size α + n) :=
  h.put (Nat.le_of_eq (Fixed.length_bytes ..))

theorem Slim.long {v : Int64} (h : l.Slim order n) : (long v l).Slim order ((Varint.encode64 v).length + n) :=
  h.put (Nat.le_refl _)

theorem Slim.uuid {v : Uuid} (h : l.Slim order n) : (uuid v l).Slim order
    (1 + ((Varint.encode64 v.most.toInt64).length + ((Varint.encode64 v.least.toInt64).length + n))) :=
  h.long.long.put (Nat.le_refl _)

theorem Slim.count {len : Nat} (h : l.Slim order n) (hlen : len ≤ 2147483647) :
    (count order len l).Slim order (lengthPrefixSize + n) := by
  unfold Layout.count
  rw [encodeLength, if_pos hlen]
  exact h.fixed

theorem slim_array {α : Type} [Fixed α] {vs : List α} (hlen : vs.length ≤ 2147483647) :
    (array order vs).Slim order (lengthPrefixSize + vs.length * Fixed.size α) :=
  (slim_done.put (Nat.le_of_eq (Fixed.length_run ..))).count hlen

theorem slim_byteArray {bs : Bytes} (hlen : bs.length ≤ 2147483647) :
    (byteArray order bs).Slim order (lengthPrefixSize + bs.length) :=
  (slim_done.put (Nat.le_refl _)).count hlen

end Layout

namespace Reader

variable {α β : Type}

/-- `s` comes after `r`, with `n` bytes taken -/
structure Took (r s : Reader) (n : Nat) : Prop where
  frame : s.frame = r.frame.setPosition (r.position + n)
  terms : s.terms = r.terms

theorem Took.refl (r : Reader) : Took r r 0 :=
  ⟨rfl, rfl⟩

theorem Took.trans {r s t : Reader} {m n : Nat} (h : Took r s m) (k : Took s t n) : Took r t (m + n) where
  frame := by
    rw [k.frame, position, h.frame, ← Nat.add_assoc]
    rfl
  terms := k.terms.trans h.terms

/-- where the act comes to an answer, the answer and the number of bytes taken for it are like this -/
def Yields (c : Terms) (act : Reading α) (Q : α → Nat → Prop) : Prop :=
  ∀ r a s, r.terms = c → act r = .ok a s → ∃ n, Took r s n ∧ Q a n

namespace Yields

variable {c : Terms} {act : Reading α} {P Q : α → Nat → Prop}

theorem pure {a : α} (h : Q a 0) : Yields c (Pure.pure a) Q := by
  intro r b s _ hs
  cases hs
  exact ⟨0, .refl r, h⟩

theorem mono (h : Yields c act P) (hQ : ∀ a n, P a n → Q a n) : Yields c act Q := by
  intro r a s hr hs
  obtain ⟨n, ht, ha⟩ := h r a s hr hs
  exact ⟨n, ht, hQ a n ha⟩

/-- an act that comes to no answer -/
theorem of_error (h : ∀ r a s, act r ≠ .ok a s) : Yields c act Q :=
  fun r a s _ hs => absurd hs (h r a s)

theorem refuse (e : WireError) : Yields c (Reader.refuse e : Reading α) Q :=
  of_error fun _ _ _ h => by cases h

theorem panic : Yields c (throw .panic : Reading α) Q :=
  of_error fun _ _ _ h => by cases h

theorem bind {next : α → Reading β} {R : β → Nat → Prop} (h : Yields c act P)
    (hn : ∀ a n, P a n → Yields c (next a) fun b k => R b (n + k)) : Yields c (act >>= next) R := by
  intro r b t hr ht
  obtain ⟨a, s, hact, ht⟩ := bind_ok.1 ht
  obtain ⟨n, hs, ha⟩ := h r a s hr hact
  obtain ⟨k, hk, hb⟩ := hn a n ha s b t (hs.terms.trans hr) ht
  exact ⟨n + k, hs.trans hk, hb⟩

theorem map {f : α → β} {R : β → Nat → Prop} (h : Yields c act P) (hf : ∀ a n, P a n → R (f a) n) :
    Yields c (do return f (← act)) R :=
  h.bind fun a n ha => .pure (hf a n ha)

/-- an act that asks for the session -/
theorem get {next : Reader → Reading β} {R : β → Nat → Prop}
    (h : ∀ r : Reader, r.terms = c → Yields c (next r) R) : Yields c (do next (← MonadState.get)) R := by
  intro r a s hr hs
  exact h r hr r a s hr hs

end Yields

/-! ## Leaves -/

variable {c : Terms}

theorem yields_take (m : Nat) : Yields c (take m) fun bs n => bs.length = m ∧ n = m := by
  intro r bs s _ hs
  unfold take at hs
  split at hs
  · cases hs
  · cases hslice : r.frame.slice? m with
    | none => simp [hslice] at hs
    | some cs =>
      simp only [hslice, EStateM.Result.ok.injEq] at hs
      obtain ⟨rfl, rfl⟩ := hs
      refine ⟨m, ⟨rfl, rfl⟩, ?_, rfl⟩
      unfold Frame.slice? at hslice
      split at hslice
      · rename_i h
        obtain rfl := Option.some.inj hslice
        rw [Frame.cut_eq, List.length_take, List.length_drop, Frame.length_data]
        omega
      · cases hslice

theorem yields_fixed (α : Type) [Fixed α] : Yields c (takeFixed α) fun _ n => n = Fixed.size α := by
  apply (yields_take _).bind
  rintro bs n ⟨-, rfl⟩
  refine .get fun r _ => ?_
  cases (Fixed.readFixed bs r.order.swap : Option α) with
  | none => exact .panic
  | some v => exact .pure rfl

/-- a length that may travel again, and does not go beyond the largest one -/
theorem yields_length (kind : String) (size : Nat) :
    Yields c (readLength kind size) fun o n => n = lengthPrefixSize ∧
      ∀ len, o = some len → len ≤ c.maxLength ∧ len ≤ 2147483647 := by
  apply (yields_fixed Int32).bind
  rintro raw n rfl
  cases hd : decodeLength kind raw with
  | error e => exact (Yields.refuse (Q := fun _ _ => False) e).bind fun _ _ h => h.elim
  | ok o =>
    apply (Yields.pure (Q := fun a n => a = o ∧ n = 0) ⟨rfl, rfl⟩).bind
    rintro a n ⟨rfl, rfl⟩
    cases a with
    | none => exact .pure ⟨rfl, fun _ h => by cases h⟩
    | some len =>
      refine .get fun r hr => ?_
      have hmax : r.maxLength = c.maxLength := congrArg Terms.maxLength hr
      by_cases hl : r.maxLength < len
      · rw [if_pos hl]
        exact .refuse _
      · rw [if_neg hl]
        split
        · exact .refuse _
        · refine .pure ⟨rfl, fun len' h => ?_⟩
          obtain rfl := Option.some.inj h
          exact ⟨by omega, decodeLength_le hd⟩

/-- an act on a length, and on nothing where it was absent -/
theorem yields_counted {kind : String} {size : Nat} {next : Option Nat → Reading α} {Q : α → Nat → Prop}
    (hnone : Yields c (next none) fun a n => Q a (lengthPrefixSize + n))
    (hsome : ∀ len, len ≤ c.maxLength → len ≤ 2147483647 →
      Yields c (next (some len)) fun a n => Q a (lengthPrefixSize + n)) :
    Yields c (readLength kind size >>= next) Q := by
  apply (yields_length kind size).bind
  rintro o n ⟨rfl, ho⟩
  cases o with
  | none => exact hnone
  | some len => exact hsome len (ho len rfl).1 (ho len rfl).2

theorem yields_onFrame {read : Frame → Except WireError (α × Frame)} {Q : α → Nat → Prop}
    (h : ∀ f a g, read f = .ok (a, g) → ∃ n, g = f.setPosition (f.position + n) ∧ Q a n) :
    Yields c (onFrame read) Q := by
  intro r a s _ hs
  unfold onFrame at hs
  cases hread : read r.frame with
  | error e => simp [hread] at hs
  | ok x =>
    obtain ⟨b, g⟩ := x
    simp only [hread, EStateM.Result.ok.injEq] at hs
    obtain ⟨rfl, rfl⟩ := hs
    obtain ⟨n, rfl, hQ⟩ := h _ _ _ hread
    exact ⟨n, ⟨rfl, rfl⟩, hQ⟩

theorem yields_byte : Yields c readByte fun _ n => n = 1 := by
  apply yields_onFrame
  intro f a g h
  unfold Frame.readByte at h
  cases hp : f.peek 1 with
  | nil => simp [hp] at h
  | cons b bs =>
    simp only [hp, Except.ok.injEq, Prod.mk.injEq] at h
    exact ⟨1, h.2.symm, rfl⟩

/-- a number is written in no more groups than it was read with -/
theorem yields_form {form : Varint.Form α} (h : form.Lawful) :
    Yields c (onFrame (Frame.readForm form)) fun v n => (form.encode v).length ≤ n := by
  apply yields_onFrame
  intro f v g hread
  obtain ⟨n, hd, rfl⟩ := Frame.readForm_ok hread
  exact ⟨n, rfl, (h.length_encode v).trans_le (h.shortest _ _ _ hd)⟩

theorem yields_int : Yields c readInt fun v n => (Varint.encode32 v).length ≤ n := by
  rw [readInt, Frame.readInt_eq]
  exact yields_form Varint.grouped32.lawful

theorem yields_long : Yields c readLong fun v n => (Varint.encode64 v).length ≤ n := by
  rw [readLong, Frame.readLong_eq]
  exact yields_form Varint.grouped64.lawful

theorem yields_boolean : Yields c readBoolean fun _ n => n = 1 :=
  yields_byte.map fun _ _ h => h

/-- numbers of fixed width: as many as were counted -/
theorem yields_array (α : Type) [Fixed α] :
    Yields c (takeArray α) fun o n => match o with
      | none => n = lengthPrefixSize
      | some vs => vs.length ≤ c.maxLength ∧ vs.length ≤ 2147483647 ∧ n = lengthPrefixSize + vs.length * Fixed.size α := by
  refine yields_counted (.pure rfl) fun len hmax hlen => (yields_take _).bind ?_
  rintro bs n ⟨hbs, rfl⟩
  refine .get fun r _ => ?_
  cases hd : (Fixed.decodeSlice bs len r.order.swap : Option (List α)) with
  | none => exact .panic
  | some vs =>
    obtain rfl := Fixed.length_decodeSlice hd
    exact .pure ⟨hmax, hlen, rfl⟩

theorem yields_byteArray :
    Yields c readByteArray fun o n => match o with
      | none => n = lengthPrefixSize
      | some bs => bs.length ≤ c.maxLength ∧ bs.length ≤ 2147483647 ∧ n = lengthPrefixSize + bs.length := by
  refine yields_counted (.pure rfl) fun len hmax hlen => (yields_take len).map ?_
  rintro bs n ⟨rfl, rfl⟩
  exact ⟨hmax, hlen, rfl⟩

theorem yields_booleanArray :
    Yields c readBooleanArray fun o n => match o with
      | none => n = lengthPrefixSize
      | some vs => vs.length ≤ c.maxLength ∧ vs.length ≤ 2147483647 ∧ n = lengthPrefixSize + vs.length := by
  refine yields_counted (.pure rfl) fun len hmax hlen => (yields_take len).bind ?_
  rintro bs n ⟨rfl, rfl⟩
  rw [decodeBools, if_pos (Nat.le_refl _)]
  refine .pure ?_
  simp only [List.length_map, List.length_take, Nat.min_self]
  exact ⟨hmax, hlen, rfl⟩

theorem yields_string :
    Yields c readString fun o n => match o with
      | none => n = lengthPrefixSize
      | some s => (Utf8.encode s).length ≤ c.maxLength ∧ (Utf8.encode s).length ≤ 2147483647 ∧
          n = lengthPrefixSize + (Utf8.encode s).length := by
  refine yields_counted (.pure rfl) fun len hmax hlen => (yields_take len).bind ?_
  rintro bs n ⟨rfl, rfl⟩
  cases hd : Utf8.decode? bs with
  | none => exact .refuse _
  | some s =>
    rw [← encode_decode_utf8 hd] at hmax hlen ⊢
    exact .pure ⟨hmax, hlen, rfl⟩

/-- the halves of an identifier: as numbers, they are written with no more groups than they were read with -/
theorem yields_halves :
    Yields c readHalves fun v n =>
      (Varint.encode64 v.most.toInt64).length + (Varint.encode64 v.least.toInt64).length ≤ n := by
  refine yields_long.bind fun most n hn => yields_long.bind fun least k hk => .pure ?_
  simp only [Int64.toInt64_toUInt64]
  omega

/-! ## Data -/

/-- a datum of the kind `t` that can be written again and read again, and that puts out no more than `n` bytes; or none,
where one may be absent -/
def SlimDatum (c : Terms) (t : ItemType) (o : Option Datum) (n : Nat) : Prop :=
  match o with
  | none => t ≠ .message → t.isNullable = true ∧ (t.absentLayout c.order).Slim c.order n
  | some d => d.itemType = t ∧ d.count ≤ c.maxLength ∧ (d.layout c.order).Slim c.order n

/-- where a count says so, no datum is there -/
theorem slimDatum_noLength {t : ItemType} {n : Nat} (ht : t.isNullable = true)
    (hl : t.absentLayout c.order = .fixed c.order nullLength .done) (hn : n = lengthPrefixSize) : SlimDatum c t none n :=
  fun _ => ⟨ht, by rw [hl, hn]; exact Layout.slim_done.fixed⟩

theorem slimDatum_noIdentifier {t : ItemType} {n : Nat} (ht : t.isNullable = true)
    (hl : t.absentLayout c.order = .bytes [1] .done) (hn : n = 1) : SlimDatum c t none n :=
  fun _ => ⟨ht, by rw [hl, hn]; exact Layout.slim_done.put (Nat.le_refl _)⟩

/-- **Whatever is read of a datum can be written again**, as it is, with no more bytes than were taken for it. -/
theorem yields_datum (t : ItemType) : Yields c (readDatum t) (SlimDatum c t) := by
  cases t with
  | message => exact .pure fun h => absurd rfl h
  | byte => exact yields_byte.map fun v n hn => ⟨rfl, Nat.zero_le _, hn ▸ Layout.slim_done.put (Nat.le_refl _)⟩
  | boolean => exact yields_boolean.map fun v n hn => ⟨rfl, Nat.zero_le _, hn ▸ Layout.slim_done.put (Nat.le_refl _)⟩
  | short | float | double | char =>
    exact (yields_fixed _).map fun v n hn => ⟨rfl, Nat.zero_le _, hn ▸ Layout.slim_done.fixed⟩
  | int => exact yields_int.map fun v n hn => ⟨rfl, Nat.zero_le _, Layout.slim_done.put hn⟩
  | long => exact yields_long.map fun v n hn => ⟨rfl, Nat.zero_le _, Layout.slim_done.put hn⟩
  | shortArray | intArray | longArray | floatArray | doubleArray | charArray =>
    refine (yields_array _).map fun o n hn => ?_
    cases o with
    | none => exact slimDatum_noLength rfl rfl hn
    | some vs => exact ⟨rfl, hn.1, hn.2.2 ▸ Layout.slim_array hn.2.1⟩
  | byteArray =>
    refine yields_byteArray.map fun o n hn => ?_
    cases o with
    | none => exact slimDatum_noLength rfl rfl hn
    | some vs => exact ⟨rfl, hn.1, hn.2.2 ▸ Layout.slim_byteArray hn.2.1⟩
  | booleanArray =>
    refine yields_booleanArray.map fun o n hn => ?_
    cases o with
    | none => exact slimDatum_noLength rfl rfl hn
    | some vs =>
      exact ⟨rfl, hn.1, hn.2.2 ▸ (Layout.slim_done.put (Nat.le_of_eq (List.length_map ..))).count hn.2.1⟩
  | string =>
    refine yields_string.map fun o n hn => ?_
    cases o with
    | none => exact slimDatum_noLength rfl rfl hn
    | some s => exact ⟨rfl, hn.1, hn.2.2 ▸ Layout.slim_byteArray hn.2.1⟩
  | bitSet =>
    have hset : Yields c readBitSet fun o n => match o with
        | none => n = lengthPrefixSize
        | some s => s.words.length ≤ c.maxLength ∧ s.words.length ≤ 2147483647 ∧
            lengthPrefixSize + s.words.length * Fixed.size UInt64 ≤ n := by
      refine (yields_array UInt64).bind fun o n hn => ?_
      cases o with
      | none => exact .pure hn
      | some ws =>
        have hle := BitSet.length_trim_le ws
        refine .pure ⟨hle.trans hn.1, hle.trans hn.2.1, ?_⟩
        rw [Nat.add_zero, hn.2.2]
        exact Nat.add_le_add_left (Nat.mul_le_mul_right _ hle) _
    refine hset.map fun o n hn => ?_
    cases o with
    | none => exact slimDatum_noLength rfl rfl hn
    | some s => exact ⟨rfl, hn.1, (Layout.slim_array hn.2.1).mono hn.2.2⟩
  | uuid =>
    have huuid : Yields c readUuid fun o n => SlimDatum c .uuid (o.map Datum.uuid) n := by
      refine yields_boolean.bind fun b n hn => ?_
      cases b with
      | true => exact .pure (slimDatum_noIdentifier rfl rfl hn)
      | false =>
        refine yields_halves.map fun v k hk => ⟨rfl, Nat.zero_le _, ?_⟩
        have hle : 1 + ((Varint.encode64 v.most.toInt64).length + ((Varint.encode64 v.least.toInt64).length + 0)) ≤ n + k := by
          omega
        exact Layout.slim_done.uuid.mono hle
    exact huuid.map fun o n hn => hn
  | extendedUuid =>
    have huuid : Yields c readExtendedUuid fun o n => SlimDatum c .extendedUuid (o.map Datum.extendedUuid) n := by
      refine yields_boolean.bind fun b n hn => ?_
      cases b with
      | true => exact .pure (slimDatum_noIdentifier rfl rfl hn)
      | false =>
        refine yields_halves.bind fun v k hk => yields_long.map fun w j hj => ⟨rfl, Nat.zero_le _, ?_⟩
        have hle : 1 + ((Varint.encode64 v.most.toInt64).length + ((Varint.encode64 v.least.toInt64).length +
            ((Varint.encode64 w).length + 0))) ≤ n + (k + j) := by
          omega
        exact Layout.slim_done.long.uuid.mono hle
    exact huuid.map fun o n hn => hn

/-! ## Messages -/

/-- a header, absent or known, takes two bytes -/
theorem yields_blueprint :
    Yields c readBlueprint fun o n => n = directTypeSize ∧
      ∀ b, o = some b → ∃ type, type ≠ nullMessageType ∧ c.factory type = some b := by
  refine (yields_fixed Int16).bind ?_
  rintro type n rfl
  split
  · exact .pure ⟨rfl, fun _ h => by cases h⟩
  · rename_i ht
    refine .get fun r hr => ?_
    have hf : r.factory = c.factory := congrArg Terms.factory hr
    rw [hf]
    cases hb : c.factory type with
    | none => exact .refuse _
    | some b =>
      refine .pure ⟨rfl, fun b' h => ?_⟩
      obtain rfl := Option.some.inj h
      exact ⟨type, ht, hb⟩

theorem Yields.below {α : Type} {act : Reading α} {Q : α → Nat → Prop} (h : Yields c act Q) :
    Yields c (Reader.below act) Q := by
  intro r a t hr ht
  obtain ⟨s, hact, rfl⟩ := below_ok ht
  obtain ⟨n, hs, hb⟩ := h (r.onNesting .forward) a s hr hact
  exact ⟨n, ⟨hs.frame, hs.terms⟩, hb⟩

theorem Yields.onLevel {act : Reading α} {Q : α → Nat → Prop} (h : Yields c act Q) : Yields c (Reader.onLevel act) Q := by
  intro r a t hr ht
  obtain ⟨s, hact, -, rfl⟩ := onLevel_ok ht
  obtain ⟨n, hs, ha⟩ := h r a s hr hact
  exact ⟨n, ⟨hs.frame, hs.terms⟩, ha⟩

/-! ## Any read -/

theorem yields_objectOf (d : Decoder α) (size : Nat) : Yields c (objectOf d size) fun _ n => n = size := by
  intro r a s _ hs
  unfold objectOf at hs
  cases hd : (d.run (r.frame.readable.take size)).1 with
  | none => simp [hd, verdict] at hs
  | some b =>
    rw [hd] at hs
    cases hs
    exact ⟨size, ⟨rfl, rfl⟩, rfl⟩

/-- the session goes on right behind an object -/
theorem yields_objectWith (d : Decoder α) : Yields c (readObjectWith d) fun _ n => lengthPrefixSize ≤ n := by
  rw [readObjectWith_eq]
  refine yields_counted (Yields.refuse _) fun size _ _ => ?_
  exact (yields_objectOf d size).mono fun _ n _ => Nat.le_add_right _ n

theorem yields_into (m : Nat) : Yields c (readInto m) fun bs n => n = bs.length := by
  unfold readInto
  split
  · intro r bs s _ hs
    cases hs
    exact ⟨_, ⟨rfl, rfl⟩, rfl⟩
  · exact .panic

theorem yields_probe (p : Probe) : Yields c (probe p) fun _ n => n = 0 := by
  cases p <;> exact .get fun _ _ => .pure rfl

/-- an act that does nothing to the frame but take bytes from it, wherever it comes to an answer -/
def Consumes (act : Reading α) : Prop :=
  ∀ c, Yields c act fun _ _ => True

namespace Consumes

theorem of_yields {act : Reading α} {Q : Terms → α → Nat → Prop} (h : ∀ c, Yields c act (Q c)) : Consumes act :=
  fun c => (h c).mono fun _ _ _ => trivial

theorem leaves : Leaves Consumes where
  pure _ _ := .pure trivial
  bind h hn c := (h c).bind fun a _ _ => hn a c
  refuse e _ := .refuse e
  byte := of_yields fun _ => yields_byte
  int := of_yields fun _ => yields_int
  long := of_yields fun _ => yields_long
  fixed α _ _ := of_yields fun _ => yields_fixed α
  length kind size := of_yields fun _ => yields_length kind size
  array α _ := of_yields fun _ => yields_array α
  byteArray := of_yields fun _ => yields_byteArray
  booleanArray := of_yields fun _ => yields_booleanArray
  string := of_yields fun _ => yields_string
  object _ := of_yields fun _ => yields_objectWith _
  probe p := of_yields fun _ => yields_probe p

theorem descends : Descends Consumes where
  toLeaves := leaves
  panic _ := .panic
  blueprint := of_yields fun _ => yields_blueprint
  into m := of_yields fun _ => yields_into m
  below h c := (h c).below
  onLevel h c := (h c).onLevel

end Consumes

end Reader

end Courier
