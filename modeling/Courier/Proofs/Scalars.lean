import Courier.Proofs.Groups
import Courier.Proofs.Opaque
import Courier.Proofs.Words

/-!
Reads that take a number whole or not at all.

A number takes a fixed number of bytes or a row of groups. Where one stands at the start of the window, it is read, and
the position moves on by just its bytes, which end at the limit at the latest; where none does, nothing moves, and the
refusal says where the frame stands and asks for more bytes than there are up to the limit. `Numeral.Outcome` is what a
read may come to; the position may lie anywhere, past the limit and past the data too.

What has a length or a count in front is refused before it, or right behind it: once the count is taken, the bytes it
speaks of are there. Only a text may still turn out to be none, and only the items of a container may be refused by
themselves.

`Frame.outcome_groups`, `Frame.outcome_byte`, `Reader.takes_fixed`: the ways that numbers come by.
`Reader.counted_error`: where a read with a count in front is refused.
`read_whole_or_nothing`: the main result.
-/

namespace Courier

/-- how far a number goes -/
inductive Width where
  /-- so many bytes -/
  | fixed (n : Nat)
  /-- a row of groups, so many at most -/
  | groups (most : Nat)
  deriving DecidableEq

/-- these bytes are a number of that width, all of it and nothing else -/
def Width.Whole : Width → Bytes → Prop
  | fixed n, bs => bs.length = n
  | groups most, bs => Varint.Row bs ∧ bs.length ≤ most

/-- a kind of number: how far it goes, and what its bytes stand for -/
structure Numeral (α : Type) where
  width : Width
  value : Bytes → α

namespace Numeral

variable {α β : Type}

/-- a number of fixed width -/
def fixed (α : Type) [Fixed α] (swap : Bool) : Numeral α :=
  ⟨.fixed (Fixed.size α), Fixed.value swap⟩

def byte : Numeral UInt8 :=
  ⟨.fixed 1, fun bs => bs.headD 0⟩

/-- a number of groups -/
def ofForm (form : Varint.Form α) : Numeral α :=
  ⟨.groups form.most, fun bs => form.value (Varint.number bs)⟩

/-- the same bytes, standing for something made of what they stand for -/
def map (n : Numeral α) (f : α → β) : Numeral β :=
  ⟨n.width, f ∘ n.value⟩

/-- what the read of a number may come to, with the frame that it leaves -/
inductive Outcome (n : Numeral α) (f : Frame) : Except WireError α → Frame → Prop
  /-- the number stands at the start of the window -/
  | whole {bs rest : Bytes} (hwindow : f.readable = bs ++ rest) (hwhole : n.width.Whole bs)
      (hlimit : f.position + bs.length ≤ f.limit) :
      Outcome n f (.ok (n.value bs)) (f.setPosition (f.position + bs.length))
  /-- no number stands there whole, and more bytes are asked for than there are up to the limit -/
  | short {needed : Nat} (hnone : ∀ bs rest, f.readable = bs ++ rest → ¬ n.width.Whole bs)
      (hneeded : f.limit < f.position + needed) :
      Outcome n f (.error (.bufferUnderflow f.position needed f.limit)) f
  /-- a row of groups goes on for too long -/
  | malformed {most : Nat} (hwidth : n.width = .groups most) (hlength : most ≤ f.readable.length)
      (hall : ∀ b ∈ f.readable.take most, Varint.continues b = true) : Outcome n f (.error .malformedVarint) f

theorem Outcome.map {n : Numeral α} {f g : Frame} {x : Except WireError α} (h : n.Outcome f x g) (k : α → β) :
    (n.map k).Outcome f (x.map k) g := by
  cases h with
  | whole hwindow hwhole hlimit => exact .whole (n := n.map k) hwindow hwhole hlimit
  | short hnone hneeded => exact .short hnone hneeded
  | malformed hwidth hlength hall => exact .malformed hwidth hlength hall

end Numeral

theorem Varint.Row.exists_last {gs : Bytes} (h : Row gs) : ∃ b ∈ gs, continues b = false := by
  induction h with
  | last h => exact ⟨_, List.mem_cons_self, h⟩
  | more _ _ ih =>
    obtain ⟨b, hb, hlast⟩ := ih
    exact ⟨b, List.mem_cons_of_mem _ hb, hlast⟩

namespace Frame

variable {f : Frame}

/-- bytes that the window shows end at the limit at the latest -/
theorem limit_of_available {n : Nat} (hn : 0 < n) (h : n ≤ f.available) : f.position + n ≤ f.limit := by
  unfold available at h
  split at h <;> omega

/-- more bytes than the window shows go past the limit -/
theorem limit_lt_of_available (hf : f.limit ≤ f.extent) {n : Nat} (h : f.available < n) : f.limit < f.position + n := by
  unfold available at h
  split at h <;> omega

theorem outcome_groups (hf : f.limit ≤ f.extent) {α : Type} {form : Varint.Form α} (h : form.Lawful) :
    ∃ x g, (Numeral.ofForm form).Outcome f x g ∧ f.readForm form = x.map fun v => (v, g) := by
  have hpeek : f.peek form.most = f.readable.take form.most := f.peek_eq_take _
  unfold readForm
  cases hd : form.decode (f.peek form.most) with
  | ok r =>
    obtain ⟨v, n⟩ := r
    obtain ⟨gs, rest, hgs, hrow, hmost, rfl, rfl⟩ := (h.decode_eq_ok_iff _ _ _).1 hd
    have hwindow : f.readable = gs ++ (rest ++ f.readable.drop form.most) := by
      rw [← List.append_assoc, ← hgs, hpeek, List.take_append_drop]
    have hin : gs.length ≤ f.available := by
      have := congrArg List.length hwindow
      rw [length_readable, List.length_append] at this
      omega
    exact ⟨_, _, .whole (n := Numeral.ofForm form) hwindow ⟨hrow, hmost⟩ (limit_of_available hrow.length_pos hin), rfl⟩
  | error e =>
    rcases h.refusals _ _ hd with rfl | rfl
    · obtain ⟨hlen, hall⟩ := (h.malformed_iff _).1 hd
      rw [hpeek, List.length_take] at hlen
      rw [hpeek, List.take_take, Nat.min_self] at hall
      exact ⟨_, _, .malformed rfl (by omega) hall, rfl⟩
    · obtain ⟨hlen, hall⟩ := (h.underflow_iff _).1 hd
      -- fewer bytes were shown than a reader takes, so they are all there are
      rw [hpeek, List.length_take] at hlen
      have hwindow : f.peek form.most = f.readable := by rw [hpeek, List.take_of_length_le (by omega)]
      rw [hwindow] at hall ⊢
      refine ⟨_, _, .short (fun bs rest hbs hwhole => ?_) ?_, rfl⟩
      · obtain ⟨b, hb, hlast⟩ := hwhole.1.exists_last
        rw [hall b (by rw [hbs]; exact List.mem_append_left _ hb)] at hlast
        cases hlast
      · exact limit_lt_of_available hf (by rw [length_readable]; exact Nat.lt_succ_self _)

theorem outcome_int (hf : f.limit ≤ f.extent) :
    ∃ x g, (Numeral.ofForm Varint.form32).Outcome f x g ∧ f.readInt = x.map fun v => (v, g) := by
  rw [readInt_eq]
  exact outcome_groups hf Varint.grouped32.lawful

theorem outcome_long (hf : f.limit ≤ f.extent) :
    ∃ x g, (Numeral.ofForm Varint.form64).Outcome f x g ∧ f.readLong = x.map fun v => (v, g) := by
  rw [readLong_eq]
  exact outcome_groups hf Varint.grouped64.lawful

theorem outcome_byte (hf : f.limit ≤ f.extent) :
    ∃ x g, Numeral.byte.Outcome f x g ∧ f.readByte = x.map fun v => (v, g) := by
  have hpeek : f.peek 1 = f.readable.take 1 := f.peek_eq_take 1
  unfold readByte
  cases hw : f.readable with
  | nil =>
    rw [hpeek, hw]
    have hav : f.available = 0 := by rw [← length_readable, hw]; rfl
    refine ⟨_, _, .short (fun bs rest hbs hwhole => ?_) (limit_lt_of_available hf (by omega)), rfl⟩
    obtain ⟨rfl, -⟩ := List.append_eq_nil_iff.1 (hbs.symm.trans hw)
    cases hwhole
  | cons b rest =>
    rw [hpeek, hw]
    have hin : 1 ≤ f.available := by
      rw [← length_readable, hw]
      exact Nat.succ_le_succ (Nat.zero_le _)
    have hwhole : Numeral.byte.Outcome f (.ok (Numeral.byte.value [b])) (f.setPosition (f.position + [b].length)) :=
      .whole hw rfl (limit_of_available Nat.one_pos hin)
    exact ⟨_, _, hwhole, rfl⟩

end Frame

namespace Reader

variable {α β : Type} {r : Reader}

/-- an answer or a refusal, as an act comes to it -/
def answered (r : Reader) : Except WireError α → EStateM.Result Fault Reader α
  | .ok a => .ok a r
  | .error e => .error (.error e) r

/-- an act that reads such a number from the window of the session -/
def Takes (n : Numeral α) (act : Reading α) (r : Reader) : Prop :=
  ∃ x g, n.Outcome r.frame x g ∧ act r = answered { r with frame := g } x

theorem Takes.map {n : Numeral α} {act : Reading α} (h : Takes n act r) (k : α → β) :
    Takes (n.map k) (do return k (← act)) r := by
  obtain ⟨x, g, ho, hact⟩ := h
  refine ⟨x.map k, g, ho.map k, ?_⟩
  rw [bind_eq, hact]
  cases x <;> rfl

theorem takes_onFrame {n : Numeral α} {read : Frame → Except WireError (α × Frame)}
    (h : ∃ x g, n.Outcome r.frame x g ∧ read r.frame = x.map fun v => (v, g)) : Takes n (onFrame read) r := by
  obtain ⟨x, g, ho, hread⟩ := h
  refine ⟨x, g, ho, ?_⟩
  rw [onFrame, hread]
  cases ho <;> rfl

section Limit

variable (hr : r.frame.limit ≤ r.frame.extent)

include hr

theorem takes_fixed (α : Type) [Fixed α] (hpos : 0 < Fixed.size α) :
    Takes (.fixed α r.order.swap) (takeFixed α) r := by
  by_cases hshort : r.frame.available < Fixed.size α
  · refine ⟨_, _, .short (fun bs rest hbs hwhole => ?_) (Frame.limit_lt_of_available hr hshort), takeFixed_short α hshort⟩
    have hlen := congrArg List.length hbs
    rw [Frame.length_readable, List.length_append] at hlen
    change bs.length = Fixed.size α at hwhole
    omega
  · have hin := Nat.not_lt.1 hshort
    have hcut : r.frame.cut (Fixed.size α) = r.frame.readable.take (Fixed.size α) := by
      rw [← Frame.peek_eq_take, Frame.peek, Nat.min_eq_left hin]
    have hlen : (r.frame.cut (Fixed.size α)).length = Fixed.size α := by
      rw [hcut, List.length_take, Frame.length_readable, Nat.min_eq_left hin]
    have hwindow : r.frame.readable = r.frame.cut (Fixed.size α) ++ r.frame.readable.drop (Fixed.size α) := by
      rw [hcut, List.take_append_drop]
    refine ⟨_, _, .whole (n := .fixed α r.order.swap) hwindow hlen ?_, ?_⟩
    · rw [hlen]
      exact Frame.limit_of_available hpos hin
    · rw [takeFixed_eq α hpos hin, hlen]
      rfl

theorem takes_byte : Takes .byte readByte r :=
  takes_onFrame (Frame.outcome_byte hr)

theorem takes_int : Takes (.ofForm Varint.form32) readInt r :=
  takes_onFrame (Frame.outcome_int hr)

theorem takes_long : Takes (.ofForm Varint.form64) readLong r :=
  takes_onFrame (Frame.outcome_long hr)

end Limit

end Reader

/-- the number that a read of this kind takes, if it takes a single one -/
def FieldKind.numeral (swap : Bool) : FieldKind → Option (Numeral Field)
  | .data .byte => some (Numeral.byte.map fun v => .data (.byte v))
  | .data .boolean => some (Numeral.byte.map fun v => .data (.boolean (v != 0)))
  | .data .short => some ((Numeral.fixed Int16 swap).map fun v => .data (.short v))
  | .data .char => some ((Numeral.fixed UInt16 swap).map fun v => .data (.char v))
  | .data .float => some ((Numeral.fixed Single swap).map fun v => .data (.float v))
  | .data .double => some ((Numeral.fixed Double swap).map fun v => .data (.double v))
  | .data .int => some ((Numeral.ofForm Varint.form32).map fun v => .data (.int v))
  | .data .long => some ((Numeral.ofForm Varint.form64).map fun v => .data (.long v))
  | .fixedInt => some ((Numeral.fixed Int32 swap).map .fixedInt)
  | .fixedLong => some ((Numeral.fixed Int64 swap).map .fixedLong)
  | _ => none

namespace Reader

variable {α β : Type} {r : Reader}

/-- a read of the datum that is made of what an act gives -/
theorem takes_datum {n : Numeral α} {act : Reading α} (h : Takes n act r) {t : ItemType} (mk : α → Datum)
    (ht : readDatum t = do return some (mk (← act))) : Takes (n.map fun v => .data (mk v)) (readField (.data t)) r := by
  obtain ⟨x, g, ho, hact⟩ := h
  refine ⟨_, g, ho.map _, ?_⟩
  change (readDatum t >>= _) r = _
  rw [ht, bind_eq, bind_eq, hact]
  cases x <;> rfl

/-- **A read of a single number takes it whole or not at all.** -/
theorem takes_numeral (hr : r.frame.limit ≤ r.frame.extent) {k : FieldKind} {n : Numeral Field}
    (hk : k.numeral r.order.swap = some n) : Takes n (readField k) r := by
  cases k with
  | data t =>
    cases t with
    | byte =>
      obtain rfl := Option.some.inj hk
      exact takes_datum (takes_byte hr) .byte rfl
    | boolean =>
      obtain rfl := Option.some.inj hk
      exact takes_datum ((takes_byte hr).map (· != 0)) .boolean rfl
    | short =>
      obtain rfl := Option.some.inj hk
      exact takes_datum (takes_fixed hr Int16 (by decide)) .short rfl
    | char =>
      obtain rfl := Option.some.inj hk
      exact takes_datum (takes_fixed hr UInt16 (by decide)) .char rfl
    | float =>
      obtain rfl := Option.some.inj hk
      exact takes_datum (takes_fixed hr Single (by decide)) .float rfl
    | double =>
      obtain rfl := Option.some.inj hk
      exact takes_datum (takes_fixed hr Double (by decide)) .double rfl
    | int =>
      obtain rfl := Option.some.inj hk
      exact takes_datum (takes_int hr) .int rfl
    | long =>
      obtain rfl := Option.some.inj hk
      exact takes_datum (takes_long hr) .long rfl
    | _ => cases hk
  | fixedInt =>
    obtain rfl := Option.some.inj hk
    exact (takes_fixed hr Int32 (by decide)).map Field.fixedInt
  | fixedLong =>
    obtain rfl := Option.some.inj hk
    exact (takes_fixed hr Int64 (by decide)).map Field.fixedLong
  | _ => cases hk

/-! ## What has a count in front -/

/-- an act is what was refused, if what follows it is never refused -/
theorem error_of_bind {act : Reading α} {next : α → Reading β} {f : Fault} {s : Reader}
    (hn : ∀ a t g u, next a t ≠ .error g u) (h : (act >>= next) r = .error f s) : act r = .error f s := by
  rw [bind_eq] at h
  cases ha : act r with
  | ok a t =>
    rw [ha] at h
    exact absurd h (hn a t f s)
  | error g t =>
    rw [ha] at h
    cases h
    rfl

/-- a session that stands where it stood, or right behind a count -/
def Held (r s : Reader) : Prop :=
  s = r ∨ s = r.advance lengthPrefixSize

/-- where a read with a count in front is refused: before the count, behind it, or at what comes behind a count that was
taken -/
theorem counted_error {kind : String} {size : Nat} {next : Option Nat → Reading α} {f : Fault} {s : Reader}
    (hnone : ∀ t g u, next none t ≠ .error g u) (h : (readLength kind size >>= next) r = .error f s) :
    Held r s ∨ ∃ n t, readLength kind size r = .ok (some n) t ∧ next (some n) t = .error f s := by
  rw [bind_eq] at h
  by_cases hshort : r.frame.available < Fixed.size Int32
  · have hread : readLength kind size r = .error (.error (r.frame.underflow (Fixed.size Int32))) r := by
      rw [readLength, bind_eq, takeFixed_short Int32 hshort]
    rw [hread] at h
    cases h
    exact .inl (.inl rfl)
  · have hread := readLength_eq kind size (takeFixed_eq Int32 (r := r) (by decide) (Nat.not_lt.1 hshort))
    have hbehind : ∀ {t}, readLength kind size r = .error f t → t = r.advance lengthPrefixSize := by
      intro t ht
      rw [hread] at ht
      split at ht
      · cases ht
      · split at ht
        · cases ht
          rfl
        · split at ht
          · cases ht
            rfl
          · cases ht
    cases hlen : readLength kind size r with
    | error g t =>
      rw [hlen] at h
      cases h
      exact .inl (.inr (hbehind hlen))
    | ok o t =>
      rw [hlen] at h
      cases o with
      | none => exact absurd h (hnone t f s)
      | some n => exact .inr ⟨n, t, rfl, h⟩

/-- where nothing behind the count can be refused -/
theorem counted_held {kind : String} {size : Nat} {next : Option Nat → Reading α} {f : Fault} {s : Reader}
    (hnone : ∀ t g u, next none t ≠ .error g u)
    (hsome : ∀ n t g u, readLength kind size r = .ok (some n) t → next (some n) t ≠ .error g u)
    (h : (readLength kind size >>= next) r = .error f s) : Held r s := by
  rcases counted_error hnone h with h | ⟨n, t, hlen, hnext⟩
  · exact h
  · exact absurd hnext (hsome n t f s hlen)

/-- bytes that a count speaks of are there -/
theorem take_counted {kind : String} {size n : Nat} {s : Reader} (h : readLength kind size r = .ok (some n) s) :
    ∃ bs t, take (n * size) s = .ok bs t ∧ bs.length = n * size := by
  obtain ⟨hl, hp⟩ := readLength_ok h
  have hav : s.frame.available = s.frame.limit - s.position :=
    Frame.available_of_le (Nat.le_trans (Nat.le_add_right ..) hp) hl
  have hin : s.frame.position + n * size ≤ s.frame.extent := Nat.le_trans hp hl
  refine ⟨s.frame.cut (n * size), s.advance (n * size), ?_, ?_⟩
  · rw [take, if_neg (by rw [hav]; omega), Frame.slice?, if_pos hin]
    rfl
  · rw [Frame.cut_eq, List.length_take, List.length_drop, Frame.length_data]
    omega

theorem array_error (α : Type) [Fixed α] {f : Fault} {s : Reader} (h : takeArray α r = .error f s) : Held r s := by
  refine counted_held (fun t g u hn => by cases hn) (fun n t g u hlen hn => ?_) h
  obtain ⟨bs, v, htake, hbs⟩ := take_counted hlen
  obtain ⟨vs, hvs⟩ : ∃ vs : List α, Fixed.decodeSlice bs n v.order.swap = some vs := by
    rw [Fixed.decodeSlice_eq_readEach, Fixed.readEach_eq, if_pos (Nat.le_of_eq hbs.symm)]
    exact ⟨_, rfl⟩
  simp only [bind_eq, htake, get_eq, hvs] at hn
  cases hn

theorem byteArray_error {f : Fault} {s : Reader} (h : readByteArray r = .error f s) : Held r s := by
  refine counted_held (fun t g u hn => by cases hn) (fun n t g u hlen hn => ?_) h
  obtain ⟨bs, v, htake, -⟩ := take_counted hlen
  rw [Nat.mul_one] at htake
  simp only [bind_eq, htake] at hn
  cases hn

theorem booleanArray_error {f : Fault} {s : Reader} (h : readBooleanArray r = .error f s) : Held r s := by
  refine counted_held (fun t g u hn => by cases hn) (fun n t g u hlen hn => ?_) h
  obtain ⟨bs, v, htake, hbs⟩ := take_counted hlen
  rw [Nat.mul_one] at htake hbs
  simp only [bind_eq, htake, decodeBools, hbs, Nat.le_refl, if_true] at hn
  cases hn

/-- a text may still turn out to be none once its bytes have been taken -/
theorem string_error {f : Fault} {s : Reader} (h : readString r = .error f s) :
    Held r s ∨ ∃ flaw, f = .error (.invalidUtf8 flaw) := by
  rcases counted_error (fun t g u hn => by cases hn) h with h | ⟨n, t, hlen, h⟩
  · exact .inl h
  · refine .inr ?_
    obtain ⟨bs, u, htake, -⟩ := take_counted hlen
    rw [Nat.mul_one] at htake
    simp only [bind_eq, htake] at h
    cases hd : Utf8.decode? bs with
    | some text =>
      rw [hd] at h
      cases h
    | none =>
      rw [hd] at h
      cases h
      exact ⟨_, rfl⟩

theorem bitSet_error {f : Fault} {s : Reader} (h : readBitSet r = .error f s) : Held r s :=
  array_error UInt64 (error_of_bind (fun o t g u hn => by cases o <;> cases hn) h)

end Reader

/-- kinds of data that have a count in front of them -/
def ItemType.counted : ItemType → Bool
  | .byteArray | .shortArray | .intArray | .longArray | .floatArray | .doubleArray | .charArray | .booleanArray
  | .string | .bitSet => true
  | _ => false

namespace Reader

variable {α : Type} {r : Reader}

/-- a datum is refused where what it is made of is refused -/
theorem field_error {act : Reading (Option α)} {t : ItemType} (mk : α → Datum) {f : Fault} {s : Reader}
    (ht : readDatum t = do return (← act).map mk) (h : readField (.data t) r = .error f s) : act r = .error f s := by
  have hdatum : readDatum t r = .error f s := error_of_bind (fun o u g v hn => by cases o <;> cases hn) h
  rw [ht] at hdatum
  exact error_of_bind (fun o u g v hn => by cases hn) hdatum

/-- **A datum with a count in front is refused before the count or right behind it**, but for texts that are none. -/
theorem counted_field_error {t : ItemType} (ht : t.counted = true) {f : Fault} {s : Reader}
    (h : readField (.data t) r = .error f s) :
    Held r s ∨ t = .string ∧ ∃ flaw, f = .error (.invalidUtf8 flaw) := by
  cases t with
  | byteArray => exact .inl (byteArray_error (field_error .byteArray rfl h))
  | shortArray => exact .inl (array_error Int16 (field_error .shortArray rfl h))
  | intArray => exact .inl (array_error Int32 (field_error .intArray rfl h))
  | longArray => exact .inl (array_error Int64 (field_error .longArray rfl h))
  | floatArray => exact .inl (array_error Single (field_error .floatArray rfl h))
  | doubleArray => exact .inl (array_error Double (field_error .doubleArray rfl h))
  | charArray => exact .inl (array_error UInt16 (field_error .charArray rfl h))
  | booleanArray => exact .inl (booleanArray_error (field_error .booleanArray rfl h))
  | bitSet => exact .inl (bitSet_error (field_error .bitSet rfl h))
  | string => exact (string_error (field_error .string rfl h)).imp_right fun hflaw => ⟨rfl, hflaw⟩
  | _ => cases ht

/-- a container that is not refused at its count is refused at one of its items -/
theorem items_error {way : Listing} {t : ItemType} {f : Fault} {s : Reader}
    (h : readField (.items way t) r = .error f s) :
    Held r s ∨ ∃ n u, readLength (listingName way) 1 r = .ok (some n) u ∧ itemsWith readAt t n u = .error f s := by
  have hl : listingWith readAt (listingName way) t r = .error f s :=
    error_of_bind (fun o u g v hn => by cases o <;> cases hn) h
  refine (counted_error (fun u g v hn => by cases hn) hl).imp_right ?_
  rintro ⟨n, u, hlen, hitems⟩
  exact ⟨n, u, hlen, error_of_bind (fun vs v g w hn => by cases hn) hitems⟩

/-- a map that is not refused at its count is refused at one of its keys or values -/
theorem map_error {kt vt : ItemType} {linked : Bool} {f : Fault} {s : Reader}
    (h : readField (.map kt vt linked) r = .error f s) :
    Held r s ∨ ∃ n u, readLength "map" 2 r = .ok (some n) u ∧
      entriesWith readAt kt vt n (.empty linked) u = .error f s := by
  have hm : mapWith readAt kt vt linked r = .error f s :=
    error_of_bind (fun o u g v hn => by cases o <;> cases hn) h
  refine (counted_error (fun u g v hn => by cases hn) hm).imp_right ?_
  rintro ⟨n, u, hlen, hentries⟩
  exact ⟨n, u, hlen, error_of_bind (fun m v g w hn => by cases hn) hentries⟩

theorem run_error {k : FieldKind} {e : WireError} {s : Reader} (h : r.run k = (some (.error e), s)) :
    readField k r = .error (.error e) s := by
  unfold run at h
  cases hf : readField k r with
  | ok a t =>
    rw [hf] at h
    cases h
  | error g t =>
    rw [hf] at h
    cases g with
    | error e' =>
      obtain ⟨he, rfl⟩ := Prod.mk.inj h
      cases he
      rfl
    | panic => cases h

end Reader

/-- a reply of a frame that is asked by itself -/
def FrameReply.told {α : Type} (reply : α → FrameReply) : Except WireError α → FrameReply
  | .ok a => reply a
  | .error e => .error e

/-- a read of the frame by itself replies what it came to -/
theorem FrameAct.ofRead_eq {α : Type} {n : Numeral α} {f g : Frame} {x : Except WireError α} (reply : α → FrameReply)
    (h : n.Outcome f x g) : ofRead f reply (x.map fun v => (v, g)) = (.told reply x, g) := by
  cases h <;> rfl

/-- **Numbers are read whole or not at all**, and a refusal tells the truth. The position of the frame is any at all, and
its limit lies within the data. A read of a single number, by a session or of the frame itself, comes to an `Outcome`;
the session is the same as before but for its frame. Arrays, texts and bit sets leave the session as it was or right
behind their count when they are refused, but for texts that are none, and so do containers, unless their count was
taken and one of their items refused. -/
theorem read_whole_or_nothing {f : Frame} (hf : f.limit ≤ f.extent) :
    (∀ r : Reader, r.frame = f → ∀ k n, k.numeral r.order.swap = some n →
      ∃ x g, n.Outcome f x g ∧ r.run k = (some x, { r with frame := g })) ∧
    (∃ x g, (Numeral.ofForm Varint.form32).Outcome f x g ∧ FrameAct.readInt.run f = some (.told .int x, g)) ∧
    (∃ x g, (Numeral.ofForm Varint.form64).Outcome f x g ∧ FrameAct.readLong.run f = some (.told .long x, g)) ∧
    (∃ x g, Numeral.byte.Outcome f x g ∧ FrameAct.readByte.run f = some (.told .byte x, g)) ∧
    ∀ r : Reader, r.frame = f → ∀ e s,
      (∀ t : ItemType, t.counted = true → r.run (.data t) = (some (.error e), s) →
        r.Held s ∨ t = .string ∧ ∃ flaw, e = .invalidUtf8 flaw) ∧
      (∀ way t, r.run (.items way t) = (some (.error e), s) → r.Held s ∨
        ∃ n u, Reader.readLength (Reader.listingName way) 1 r = .ok (some n) u ∧
          Reader.itemsWith Reader.readAt t n u = .error (.error e) s) ∧
      ∀ kt vt linked, r.run (.map kt vt linked) = (some (.error e), s) → r.Held s ∨
        ∃ n u, Reader.readLength "map" 2 r = .ok (some n) u ∧
          Reader.entriesWith Reader.readAt kt vt n (.empty linked) u = .error (.error e) s := by
  refine ⟨?_, ?_, ?_, ?_, ?_⟩
  · rintro r rfl k n hk
    obtain ⟨x, g, ho, hread⟩ := Reader.takes_numeral hf hk
    refine ⟨x, g, ho, ?_⟩
    rw [Reader.run, hread]
    cases x <;> rfl
  · obtain ⟨x, g, ho, hread⟩ := Frame.outcome_int hf
    exact ⟨x, g, ho, by rw [FrameAct.run, hread, FrameAct.ofRead_eq .int ho]⟩
  · obtain ⟨x, g, ho, hread⟩ := Frame.outcome_long hf
    exact ⟨x, g, ho, by rw [FrameAct.run, hread, FrameAct.ofRead_eq .long ho]⟩
  · obtain ⟨x, g, ho, hread⟩ := Frame.outcome_byte hf
    exact ⟨x, g, ho, by rw [FrameAct.run, hread, FrameAct.ofRead_eq .byte ho]⟩
  · rintro r rfl e s
    refine ⟨fun t ht h => ?_, fun way t h => Reader.items_error (Reader.run_error h),
      fun kt vt linked h => Reader.map_error (Reader.run_error h)⟩
    refine (Reader.counted_field_error ht (Reader.run_error h)).imp_right ?_
    rintro ⟨rfl, flaw, hflaw⟩
    cases hflaw
    exact ⟨rfl, flaw, rfl⟩

/-- a frame whose limit cuts a number off -/
def cutFrame : Frame :=
  { Frame.ofBytes [9, 0x80, 0x80, 1, 7] with position := 1, limit := 3 }

/-- a session over it -/
def cutReader : Reader :=
  ⟨cutFrame, .ofCapacity 1, fun _ => none, .big, 100⟩

theorem cut_number_refused :
    cutFrame.limit ≤ cutFrame.extent ∧
      (∃ x g, (Numeral.ofForm Varint.form32).Outcome cutFrame x g ∧
        FrameAct.readInt.run cutFrame = some (.told .int x, g)) ∧
      FrameAct.readInt.run cutFrame = some (.error (.bufferUnderflow 1 3 3), cutFrame) ∧
      (∃ x g, ((Numeral.fixed Int16 true).map fun v => Field.data (.short v)).Outcome cutFrame x g ∧
        cutReader.run (.data .short) = (some x, { cutReader with frame := g })) ∧
      cutReader.Held cutReader := by
  have hlimit : cutFrame.limit ≤ cutFrame.extent := by decide
  obtain ⟨hscalar, hint, -, -, hcounted⟩ := read_whole_or_nothing hlimit
  have hstring : cutReader.run (.data .string) = (some (.error (.bufferUnderflow 1 4 3)), cutReader) := rfl
  refine ⟨hlimit, hint, by decide, hscalar cutReader rfl (.data .short) _ rfl, ?_⟩
  rcases (hcounted cutReader rfl _ _).1 .string rfl hstring with h | ⟨-, flaw, hflaw⟩
  · exact h
  · cases hflaw

end Courier
