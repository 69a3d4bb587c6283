import Courier.Reader.Code

/-!
What holds of the leaves holds of every read.

The reads of a session are put together from a few leaves: scalars, arrays, lengths and objects. `Pairs P` says that a
relation `P` between acts holds of each leaf and itself, and of acts in a row. It then holds of data, items, containers
and fields, once it holds of messages at their places; the lemmas of this module go through all of them, one by one. A
relation is what reads that follow messages in two ways need; a property of acts is a relation of acts to themselves,
and `Leaves P` is what it has to hold of.

`Pairs.field` is what the others add up to, and `Pairs.body` goes from the fields of a blueprint to its message;
`Leaves.field` and `Leaves.body` say the same of a property. `Descends P` asks for what messages take besides, and
`Descends.follow` and `Descends.field` go through all that a session can be asked for. Some of the leaves are put
together themselves: `Cuts P` says what a property has to hold of for those that cut their bytes out of the frame.
-/

namespace Courier

namespace Reader

variable {α β : Type}

theorem bind_eq (act : Reading α) (next : α → Reading β) (r : Reader) :
    (act >>= next) r = match act r with
      | .ok a s => next a s
      | .error e s => .error e s := by
  change EStateM.bind act next r = _
  unfold EStateM.bind
  cases act r <;> rfl

/-- acts in a row come to an answer if each of them does -/
theorem bind_ok {act : Reading α} {next : α → Reading β} {r t : Reader} {b : β} :
    (act >>= next) r = .ok b t ↔ ∃ a s, act r = .ok a s ∧ next a s = .ok b t := by
  rw [bind_eq]
  constructor
  · intro h
    cases hact : act r with
    | ok a s =>
      rw [hact] at h
      exact ⟨a, s, rfl, h⟩
    | error f s =>
      rw [hact] at h
      cases h
  · rintro ⟨a, s, hact, h⟩
    rw [hact]
    exact h

theorem below_ok {act : Reading α} {r t : Reader} {a : α} (h : below act r = .ok a t) :
    ∃ s, act (r.onNesting .forward) = .ok a s ∧ t = s.onNesting (·.retreat true) := by
  unfold below at h
  split at h
  · rename_i b s hact
    split at h
    · cases h
    · cases h
      exact ⟨s, hact, rfl⟩
  · cases h
  · split at h <;> cases h

theorem onLevel_ok {act : Reading α} {r t : Reader} {a : α} (h : onLevel act r = .ok a t) :
    ∃ s, act r = .ok a s ∧ s.depth = 0 ∧ t = s.onNesting .wipe := by
  unfold onLevel at h
  split at h
  · rename_i b s hact
    split at h
    · rename_i hd
      cases h
      exact ⟨s, hact, hd, rfl⟩
    · cases h
  · cases h

theorem get_eq (r : Reader) : (get : Reading Reader) r = .ok r r := rfl

theorem setLimit_eq {r : Reader} {n : Nat} (h : n ≤ r.frame.extent) :
    setLimit n r = .ok () { r with frame := { r.frame with limit := n } } := by
  rw [setLimit, Frame.setLimit, if_pos h]

/-- a relation between acts that holds of each leaf and itself, and of acts in a row -/
structure Pairs (P : ∀ {α : Type}, Reading α → Reading α → Prop) : Prop where
  pure : ∀ {α : Type} (a : α), P (Pure.pure a : Reading α) (Pure.pure a)
  bind : ∀ {α β : Type} {act act' : Reading α} {next next' : α → Reading β}, P act act' →
    (∀ a, P (next a) (next' a)) → P (act >>= next) (act' >>= next')
  byte : P readByte readByte
  int : P readInt readInt
  long : P readLong readLong
  fixed : ∀ (α : Type) [Fixed α], 0 < Fixed.size α → P (takeFixed α) (takeFixed α)
  length : ∀ kind size, P (readLength kind size) (readLength kind size)
  array : ∀ (α : Type) [Fixed α], P (takeArray α) (takeArray α)
  byteArray : P readByteArray readByteArray
  booleanArray : P readBooleanArray readBooleanArray
  string : P readString readString
  object : ∀ {α : Type} (d : Decoder α), P (readObjectWith d) (readObjectWith d)

namespace Pairs

variable {P : ∀ {α : Type}, Reading α → Reading α → Prop}

/-- an act, and an answer made of what it gives -/
theorem map (h : Pairs P) {act act' : Reading α} (ha : P act act') (f : α → β) :
    P (do return f (← act)) (do return f (← act')) :=
  h.bind ha fun _ => h.pure _

theorem boolean (h : Pairs P) : P readBoolean readBoolean :=
  h.map h.byte (· != 0)

theorem halves (h : Pairs P) : P readHalves readHalves :=
  h.bind h.long fun _ => h.bind h.long fun _ => h.pure _

theorem uuid (h : Pairs P) : P readUuid readUuid := by
  apply h.bind h.boolean
  intro b
  cases b with
  | true => exact h.pure none
  | false => exact h.map h.halves some

theorem extendedUuid (h : Pairs P) : P readExtendedUuid readExtendedUuid := by
  apply h.bind h.boolean
  intro b
  cases b with
  | true => exact h.pure none
  | false => exact h.bind h.halves fun _ => h.bind h.long fun _ => h.pure _

theorem bitSet (h : Pairs P) : P readBitSet readBitSet := by
  apply h.bind (h.array UInt64)
  intro o
  cases o <;> exact h.pure _

theorem datum (h : Pairs P) (t : ItemType) : P (readDatum t) (readDatum t) := by
  cases t with
  | byte => exact h.bind h.byte fun _ => h.pure _
  | int => exact h.bind h.int fun _ => h.pure _
  | long => exact h.bind h.long fun _ => h.pure _
  | boolean => exact h.bind h.boolean fun _ => h.pure _
  | short | float | double | char => exact h.bind (h.fixed _ (by decide)) fun _ => h.pure _
  | shortArray | intArray | longArray | floatArray | doubleArray | charArray =>
    exact h.bind (h.array _) fun _ => h.pure _
  | byteArray => exact h.bind h.byteArray fun _ => h.pure _
  | booleanArray => exact h.bind h.booleanArray fun _ => h.pure _
  | string => exact h.bind h.string fun _ => h.pure _
  | bitSet => exact h.bind h.bitSet fun _ => h.pure _
  | uuid => exact h.bind h.uuid fun _ => h.pure _
  | extendedUuid => exact h.bind h.extendedUuid fun _ => h.pure _
  | message => exact h.pure none

/-! Two ways to read the messages inside. -/

variable {at₁ at₂ : Place → Reading (Option Message)}

theorem item (h : Pairs P) (hm : P (at₁ .nested) (at₂ .nested)) (t : ItemType) :
    P (itemWith at₁ t) (itemWith at₂ t) := by
  unfold itemWith
  split
  · apply h.bind hm
    intro o
    cases o <;> exact h.pure _
  · apply h.bind (h.datum t)
    intro o
    cases o <;> exact h.pure _

theorem items (h : Pairs P) (hm : P (at₁ .nested) (at₂ .nested)) (t : ItemType) (n : Nat) :
    P (itemsWith at₁ t n) (itemsWith at₂ t n) := by
  induction n with
  | zero => exact h.pure []
  | succ n ih => exact h.bind (h.item hm t) fun v => h.map ih (v :: ·)

theorem entries (h : Pairs P) (hm : P (at₁ .nested) (at₂ .nested)) (kt vt : ItemType) (n : Nat) (m : ValueMap) :
    P (entriesWith at₁ kt vt n m) (entriesWith at₂ kt vt n m) := by
  induction n generalizing m with
  | zero => exact h.pure m
  | succ n ih => exact h.bind (h.item hm kt) fun k => h.bind (h.item hm vt) fun v => ih _

theorem listing (h : Pairs P) (hm : P (at₁ .nested) (at₂ .nested)) (kind : String) (t : ItemType) :
    P (listingWith at₁ kind t) (listingWith at₂ kind t) := by
  apply h.bind (h.length kind 1)
  intro o
  cases o with
  | none => exact h.pure none
  | some n => exact h.map (h.items hm t n) some

theorem mapping (h : Pairs P) (hm : P (at₁ .nested) (at₂ .nested)) (kt vt : ItemType) (linked : Bool) :
    P (mapWith at₁ kt vt linked) (mapWith at₂ kt vt linked) := by
  apply h.bind (h.length "map" 2)
  intro o
  cases o with
  | none => exact h.pure none
  | some n => exact h.map (h.entries hm kt vt n _) some

/-- a field; a root, bytes put into a buffer, a probe and a refusal have to be looked at by themselves -/
theorem field (h : Pairs P) (hm : P (at₁ .nested) (at₂ .nested)) (k : FieldKind)
    (hroot : k = .root ∨ k = .rootSummary → P (at₁ .root) (at₂ .root))
    (hraw : ∀ n, k = .raw n → P (readInto n) (readInto n)) (hprobe : ∀ p, k = .probe p → P (probe p) (probe p))
    (hfail : ∀ e, k = .fail e → P (refuse e : Reading Field) (refuse e)) : P (fieldWith at₁ k) (fieldWith at₂ k) := by
  cases k with
  | data t =>
    apply h.bind (h.datum t)
    intro o
    cases o <;> exact h.pure _
  | item t => exact h.map (h.item hm t) (Field.item t)
  | fixedInt => exact h.map (h.fixed Int32 (by decide)) Field.fixedInt
  | fixedLong => exact h.map (h.fixed Int64 (by decide)) Field.fixedLong
  | raw n => exact h.map (hraw n rfl) Field.raw
  | object shape => exact h.map (h.object (Pack.decoder shape)) (Field.object shape)
  | items way t =>
    apply h.bind (h.listing hm (listingName way) t)
    intro o
    cases o <;> exact h.pure _
  | map kt vt linked =>
    apply h.bind (h.mapping hm kt vt linked)
    intro o
    cases o <;> exact h.pure _
  | message => exact h.map hm Field.message
  | root => exact h.map (hroot (.inl rfl)) Field.message
  | rootSummary =>
    apply h.bind (hroot (.inr rfl))
    intro o
    cases o <;> exact h.pure _
  | probe p => exact h.map (hprobe p rfl) Field.note
  | fail e => exact hfail e rfl

theorem fields (h : Pairs P) {ks : List FieldKind} (hk : ∀ k ∈ ks, P (fieldWith at₁ k) (fieldWith at₂ k)) :
    P (fieldsWith at₁ ks) (fieldsWith at₂ ks) := by
  induction ks with
  | nil => exact h.pure []
  | cons k ks ih =>
    exact h.bind (hk k List.mem_cons_self) fun f =>
      h.map (ih fun k hm => hk k (List.mem_cons_of_mem _ hm)) (f :: ·)

/-- the message of a blueprint -/
theorem body (h : Pairs P) {b : Blueprint} (hk : ∀ k ∈ b.schema, P (fieldWith at₁ k) (fieldWith at₂ k)) :
    P (bodyWith at₁ b) (bodyWith at₂ b) :=
  h.map (h.fields hk) fun fs => Message.mk b.kind fs []

end Pairs

/-! ## Properties of acts -/

/-- a property of acts that holds of the leaves, and of acts in a row -/
structure Leaves (P : ∀ {α : Type}, Reading α → Prop) : Prop where
  pure : ∀ {α : Type} (a : α), P (Pure.pure a : Reading α)
  bind : ∀ {α β : Type} {act : Reading α} {next : α → Reading β}, P act → (∀ a, P (next a)) → P (act >>= next)
  refuse : ∀ {α : Type} (e : WireError), P (Reader.refuse e : Reading α)
  byte : P readByte
  int : P readInt
  long : P readLong
  fixed : ∀ (α : Type) [Fixed α], 0 < Fixed.size α → P (takeFixed α)
  length : ∀ kind size, P (readLength kind size)
  array : ∀ (α : Type) [Fixed α], P (takeArray α)
  byteArray : P readByteArray
  booleanArray : P readBooleanArray
  string : P readString
  object : ∀ {α : Type} (d : Decoder α), P (readObjectWith d)
  probe : ∀ p, P (Reader.probe p)

namespace Leaves

variable {P : ∀ {α : Type}, Reading α → Prop}

/-- a property as a relation of acts to themselves -/
theorem pairs (h : Leaves P) : Pairs fun act act' => act' = act ∧ P act where
  pure a := ⟨rfl, h.pure a⟩
  bind := by
    rintro _ _ act _ next next' ⟨rfl, ha⟩ hn
    obtain rfl : next' = next := funext fun a => (hn a).1
    exact ⟨rfl, h.bind ha fun a => (hn a).2⟩
  byte := ⟨rfl, h.byte⟩
  int := ⟨rfl, h.int⟩
  long := ⟨rfl, h.long⟩
  fixed α _ hs := ⟨rfl, h.fixed α hs⟩
  length kind size := ⟨rfl, h.length kind size⟩
  array α _ := ⟨rfl, h.array α⟩
  byteArray := ⟨rfl, h.byteArray⟩
  booleanArray := ⟨rfl, h.booleanArray⟩
  string := ⟨rfl, h.string⟩
  object d := ⟨rfl, h.object d⟩

/-- an act, and an answer made of what it gives -/
theorem map (h : Leaves P) {act : Reading α} (ha : P act) (f : α → β) : P (do return f (← act)) :=
  h.bind ha fun _ => h.pure _

variable {messageAt : Place → Reading (Option Message)}

/-- a field, where a root and bytes put into a buffer have to be looked at by themselves -/
theorem field (h : Leaves P) (hm : P (messageAt .nested)) (k : FieldKind)
    (hroot : k = .root ∨ k = .rootSummary → P (messageAt .root)) (hraw : ∀ n, k = .raw n → P (readInto n)) :
    P (fieldWith messageAt k) :=
  (h.pairs.field ⟨rfl, hm⟩ k (fun hk => ⟨rfl, hroot hk⟩) (fun n hn => ⟨rfl, hraw n hn⟩)
    (fun p _ => ⟨rfl, h.probe p⟩) fun e _ => ⟨rfl, h.refuse e⟩).2

/-- the message of a blueprint -/
theorem body (h : Leaves P) {b : Blueprint} (hk : ∀ k ∈ b.schema, P (fieldWith messageAt k)) : P (bodyWith messageAt b) :=
  (h.pairs.body fun k hm => ⟨rfl, hk k hm⟩).2

end Leaves

/-- a property of acts that holds of the leaves, and of the ways in which messages are read with them -/
structure Descends (P : ∀ {α : Type}, Reading α → Prop) : Prop extends Leaves P where
  panic : ∀ {α : Type}, P (throw .panic : Reading α)
  blueprint : P readBlueprint
  into : ∀ n, P (readInto n)
  below : ∀ {α : Type} {act : Reading α}, P act → P (Reader.below act)
  onLevel : ∀ {α : Type} {act : Reading α}, P act → P (Reader.onLevel act)

namespace Descends

variable {P : ∀ {α : Type}, Reading α → Prop}

/-- the message of a blueprint, if the messages in it are followed -/
theorem body (h : Descends P) {n : Nat} (hn : ∀ place, P (follow n place)) (b : Blueprint) : P (bodyWith (follow n) b) :=
  h.toLeaves.body fun k _ => h.toLeaves.field (hn .nested) k (fun _ => hn .root) fun m _ => h.into m

/-- messages, however deep they are followed -/
theorem follow (h : Descends P) (n : Nat) (place : Place) : P (follow n place) := by
  induction n generalizing place with
  | zero => exact h.panic
  | succ n ih =>
    apply h.bind h.blueprint
    intro o
    cases o with
    | none => exact h.pure none
    | some b =>
      cases place with
      | nested => exact h.map (h.below (h.body ih b)) some
      | root => exact h.map (h.onLevel (h.body ih b)) some

/-- what can be asked of a session, if messages at their places can be read -/
theorem field (h : Descends P) (hat : ∀ place, P (readAt place)) (k : FieldKind) : P (readField k) :=
  h.toLeaves.field (hat .nested) k (fun _ => hat .root) fun m _ => h.into m

end Descends

/-! ## Properties of acts that cut their bytes out of the frame -/

/-- a property that holds where bytes are cut out, where nothing is read, and of acts in a row; acts may ask for the byte
order of the session -/
structure Cuts (P : ∀ {α : Type}, Reading α → Prop) : Prop where
  pure : ∀ {α : Type} (a : α), P (Pure.pure a : Reading α)
  bind : ∀ {α β : Type} {act : Reading α} {next : α → Reading β}, P act → (∀ a, P (next a)) → P (act >>= next)
  refuse : ∀ {α : Type} (e : WireError), P (Reader.refuse e : Reading α)
  panic : ∀ {α : Type}, P (throw .panic : Reading α)
  take : ∀ n, P (take n)
  order : ∀ {α : Type} {next : Reader → Reading α}, (∀ r s, s.order = r.order → next s = next r) → (∀ r, P (next r)) →
    P (do next (← get))

namespace Cuts

variable {P : ∀ {α : Type}, Reading α → Prop}

theorem ofExcept (h : Cuts P) (x : Except WireError α) : P (Reader.ofExcept x) := by
  cases x with
  | ok a => exact h.pure a
  | error e => exact h.refuse e

theorem fixed (h : Cuts P) (α : Type) [Fixed α] : P (takeFixed α) := by
  apply h.bind (h.take _)
  intro bs
  apply h.order fun r s hrs => by rw [hrs]
  intro r
  cases (Fixed.readFixed bs r.order.swap : Option α) with
  | none => exact h.panic
  | some v => exact h.pure v

/-! What has its length in front. -/

theorem array (h : Cuts P) (hlen : ∀ kind size, P (readLength kind size)) (α : Type) [Fixed α] : P (takeArray α) := by
  apply h.bind (hlen _ _)
  intro o
  cases o with
  | none => exact h.pure none
  | some len =>
    apply h.bind (h.take _)
    intro bs
    apply h.order fun r s hrs => by rw [hrs]
    intro r
    cases (Fixed.decodeSlice bs len r.order.swap : Option (List α)) with
    | none => exact h.panic
    | some vs => exact h.pure _

theorem byteArray (h : Cuts P) (hlen : ∀ kind size, P (readLength kind size)) : P readByteArray := by
  apply h.bind (hlen _ _)
  intro o
  cases o with
  | none => exact h.pure none
  | some len => exact h.bind (h.take len) fun _ => h.pure _

theorem booleanArray (h : Cuts P) (hlen : ∀ kind size, P (readLength kind size)) : P readBooleanArray := by
  apply h.bind (hlen _ _)
  intro o
  cases o with
  | none => exact h.pure none
  | some len =>
    apply h.bind (h.take len)
    intro bs
    cases decodeBools bs len with
    | none => exact h.panic
    | some vs => exact h.pure _

theorem string (h : Cuts P) (hlen : ∀ kind size, P (readLength kind size)) : P readString := by
  apply h.bind (hlen _ _)
  intro o
  cases o with
  | none => exact h.pure none
  | some len =>
    apply h.bind (h.take len)
    intro bs
    cases Utf8.decode? bs with
    | none => exact h.refuse _
    | some s => exact h.pure _

end Cuts

end Reader

end Courier
