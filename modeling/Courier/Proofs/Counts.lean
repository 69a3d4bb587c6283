import Courier.Proofs.Bound

/-!
Containers with their counts taken in any way.

A container is refused before anything is allocated for it if its count speaks of more items than there are bytes left; a
map is, if it speaks of more than half as many entries. That is right because every item takes a byte at least, of
whatever type it is and even where it is absent.

Containers are read here with their counts taken in any way, at the top and in all messages inside. A way to take counts
is `Fair` if it answers nothing but the count that stands there, and does answer it where there is room for so many
elements: the check is fair, and so is doing without. `Affirms` says of two acts that one answers whatever the other
answers, and how many bytes have been taken for it then. Two fair ways make no difference to what is answered, since the
items behind a count have taken the bytes that it was compared with.

`readLength_ok_iff`: what the check adds to a count.
`affirms_datum`, `affirms_item`: an item costs a byte, of any type.
`affirms_follow`: messages with containers in them, by induction on how deep they are followed.
-/

namespace Courier

namespace Reader

variable {α β : Type}

/-! ## Counts -/

/-- a count as it stands there, not compared with the bytes that are left -/
def readCount (kind : String) (_ : Nat) : Reading (Option Nat) := do
  let raw ← takeFixed Int32
  match ← ofExcept (decodeLength kind raw) with
  | none => return none
  | some n =>
    let r ← get
    if r.maxLength < n then refuse (.invalidLength kind n)
    else return some n

/-- a checked count, looked at once more: `stray` is done for one that there is no room for, or that is too large -/
def warned (stray : Reading (Option Nat)) (kind : String) (size : Nat) : Reading (Option Nat) := do
  match ← readLength kind size with
  | none => return none
  | some n =>
    let r ← get
    if n * size ≤ r.remaining ∧ n ≤ r.maxLength then return some n else stray

/-- for elements that take no room there is nothing to compare -/
theorem readCount_eq (kind : String) (size : Nat) : readCount kind size = readLength kind 0 := by
  unfold readCount readLength
  refine congrArg _ (funext fun raw => ?_)
  refine congrArg _ (funext fun o => ?_)
  cases o with
  | none => rfl
  | some n => simp only [Nat.mul_zero, Nat.not_lt_zero, if_false]

/-- **What the check adds** to a count: it is answered only where there is room for its elements. -/
theorem readLength_ok_iff {kind : String} {size : Nat} {r s : Reader} {o : Option Nat} :
    readLength kind size r = .ok o s ↔ readCount kind size r = .ok o s ∧ ∀ n ∈ o, n * size ≤ s.remaining := by
  rw [readCount_eq]
  by_cases hshort : r.frame.available < Fixed.size Int32
  · simp [readLength, bind_eq, takeFixed_short Int32 hshort]
  have htake := takeFixed_eq Int32 (r := r) (by decide) (Nat.not_lt.1 hshort)
  rw [readLength_eq kind size htake, readLength_eq kind 0 htake]
  split
  · constructor
    · intro h
      cases h
      exact ⟨rfl, fun n hn => by cases hn⟩
    · exact And.left
  split
  · simp
  rw [Nat.mul_zero, if_neg (Nat.not_lt_zero _)]
  constructor
  · intro h
    split at h
    · cases h
    · rename_i hroom
      cases h
      refine ⟨rfl, fun n hn => ?_⟩
      obtain rfl := Option.some.inj hn
      exact Nat.not_lt.1 hroom
  · rintro ⟨h, hroom⟩
    cases h
    rw [if_neg (Nat.not_lt.2 (hroom _ rfl))]

/-- a count that is gone on with is no larger than there is room for, and no larger than counts may be -/
theorem readLength_some {kind : String} {size n : Nat} {r s : Reader} (h : readLength kind size r = .ok (some n) s) :
    s = r.advance lengthPrefixSize ∧ n * size ≤ s.remaining ∧ n ≤ s.maxLength := by
  have hroom := (readLength_ok_iff.1 h).2 n rfl
  rw [readLength_eq kind size (takeFixed_eq Int32 (by decide) (available_of_readLength h))] at h
  split at h
  · cases h
  split at h
  · cases h
  rename_i hmax
  split at h
  · cases h
  cases h
  exact ⟨rfl, hroom, by omega⟩

theorem warned_eq (stray : Reading (Option Nat)) : warned stray = readLength := by
  funext kind size r
  unfold warned
  rw [bind_eq]
  cases h : readLength kind size r with
  | error f s => rfl
  | ok o s =>
    cases o with
    | none => rfl
    | some n =>
      obtain ⟨-, hroom, hmax⟩ := readLength_some h
      simp only [bind_eq, get_eq, hroom, hmax, and_self, if_true]
      rfl

/-- a way to take counts that answers nothing but the count that stands there, and answers it where there is room -/
structure Fair (count : String → Nat → Reading (Option Nat)) : Prop where
  honest : ∀ {kind size r o s}, count kind size r = .ok o s → readCount kind size r = .ok o s
  granted : ∀ {kind size r o s}, readCount kind size r = .ok o s → (∀ n ∈ o, n * size ≤ s.remaining) →
    count kind size r = .ok o s

theorem fair_readCount : Fair readCount :=
  ⟨id, fun h _ => h⟩

theorem fair_readLength : Fair readLength :=
  ⟨fun h => (readLength_ok_iff.1 h).1, fun h hroom => readLength_ok_iff.2 ⟨h, hroom⟩⟩

/-! ## Containers with their counts taken in any way -/

section By

variable (count : String → Nat → Reading (Option Nat)) (messageAt : Place → Reading (Option Message))

/-- so many items as a count says, each of which takes `size` bytes at least -/
def counted (kind : String) (size : Nat) (items : Nat → Reading α) : Reading (Option α) := do
  match ← count kind size with
  | none => return none
  | some n => return some (← items n)

/-- a run of items with their count in front -/
def listingBy (kind : String) (t : ItemType) : Reading (Option (List Value)) :=
  counted count kind 1 (itemsWith messageAt t)

/-- a map with the count of its entries in front -/
def mapBy (kt vt : ItemType) (linked : Bool) : Reading (Option ValueMap) :=
  counted count "map" 2 fun n => entriesWith messageAt kt vt n (.empty linked)

/-- one field of the given kind -/
def fieldBy : FieldKind → Reading Field
  | .items way t => do
    match ← listingBy count messageAt (listingName way) t with
    | some vs => return .items way t vs
    | none => return .nothing
  | .map kt vt linked => do
    match ← mapBy count messageAt kt vt linked with
    | some m => return .map kt vt linked m.entries
    | none => return .nothing
  | k => fieldWith messageAt k

/-- the fields of these kinds, in order -/
def fieldsBy : List FieldKind → Reading (List Field)
  | [] => return []
  | k :: ks => do
    let f ← fieldBy count messageAt k
    let fs ← fieldsBy ks
    return f :: fs

/-- the message of a blueprint whose header has been read -/
def bodyBy (b : Blueprint) : Reading Message :=
  return .mk b.kind (← fieldsBy count messageAt b.schema) []

/-- a message at a place, whose own messages are followed less than `n` deep -/
def followBy : Nat → Place → Reading (Option Message)
  | 0, _ => throw .panic
  | n + 1, place => do
    match ← readBlueprint with
    | none => return none
    | some b =>
      match place with
      | .nested => return some (← below (bodyBy count (followBy n) b))
      | .root => return some (← onLevel (bodyBy count (followBy n) b))

/-- a message at a place -/
def readAtBy (place : Place) : Reading (Option Message) := fun r =>
  followBy count r.nestingBound place r

end By

theorem fieldBy_readLength (messageAt : Place → Reading (Option Message)) (k : FieldKind) :
    fieldBy readLength messageAt k = fieldWith messageAt k := by
  cases k <;> rfl

theorem bodyBy_readLength (messageAt : Place → Reading (Option Message)) (b : Blueprint) :
    bodyBy readLength messageAt b = bodyWith messageAt b := by
  have hfields : ∀ ks, fieldsBy readLength messageAt ks = fieldsWith messageAt ks := by
    intro ks
    induction ks with
    | nil => rfl
    | cons k ks ih => rw [fieldsBy, fieldsWith, fieldBy_readLength, ih]
  rw [bodyBy, bodyWith, hfields]

/-- with every count checked, messages are followed as they are -/
theorem followBy_readLength (n : Nat) : followBy readLength n = follow n := by
  induction n with
  | zero => rfl
  | succ n ih =>
    funext place
    rw [followBy, follow, ih]
    refine congrArg _ (funext fun o => ?_)
    cases o with
    | none => rfl
    | some b => cases place <;> simp only [bodyBy_readLength]

theorem readAtBy_readLength : readAtBy readLength = readAt := by
  funext place r
  rw [readAtBy, readAt, followBy_readLength]

/-! ## Acts that answer the same, and what an answer costs -/

/-- what `act` answers, `act'` answers too, with the same session behind it, and `n` bytes at least have been taken -/
def Affirms (n : Nat) (act act' : Reading α) : Prop :=
  ∀ r, r.frame.limit ≤ r.frame.extent → ∀ a s, act r = .ok a s →
    act' r = .ok a s ∧ Unharmed r s ∧ r.position + n ≤ s.position

namespace Affirms

variable {m n : Nat}

/-- an act that does no harm affirms itself -/
theorem of_fine {Q : Reader → α → Reader → Prop} {act : Reading α}
    (h : ∀ r, r.frame.limit ≤ r.frame.extent → Fine r (Q r) (act r))
    (hQ : ∀ r a s, Unharmed r s → Q r a s → r.position + n ≤ s.position) : Affirms n act act := by
  intro r hr a s hs
  have hf := h r hr
  rw [hs] at hf
  exact ⟨hs, hf.unharmed, hQ r a s hf.unharmed hf.post⟩

theorem of_harmless {Q : Reader → α → Reader → Prop} {act : Reading α}
    (h : ∀ r, r.frame.limit ≤ r.frame.extent → Fine r (Q r) (act r)) : Affirms 0 act act :=
  of_fine h fun _ _ _ hu _ => hu.position_le

theorem of_progress {act : Reading α} (h : ∀ r, r.frame.limit ≤ r.frame.extent → Fine r (Progress r) (act r)) :
    Affirms 1 act act :=
  of_fine h fun _ _ _ _ hp => hp

/-- an act that comes to no answer -/
theorem of_error {act act' : Reading α} (h : ∀ r a s, act r ≠ .ok a s) : Affirms n act act' :=
  fun r _ a s hs => absurd hs (h r a s)

theorem pure (a : α) : Affirms 0 (Pure.pure a : Reading α) (Pure.pure a) :=
  of_harmless (Q := fun _ _ _ => True) fun _ _ => .pure trivial

theorem mono {act act' : Reading α} (h : Affirms m act act') (hn : n ≤ m) : Affirms n act act' := by
  intro r hr a s hs
  obtain ⟨hs', hu, hp⟩ := h r hr a s hs
  exact ⟨hs', hu, by omega⟩

/-- what two acts in a row cost adds up -/
theorem bind {act act' : Reading α} {next next' : α → Reading β} (h : Affirms m act act')
    (hn : ∀ a, Affirms n (next a) (next' a)) : Affirms (m + n) (act >>= next) (act' >>= next') := by
  intro r hr b t ht
  obtain ⟨a, s, hact, ht⟩ := bind_ok.1 ht
  obtain ⟨hact', hu, hp⟩ := h r hr a s hact
  obtain ⟨ht', hu', hp'⟩ := hn a s (by rw [hu.limit, hu.extent]; exact hr) b t ht
  exact ⟨bind_ok.2 ⟨a, s, hact', ht'⟩, hu.trans hu', by omega⟩

theorem before {act act' : Reading α} {next next' : α → Reading β} (h : Affirms n act act')
    (hn : ∀ a, Affirms 0 (next a) (next' a)) : Affirms n (act >>= next) (act' >>= next') :=
  h.bind hn

theorem map {act act' : Reading α} (h : Affirms n act act') (f : α → β) :
    Affirms n (do return f (← act)) (do return f (← act')) :=
  h.before fun _ => pure _

theorem below {act act' : Reading α} (h : Affirms n act act') : Affirms n (below act) (below act') := by
  intro r hr a t ht
  obtain ⟨s, hact, rfl⟩ := below_ok ht
  obtain ⟨hact', hu, hp⟩ := h (r.onNesting .forward) hr a s hact
  have hfine : Fine (r.onNesting .forward) (fun _ _ => True) (act (r.onNesting .forward)) := by
    rw [hact]
    exact .ok hu trivial
  have hbelow := hfine.below
  rw [ht] at hbelow
  refine ⟨?_, hbelow.unharmed, hp⟩
  rw [← ht, Reader.below, Reader.below, hact, hact']

theorem onLevel {act act' : Reading α} (h : Affirms n act act') : Affirms n (onLevel act) (onLevel act') := by
  intro r hr a t ht
  obtain ⟨s, hact, hd, rfl⟩ := onLevel_ok ht
  obtain ⟨hact', hu, hp⟩ := h r hr a s hact
  have hfine : Fine r (fun _ _ => True) (act r) := by
    rw [hact]
    exact .ok hu trivial
  have hlevel := hfine.onLevel (hu.depth.symm.trans hd)
  rw [ht] at hlevel
  refine ⟨?_, hlevel.unharmed, hp⟩
  rw [← ht, Reader.onLevel, Reader.onLevel, hact, hact']

theorem pairs : Pairs (Affirms 0) where
  pure := pure
  bind := bind
  byte := of_harmless fun _ h => fine_byte h
  int := of_harmless fun _ h => fine_int h
  long := of_harmless fun _ h => fine_long h
  fixed α _ hs := of_harmless fun _ h => fine_fixed h α hs
  length kind size := of_harmless fun _ h => fine_length h kind size
  array α _ := of_harmless fun _ h => fine_array h α
  byteArray := of_harmless fun _ h => fine_byteArray h
  booleanArray := of_harmless fun _ h => fine_booleanArray h
  string := of_harmless fun _ h => fine_string h
  object _ := of_harmless fun _ h => fine_objectWith h _

theorem into (k : Nat) : Affirms 0 (readInto k) (readInto k) := by
  unfold readInto
  split
  · exact of_harmless fun _ h => fine_upTo h k
  · exact of_error fun _ _ _ h => by cases h

end Affirms

/-! ## Items -/

theorem affirms_byte : Affirms 1 readByte readByte :=
  .of_progress fun _ h => fine_byte h

theorem affirms_fixed (α : Type) [Fixed α] (hs : 0 < Fixed.size α) : Affirms 1 (takeFixed α) (takeFixed α) :=
  .of_fine (fun _ h => fine_fixed h α hs) fun r _ s _ hp => by omega

theorem affirms_array (α : Type) [Fixed α] : Affirms 1 (takeArray α) (takeArray α) :=
  .of_progress fun _ h => fine_array h α

theorem affirms_boolean : Affirms 1 readBoolean readBoolean :=
  affirms_byte.map (· != 0)

/-- **A datum costs a byte** at least, of any type and even where it is absent. -/
theorem affirms_datum {t : ItemType} (ht : t ≠ .message) : Affirms 1 (readDatum t) (readDatum t) := by
  cases t with
  | byte => exact affirms_byte.before fun _ => .pure _
  | int => exact (Affirms.of_progress fun _ h => fine_int h).before fun _ => .pure _
  | long => exact (Affirms.of_progress fun _ h => fine_long h).before fun _ => .pure _
  | boolean => exact affirms_boolean.before fun _ => .pure _
  | short | float | double | char => exact (affirms_fixed _ (by decide)).before fun _ => .pure _
  | shortArray | intArray | longArray | floatArray | doubleArray | charArray =>
    exact (affirms_array _).before fun _ => .pure _
  | byteArray => exact (Affirms.of_progress fun _ h => fine_byteArray h).before fun _ => .pure _
  | booleanArray => exact (Affirms.of_progress fun _ h => fine_booleanArray h).before fun _ => .pure _
  | string => exact (Affirms.of_progress fun _ h => fine_string h).before fun _ => .pure _
  | bitSet =>
    refine Affirms.before (affirms_array UInt64 |>.before fun o => ?_) fun _ => .pure _
    cases o <;> exact .pure _
  | uuid =>
    -- an absent identifier is one byte, and so is the mark before the halves of another
    refine Affirms.before (affirms_boolean.before fun b => ?_) fun _ => .pure _
    cases b with
    | true => exact .pure none
    | false => exact Affirms.pairs.map Affirms.pairs.halves some
  | extendedUuid =>
    refine Affirms.before (affirms_boolean.before fun b => ?_) fun _ => .pure _
    cases b with
    | true => exact .pure none
    | false => exact Affirms.pairs.halves.before fun _ => Affirms.pairs.long.before fun _ => .pure _
  | message => exact absurd rfl ht

section Containers

variable {at₁ at₂ : Place → Reading (Option Message)} {count count' : String → Nat → Reading (Option Nat)}

theorem affirms_item (hm : Affirms 1 (at₁ .nested) (at₂ .nested)) (t : ItemType) :
    Affirms 1 (itemWith at₁ t) (itemWith at₂ t) := by
  unfold itemWith
  split
  · refine hm.before fun o => ?_
    cases o <;> exact .pure _
  · rename_i ht
    refine (affirms_datum ht).before fun o => ?_
    cases o <;> exact .pure _

/-- items cost as many bytes as they are -/
theorem affirms_items (hm : Affirms 1 (at₁ .nested) (at₂ .nested)) (t : ItemType) (n : Nat) :
    Affirms (n * 1) (itemsWith at₁ t n) (itemsWith at₂ t n) := by
  induction n with
  | zero => exact .pure []
  | succ n ih => exact ((affirms_item hm t).bind fun v => ih.map (v :: ·)).mono (by omega)

/-- entries cost twice as many bytes as they are -/
theorem affirms_entries (hm : Affirms 1 (at₁ .nested) (at₂ .nested)) (kt vt : ItemType) (n : Nat) (m : ValueMap) :
    Affirms (n * 2) (entriesWith at₁ kt vt n m) (entriesWith at₂ kt vt n m) := by
  induction n generalizing m with
  | zero => exact .pure m
  | succ n ih =>
    exact ((affirms_item hm kt).bind fun k => (affirms_item hm vt).bind fun v => ih (m.insert k v).2).mono (by omega)

/-- **Two fair ways to take a count answer the same** where the elements behind it cost what the count is checked for. -/
theorem Affirms.counted (h : Fair count) (h' : Fair count') {kind : String} {size : Nat} {items items' : Nat → Reading α}
    (hi : ∀ n, Affirms (n * size) (items n) (items' n)) :
    Affirms 1 (counted count kind size items) (counted count' kind size items') := by
  intro r hr a t ht
  obtain ⟨o, s, hc, ht⟩ := bind_ok.1 ht
  have hread := h.honest hc
  have hfine := fine_length hr kind 0
  rw [← readCount_eq kind size, hread] at hfine
  obtain ⟨hu, hpos, -⟩ := And.intro hfine.unharmed hfine.post
  cases o with
  | none =>
    cases ht
    have hgranted := h'.granted hread fun n hn => by cases hn
    exact ⟨bind_ok.2 ⟨none, _, hgranted, rfl⟩, hu, hpos⟩
  | some n =>
    obtain ⟨ht', hu', hp⟩ := (hi n).map some s (by rw [hu.limit, hu.extent]; exact hr) a t ht
    -- the elements have taken their bytes out of those that were left behind the count
    have hroom : n * size ≤ s.remaining := by
      have hmax := hu'.position_le_max
      change n * size ≤ s.frame.limit - s.position
      omega
    have hgranted := h'.granted hread fun k hk => by
      obtain rfl := Option.some.inj hk
      exact hroom
    exact ⟨bind_ok.2 ⟨some n, s, hgranted, ht'⟩, hu.trans hu', by omega⟩

theorem affirms_listing (h : Fair count) (h' : Fair count') (hm : Affirms 1 (at₁ .nested) (at₂ .nested)) (kind : String)
    (t : ItemType) : Affirms 1 (listingBy count at₁ kind t) (listingBy count' at₂ kind t) :=
  .counted h h' fun n => affirms_items hm t n

theorem affirms_map (h : Fair count) (h' : Fair count') (hm : Affirms 1 (at₁ .nested) (at₂ .nested)) (kt vt : ItemType)
    (linked : Bool) : Affirms 1 (mapBy count at₁ kt vt linked) (mapBy count' at₂ kt vt linked) :=
  .counted h h' fun n => affirms_entries hm kt vt n _

theorem affirms_field (h : Fair count) (h' : Fair count') (hm : ∀ place, Affirms 1 (at₁ place) (at₂ place))
    (k : FieldKind) : Affirms 0 (fieldBy count at₁ k) (fieldBy count' at₂ k) := by
  have hplain : Affirms 0 (fieldWith at₁ k) (fieldWith at₂ k) :=
    Affirms.pairs.field ((hm .nested).mono (Nat.zero_le 1)) k (fun _ => (hm .root).mono (Nat.zero_le 1))
      (fun n _ => .into n) (fun p _ => .of_harmless fun r _ => fine_probe p r)
      fun _ _ => .of_error fun _ _ _ he => by cases he
  cases k with
  | items way t =>
    refine ((affirms_listing h h' (hm .nested) (listingName way) t).mono (Nat.zero_le 1)).before fun o => ?_
    cases o <;> exact .pure _
  | map kt vt linked =>
    refine ((affirms_map h h' (hm .nested) kt vt linked).mono (Nat.zero_le 1)).before fun o => ?_
    cases o <;> exact .pure _
  | _ => exact hplain

theorem affirms_body (h : Fair count) (h' : Fair count') (hm : ∀ place, Affirms 1 (at₁ place) (at₂ place))
    (b : Blueprint) : Affirms 0 (bodyBy count at₁ b) (bodyBy count' at₂ b) := by
  have hfields : ∀ ks, Affirms 0 (fieldsBy count at₁ ks) (fieldsBy count' at₂ ks) := by
    intro ks
    induction ks with
    | nil => exact .pure []
    | cons k ks ih => exact (affirms_field h h' hm k).bind fun f => ih.map (f :: ·)
  exact (hfields b.schema).map fun fs => Message.mk b.kind fs []

end Containers

/-! ## Messages -/

theorem affirms_blueprint : Affirms 1 readBlueprint readBlueprint :=
  .of_fine (fun _ h => fine_blueprint h) fun r o s hu hs => by
    have hrem := hs.1
    change s.frame.limit - s.position + 2 ≤ r.frame.limit - r.position at hrem
    rw [hu.limit] at hrem
    omega

/-- **Messages are answered alike** with their counts taken in two fair ways, also if they are followed deeper. -/
theorem affirms_follow {count count' : String → Nat → Reading (Option Nat)} (h : Fair count) (h' : Fair count')
    {j k : Nat} (hjk : j ≤ k) (place : Place) : Affirms 1 (followBy count j place) (followBy count' k place) := by
  induction j generalizing k place with
  | zero => exact .of_error fun _ _ _ he => by cases he
  | succ j ih =>
    obtain ⟨k, rfl⟩ := Nat.exists_eq_add_of_le' (Nat.one_le_of_lt hjk)
    have hbody := affirms_body h h' fun place => ih (Nat.le_of_succ_le_succ hjk) place
    refine affirms_blueprint.before fun o => ?_
    cases o with
    | none => exact .pure none
    | some b =>
      cases place with
      | nested => exact (hbody b).below.map some
      | root => exact (hbody b).onLevel.map some

/-- a message is answered as it is read, however deep it was followed -/
theorem affirms_readAt {count : String → Nat → Reading (Option Nat)} (h : Fair count) (j : Nat) (place : Place) :
    Affirms 1 (followBy count j place) (readAt place) := by
  intro r hr a s hs
  obtain ⟨hs', hu, hp⟩ := affirms_follow h fair_readLength (Nat.le_max_left j r.nestingBound) place r hr a s hs
  have hshort : Short (max j r.nestingBound) r := ⟨hr, Nat.lt_of_succ_le (Nat.le_max_right ..)⟩
  refine ⟨?_, hu, hp⟩
  rw [followBy_readLength] at hs'
  rw [← (enough_readAt _ place r hshort).1, hs']

theorem affirms_readAt_self (place : Place) : Affirms 1 (readAt place) (readAt place) := by
  intro r hr a s hs
  have hby : followBy readLength r.nestingBound place r = .ok a s := by
    rw [followBy_readLength]
    exact hs
  exact affirms_readAt fair_readLength _ place r hr a s hby

end Reader

end Courier
