import Courier.Proofs.Counts

/-!
The check of a count turns no container away that can be read.

Containers answer the same whether their counts are compared with the bytes left or not: `Spared` says it for messages
made by blueprints, `SparedCoded` for messages of any code. An item that is a message takes the bytes of its header,
whatever its code does then, and as long as it does not stop it does no harm: that is all that the comparison rests on.

Where no count is compared in the messages inside either, a code that takes no notice of a refusal may see that there is
none. What is answered is the same where every refusal is passed on.

`affirms_coded`: a message of any code costs a byte.
`affirms_followBy`: messages of strict codes, with their counts taken in two fair ways.
`count_check_spares`: the main result.
-/

namespace Courier

namespace Reader

variable {α β : Type}

/-! ## Messages of codes -/

/-- an act that does no harm, as long as it does not stop -/
def Mild (act : Reading α) : Prop :=
  ∀ r, r.frame.limit ≤ r.frame.extent → EndsIn (Unharmed r) (act r)

namespace Mild

theorem of_fine {Q : Reader → α → Reader → Prop} {act : Reading α}
    (h : ∀ r, r.frame.limit ≤ r.frame.extent → Fine r (Q r) (act r)) : Mild act := by
  intro r hr
  have hf := h r hr
  generalize act r = x at hf
  cases hf with
  | ok hu _ => exact hu
  | refused hu => exact hu

/-- what is done behind an act that did no harm -/
theorem behind {r s : Reader} (hr : r.frame.limit ≤ r.frame.extent) (hu : Unharmed r s) {act : Reading α}
    (h : Mild act) : EndsIn (Unharmed r) (act s) :=
  (h s (by rw [hu.limit, hu.extent]; exact hr)).mono fun _ hv => hu.trans hv

theorem panic : Mild (throw .panic : Reading α) :=
  fun _ _ => trivial

theorem bind {act : Reading α} {next : α → Reading β} (h : Mild act) (hn : ∀ a, Mild (next a)) :
    Mild (act >>= next) := by
  intro r hr
  have hact := h r hr
  rw [bind_eq]
  rcases hx : act r with ⟨a, s⟩ | ⟨e | _, s⟩ <;> rw [hx] at hact
  · exact (hn a).behind hr hact
  · exact hact
  · trivial

theorem onto {act : Reading α} {next : Except WireError α → Reader → Reading β} (h : Mild act)
    (hn : ∀ a s, Mild (next a s)) : Mild (onto act next) := by
  intro r hr
  have hact := h r hr
  unfold Reader.onto
  rcases hx : act r with ⟨a, s⟩ | ⟨e | _, s⟩ <;> rw [hx] at hact
  · exact (hn _ s).behind hr hact
  · exact (hn _ s).behind hr hact
  · trivial

theorem below {act : Reading α} (h : Mild act) : Mild (below act) := by
  intro r hr
  have hact := h (r.onNesting .forward) hr
  unfold Reader.below
  rcases hx : act (r.onNesting .forward) with ⟨a, s⟩ | ⟨e | _, s⟩ <;> rw [hx] at hact
  · simp only [if_neg hact.depth_ne_zero]
    exact hact.retreat true
  · simp only [if_neg hact.depth_ne_zero]
    exact hact.retreat false
  · trivial

theorem onLevel {act : Reading α} (h : Mild act) : Mild (onLevel act) := by
  intro r hr
  have hact := h r hr
  unfold Reader.onLevel
  rcases hx : act r with ⟨a, s⟩ | ⟨e | _, s⟩ <;> rw [hx] at hact
  · dsimp only
    split
    · exact hact.wipe
    · trivial
  · exact hact
  · trivial

theorem leaves : Leaves Mild where
  pure a := of_fine (Q := fun _ _ _ => True) fun _ _ => .pure trivial
  bind := bind
  refuse e := of_fine (Q := fun _ _ _ => True) fun _ _ => .refuse e
  byte := of_fine fun _ h => fine_byte h
  int := of_fine fun _ h => fine_int h
  long := of_fine fun _ h => fine_long h
  fixed α _ hs := of_fine fun _ h => fine_fixed h α hs
  length kind size := of_fine fun _ h => fine_length h kind size
  array α _ := of_fine fun _ h => fine_array h α
  byteArray := of_fine fun _ h => fine_byteArray h
  booleanArray := of_fine fun _ h => fine_booleanArray h
  string := of_fine fun _ h => fine_string h
  object d := of_fine fun _ h => fine_objectWith h d
  probe p := of_fine fun r _ => fine_probe p r

theorem descends : Descends Mild where
  toLeaves := leaves
  panic := panic
  blueprint := of_fine fun _ h => fine_blueprint h
  into m := by
    unfold readInto
    split
    · exact of_fine fun _ h => fine_upTo h m
    · exact panic
  below := below
  onLevel := onLevel

/-- an act that does no harm affirms itself -/
theorem affirms {act : Reading α} (h : Mild act) : Affirms 0 act act := by
  intro r hr a s hs
  have hact := h r hr
  rw [hs] at hact
  exact ⟨hs, hact, hact.position_le⟩

end Mild

theorem affirms_header : Affirms 1 readShort readShort :=
  affirms_fixed Int16 (by decide)

/-- a message costs the bytes of its header, whatever reads it then -/
theorem affirms_readWith {bodies bodies' : Int16 → Option (Reading α)}
    (h : ∀ type, Option.Rel (Affirms 0) (bodies type) (bodies' type)) (place : Place) :
    Affirms 1 (readWith bodies place) (readWith bodies' place) := by
  refine affirms_header.before fun type => ?_
  split
  · exact .pure none
  · have hbody := h type
    generalize bodies type = x at hbody
    generalize bodies' type = y at hbody
    cases hbody with
    | none => exact .of_error fun _ _ _ he => by cases he
    | some hbody =>
      cases place with
      | nested => exact hbody.below.map some
      | root => exact hbody.onLevel.map some

/-- **A message of any code costs a byte**, and does no harm if it is answered. -/
theorem affirms_coded (codes : CodeFactory) (place : Place) :
    Affirms 1 (messageCoded codes place) (messageCoded codes place) := by
  intro r hr a s hs
  rw [messageCoded, nestingBound, followWith] at hs
  refine (affirms_readWith (fun type => ?_) place r hr a s hs)
  unfold codeBodies
  cases codes type with
  | none => exact .none
  | some c => exact .some (Mild.descends.run .onto (Mild.descends.followCodes .onto codes r.remaining) c).affirms

end Reader

/-! ## Messages of codes, with their counts taken in any way -/

open Reader

/-- a message with that code on the level at hand, where the counts of its containers are taken in this way -/
def ReadCode.runBy (count : String → Nat → Reading (Option Nat)) (messageAt : Place → Reading (Option Message)) :
    {α : Type} → ReadCode α → Reading α
  | _, .finish result => ofExcept result
  | _, .field k next => onto (fieldBy count messageAt k) fun a s => (next a s).runBy count messageAt
  | _, .object d next => onto (readObjectWith d) fun a s => (next a s).runBy count messageAt
  | _, .nested known body next =>
    onto (readWith (fun type => if known type then some ((body type).runBy count messageAt) else none) .nested) fun a s =>
      (next a s).runBy count messageAt

namespace Reader

variable {α β : Type}

/-- what reads the body of a message whose code a factory knows -/
def codeBodiesBy (count : String → Nat → Reading (Option Nat)) (codes : CodeFactory)
    (messageAt : Place → Reading (Option Message)) (type : Int16) : Option (Reading Message) :=
  (codes type).map (·.runBy count messageAt)

/-- a message at a place, by a factory of codes -/
def messageCodedBy (count : String → Nat → Reading (Option Nat)) (codes : CodeFactory) (place : Place) :
    Reading (Option Message) := fun r =>
  followWith (codeBodiesBy count codes) r.nestingBound place r

end Reader

theorem ReadCode.runBy_readLength {α : Type} (messageAt : Place → Reading (Option Message)) (c : ReadCode α) :
    c.runBy readLength messageAt = c.run messageAt := by
  induction c with
  | finish result => rfl
  | field k next ih => rw [runBy, run, fieldBy_readLength, funext fun a => funext (ih a)]
  | object d next ih => rw [runBy, run, funext fun a => funext (ih a)]
  | nested known body next ihb ih =>
    rw [runBy, run, funext fun a => funext (ih a)]
    simp only [ihb]

namespace Reader

variable {α β : Type}

/-- with every count checked, messages are read as they are -/
theorem codeBodiesBy_readLength (codes : CodeFactory) : codeBodiesBy readLength codes = codeBodies codes := by
  funext messageAt type
  simp only [codeBodiesBy, codeBodies, ReadCode.runBy_readLength]

theorem messageCodedBy_readLength (codes : CodeFactory) : messageCodedBy readLength codes = messageCoded codes := by
  funext place r
  rw [messageCodedBy, messageCoded, codeBodiesBy_readLength]

section Strict

variable {count count' : String → Nat → Reading (Option Nat)} (h : Fair count) (h' : Fair count')

/-- an act that is gone on from, and one whose refusals are passed on -/
theorem Affirms.onto {act act' : Reading α} {next next' : Except WireError α → Reader → Reading β}
    (ha : Affirms 0 act act') (he : ∀ e s r b t, next (.error e) s r ≠ .ok b t)
    (hn : ∀ a s, Affirms 0 (next (.ok a) s) (next' (.ok a) s)) : Affirms 0 (onto act next) (onto act' next') := by
  intro r hr b t ht
  unfold Reader.onto at ht ⊢
  rcases hact : act r with ⟨a, s⟩ | ⟨e | _, s⟩ <;> rw [hact] at ht
  · obtain ⟨hact', hu, -⟩ := ha r hr a s hact
    obtain ⟨ht', hv, -⟩ := hn a s s (by rw [hu.limit, hu.extent]; exact hr) b t ht
    rw [hact']
    exact ⟨ht', hu.trans hv, (hu.trans hv).position_le⟩
  · exact absurd ht (he e s s b t)
  · cases ht

include h h'

/-- a code that passes every refusal on -/
theorem affirms_runBy {at₁ at₂ : Place → Reading (Option Message)} (hat : ∀ place, Affirms 1 (at₁ place) (at₂ place))
    (c : ReadCode α) : Affirms 0 (c.strict.runBy count at₁) (c.strict.runBy count' at₂) := by
  induction c with
  | finish result =>
    cases result with
    | ok a => exact .pure a
    | error e => exact .of_error fun _ _ _ he => by cases he
  | field k next ih =>
    rw [ReadCode.strict, ReadCode.runBy, ReadCode.runBy]
    apply (affirms_field h h' hat k).onto
    · exact fun e s r b t he => by cases he
    · exact fun a s => ih (.ok a) s
  | object d next ih =>
    rw [ReadCode.strict, ReadCode.runBy, ReadCode.runBy]
    apply (Affirms.pairs.object d).onto
    · exact fun e s r b t he => by cases he
    · exact fun a s => ih (.ok a) s
  | nested known body next ihb ih =>
    rw [ReadCode.strict, ReadCode.runBy, ReadCode.runBy]
    apply Affirms.onto
    · refine (affirms_readWith (fun type => ?_) .nested).mono (Nat.zero_le 1)
      split
      · exact .some (ihb type)
      · exact .none
    · exact fun e s r b t he => by cases he
    · exact fun a s => ih (.ok a) s

/-- **Messages of strict codes are answered alike** with their counts taken in two fair ways, also if they are followed
deeper. -/
theorem affirms_followBy (codes : CodeFactory) {j k : Nat} (hjk : j ≤ k) (place : Place) :
    Affirms 1 (followWith (codeBodiesBy count codes.strict) j place)
      (followWith (codeBodiesBy count' codes.strict) k place) := by
  induction j generalizing k place with
  | zero => exact .of_error fun _ _ _ he => by cases he
  | succ j ih =>
    obtain ⟨k, rfl⟩ := Nat.exists_eq_add_of_le' (Nat.one_le_of_lt hjk)
    refine affirms_readWith (fun type => ?_) place
    unfold codeBodiesBy CodeFactory.strict
    cases codes type with
    | none => exact .none
    | some c => exact .some (affirms_runBy h h' (fun place => ih (Nat.le_of_succ_le_succ hjk) place) c)

omit h' in
/-- such a message is answered as it is read, however deep it was followed -/
theorem affirms_messageCoded (codes : CodeFactory) (j : Nat) (place : Place) :
    Affirms 1 (followWith (codeBodiesBy count codes.strict) j place) (messageCoded codes.strict place) := by
  intro r hr a s hs
  obtain ⟨hs', hu, hp⟩ := affirms_followBy h fair_readLength codes (Nat.le_max_left j r.nestingBound) place r hr a s hs
  have hshort : Short (max j r.nestingBound) r := ⟨hr, Nat.lt_of_succ_le (Nat.le_max_right ..)⟩
  refine ⟨?_, hu, hp⟩
  rw [codeBodiesBy_readLength] at hs'
  rw [← (enough_messageCoded codes.strict _ place r hshort).1, hs']

end Strict

/-! ## Containers of a session -/

section Spared

variable {kind : String} {size : Nat} {count count' : String → Nat → Reading (Option Nat)}

/-- a container that was answered had a count within the data -/
theorem limit_le_of_counted (h : Fair count) {items : Nat → Reading α} {r s : Reader} {a : Option α}
    (hs : counted count kind size items r = .ok a s) : r.frame.limit ≤ r.frame.extent := by
  obtain ⟨o, t, hc, -⟩ := bind_ok.1 hs
  have hread := h.honest hc
  rw [readCount_eq] at hread
  have hin : 4 ≤ r.frame.available := available_of_readLength hread
  unfold Frame.available at hin
  split at hin <;> omega

/-- what was answered with the counts taken in one fair way is answered with another -/
theorem counted_of_fair (h : Fair count) (h' : Fair count') {items items' : Nat → Reading α}
    (hi : ∀ n, Affirms (n * size) (items n) (items' n)) {r s : Reader} {a : Option α}
    (hs : counted count kind size items r = .ok a s) : counted count' kind size items' r = .ok a s :=
  (Affirms.counted h h' hi r (limit_le_of_counted h hs) a s hs).1

theorem SameOn.counted {n : Nat} {items items' : Nat → Reading α} (h : ∀ k, SameOn (Short n) (items k) (items' k)) :
    SameOn (Short n) (counted readLength kind size items) (counted readLength kind size items') := by
  have hpairs := SameOn.pairs (Short.lasting n)
  apply hpairs.bind (hpairs.length kind size)
  intro o
  cases o with
  | none => exact .pure none
  | some k => exact hpairs.map (h k) some

/-- what a container is beside the same container with its counts taken in other ways -/
structure Spared (act : Reading (Option α))
    (way : (String → Nat → Reading (Option Nat)) → (Place → Reading (Option Message)) → Reading (Option α)) : Prop where
  /-- the same is answered where the count of the container is not compared with the bytes left -/
  outside : ∀ r a s, way readCount readAt r = .ok a s ↔ act r = .ok a s
  /-- and where no count is, in the messages inside either, however deep they are followed -/
  everywhere : ∀ r a s, (∃ n, way readCount (followBy readCount n) r = .ok a s) ↔ act r = .ok a s
  /-- whatever is done about counts that are gone on with and should not be, there are none -/
  unwarned : ∀ stray, way (warned stray) (readAtBy (warned stray)) = act

theorem spared_counted {items : (Place → Reading (Option Message)) → Nat → Reading α}
    (haffirms : ∀ {at₁ at₂ : Place → Reading (Option Message)}, Affirms 1 (at₁ .nested) (at₂ .nested) →
      ∀ n, Affirms (n * size) (items at₁ n) (items at₂ n))
    (henough : ∀ {m : Nat} {at₁ at₂ : Place → Reading (Option Message)}, SameOn (Short m) (at₁ .nested) (at₂ .nested) →
      ∀ n, SameOn (Short m) (items at₁ n) (items at₂ n)) :
    Spared (counted readLength kind size (items readAt)) fun count messageAt => counted count kind size (items messageAt) where
  outside r a s := by
    have hself := haffirms (affirms_readAt_self .nested)
    exact ⟨counted_of_fair fair_readCount fair_readLength hself, counted_of_fair fair_readLength fair_readCount hself⟩
  everywhere r a s := by
    constructor
    · rintro ⟨n, hs⟩
      exact counted_of_fair fair_readCount fair_readLength (haffirms (affirms_readAt fair_readCount n .nested)) hs
    · intro hs
      have hshort : Short r.nestingBound r := ⟨limit_le_of_counted fair_readLength hs, Nat.lt_succ_self _⟩
      have hfollow := haffirms (affirms_follow fair_readLength fair_readCount (Nat.le_refl r.nestingBound) .nested)
      rw [followBy_readLength] at hfollow
      refine ⟨r.nestingBound, counted_of_fair fair_readLength fair_readCount hfollow ?_⟩
      rw [(SameOn.counted (henough (enough_readAt r.nestingBound .nested)) r hshort).1, hs]
  unwarned stray := by
    simp only [warned_eq, readAtBy_readLength]

/-- what a container of messages of any code is beside the same container with its counts taken in other ways -/
structure SparedCoded (act : (Place → Reading (Option Message)) → Reading (Option α))
    (way : (String → Nat → Reading (Option Nat)) → (Place → Reading (Option Message)) → Reading (Option α)) : Prop where
  /-- the same is answered where the count of the container is not compared with the bytes left -/
  outside : ∀ codes r a s, way readCount (messageCoded codes) r = .ok a s ↔ act (messageCoded codes) r = .ok a s
  /-- and where no count is, in the messages inside either, if these pass on every refusal -/
  everywhere : ∀ (codes : CodeFactory) r a s, (∃ n, way readCount (followWith (codeBodiesBy readCount codes.strict) n) r =
    .ok a s) ↔ act (messageCoded codes.strict) r = .ok a s
  /-- whatever is done about counts that are gone on with and should not be, there are none -/
  unwarned : ∀ stray codes, way (warned stray) (messageCodedBy (warned stray) codes) = act (messageCoded codes)

theorem sparedCoded_counted {items : (Place → Reading (Option Message)) → Nat → Reading α}
    (haffirms : ∀ {at₁ at₂ : Place → Reading (Option Message)}, Affirms 1 (at₁ .nested) (at₂ .nested) →
      ∀ n, Affirms (n * size) (items at₁ n) (items at₂ n))
    (henough : ∀ {m : Nat} {at₁ at₂ : Place → Reading (Option Message)}, SameOn (Short m) (at₁ .nested) (at₂ .nested) →
      ∀ n, SameOn (Short m) (items at₁ n) (items at₂ n)) :
    SparedCoded (fun messageAt => counted readLength kind size (items messageAt)) fun count messageAt =>
      counted count kind size (items messageAt) where
  outside codes r a s := by
    have hself := haffirms (affirms_coded codes .nested)
    exact ⟨counted_of_fair fair_readCount fair_readLength hself, counted_of_fair fair_readLength fair_readCount hself⟩
  everywhere codes r a s := by
    constructor
    · rintro ⟨n, hs⟩
      exact counted_of_fair fair_readCount fair_readLength
        (haffirms (affirms_messageCoded fair_readCount codes n .nested)) hs
    · intro hs
      have hshort : Short r.nestingBound r := ⟨limit_le_of_counted fair_readLength hs, Nat.lt_succ_self _⟩
      have hfollow := haffirms
        (affirms_followBy fair_readLength fair_readCount codes (Nat.le_refl r.nestingBound) .nested)
      rw [codeBodiesBy_readLength] at hfollow
      refine ⟨r.nestingBound, counted_of_fair fair_readLength fair_readCount hfollow ?_⟩
      rw [(SameOn.counted (henough (enough_messageCoded codes.strict r.nestingBound .nested)) r hshort).1, hs]
  unwarned stray codes := by
    simp only [warned_eq, messageCodedBy_readLength]

end Spared

/-- **The check of a count turns no container away that can be read**, and every count that is gone on with has room. The
session is any at all, and so are its factory, its settings and the types of the items. Arrays, collections and maps of
a session answer the same, with the same session behind them, as they would if their count were not compared with the
bytes left, and as they would if no count were, in all messages inside; nothing is answered that they would not answer.
A count that is gone on with is no larger than the number of bytes behind it, or half of it for maps, and no larger than
counts may be; whatever were done about other ones, at the top or in the messages inside, makes no difference. The same
is true of messages of any code, as long as these pass on every refusal where no count is compared inside them. -/
theorem count_check_spares :
    (∀ t, Spared (readObjectArray t) fun count messageAt => listingBy count messageAt (listingName .array) t) ∧
    (∀ t, Spared (readCollection t) fun count messageAt => listingBy count messageAt (listingName .collection) t) ∧
    (∀ kt vt linked, Spared (readMap kt vt linked) fun count messageAt => mapBy count messageAt kt vt linked) ∧
    (∀ kind size r n s, readLength kind size r = .ok (some n) s →
      s = r.advance lengthPrefixSize ∧ n * size ≤ s.remaining ∧ n ≤ s.maxLength) ∧
    (∀ kind t, SparedCoded (fun messageAt => listingWith messageAt kind t) fun count messageAt =>
      listingBy count messageAt kind t) ∧
    ∀ kt vt linked, SparedCoded (fun messageAt => mapWith messageAt kt vt linked) fun count messageAt =>
      mapBy count messageAt kt vt linked := by
  have hitems : ∀ {m : Nat} {at₁ at₂ : Place → Reading (Option Message)} (t : ItemType),
      SameOn (Short m) (at₁ .nested) (at₂ .nested) → ∀ n, SameOn (Short m) (itemsWith at₁ t n) (itemsWith at₂ t n) :=
    fun t hm n => (SameOn.pairs (Short.lasting _)).items hm t n
  have hentries : ∀ {m : Nat} {at₁ at₂ : Place → Reading (Option Message)} (kt vt : ItemType) (linked : Bool),
      SameOn (Short m) (at₁ .nested) (at₂ .nested) → ∀ n, SameOn (Short m) (entriesWith at₁ kt vt n (.empty linked))
        (entriesWith at₂ kt vt n (.empty linked)) :=
    fun kt vt linked hm n => (SameOn.pairs (Short.lasting _)).entries hm kt vt n _
  refine ⟨fun t => ?_, fun t => ?_, fun kt vt linked => ?_, fun kind size r n s h => readLength_some h,
    fun kind t => ?_, fun kt vt linked => ?_⟩
  · exact spared_counted (fun hm n => affirms_items hm t n) (hitems t)
  · exact spared_counted (fun hm n => affirms_items hm t n) (hitems t)
  · exact spared_counted (fun hm n => affirms_entries hm kt vt n _) (hentries kt vt linked)
  · exact sparedCoded_counted (fun hm n => affirms_items hm t n) (hitems t)
  · exact sparedCoded_counted (fun hm n => affirms_entries hm kt vt n _) (hentries kt vt linked)

/-- a collection with a message in it that holds a collection of its own, and absent messages at both depths -/
def nestedListReader : Reader where
  frame := .ofBytes [2, 0, 0, 0, 7, 0, 1, 0, 0, 0, 0, 128, 0, 128]
  nesting := .ofCapacity 1
  factory := fun type => if type = 7 then some (.record 7 [.items .list .message]) else none
  order := .little
  maxLength := 2

theorem nested_list_spared :
    ∃ vs s, listingBy readCount (followBy readCount 2) "collection" .message nestedListReader = .ok (some vs) s ∧
      readCollection .message nestedListReader = .ok (some vs) s ∧ vs.length = 2 ∧ s.remaining = 0 ∧
      ∃ t, readLength "collection" 1 nestedListReader = .ok (some 2) t ∧ 2 * 1 ≤ t.remaining ∧ 2 ≤ t.maxLength := by
  obtain ⟨-, hcollection, -, hcount, -⟩ := count_check_spares
  have hunchecked : ∃ vs s, listingBy readCount (followBy readCount 2) "collection" .message nestedListReader
      = .ok (some vs) s ∧ vs.length = 2 ∧ s.remaining = 0 := ⟨_, _, rfl, rfl, rfl⟩
  obtain ⟨vs, s, hs, hlength, hremaining⟩ := hunchecked
  have hread : readLength "collection" 1 nestedListReader = .ok (some 2) (nestedListReader.advance 4) := rfl
  obtain ⟨-, hroom, hmax⟩ := hcount _ _ _ _ _ hread
  exact ⟨vs, s, hs, ((hcollection .message).everywhere _ _ _).1 ⟨2, hs⟩, hlength, hremaining, _, hread, hroom, hmax⟩

end Reader

end Courier
