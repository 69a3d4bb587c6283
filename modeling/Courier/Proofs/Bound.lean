import Courier.Proofs.Codes
import Courier.Proofs.Harmless

/-!
How deep messages are followed does not show, and neither does whether they are made by blueprints or given by codes.

Two acts are the `SameOn` sessions of a sort if they do the same there and end in such sessions, be it with an answer or
with a refusal. The leaves are related to themselves; messages are by induction on how deep they are followed.

A message that is made by a blueprint reads the fields of its kinds, one after the other, and passes the first refusal
on. That is a code, so a factory of blueprints is a factory of codes: `readAt_codes`, `readField_codes`.

Following stops the program at messages that nest too deep. A header takes two bytes, so a session with fewer than `n`
bytes left never comes to the stop of `followWith _ n`, whatever its factory makes of the headers: `coded_succ`, and
`readField_eq` for a session of blueprints.
-/

namespace Courier

namespace Reader

variable {α β : Type}

/-- an act has ended in a session of that sort; a stop is no end -/
def EndsIn (I : Reader → Prop) : EStateM.Result Fault Reader α → Prop
  | .ok _ s => I s
  | .error (.error _) s => I s
  | .error .panic _ => True

/-- acts that do the same on sessions of a sort, and end in such sessions -/
def SameOn (I : Reader → Prop) (act act' : Reading α) : Prop :=
  ∀ r, I r → act' r = act r ∧ EndsIn I (act r)

theorem EndsIn.mono {I J : Reader → Prop} (h : ∀ r, I r → J r) {x : EStateM.Result Fault Reader α} (hx : EndsIn I x) :
    EndsIn J x := by
  rcases x with ⟨a, s⟩ | ⟨e | _, s⟩
  · exact h s hx
  · exact h s hx
  · trivial

namespace SameOn

variable {I : Reader → Prop}

/-- an act that does no harm does the same as itself -/
theorem of_fine (hI : Lasting I) {Q : Reader → α → Reader → Prop} {act : Reading α}
    (h : ∀ r, r.frame.limit ≤ r.frame.extent → Fine r (Q r) (act r)) : SameOn I act act := by
  intro r hr
  refine ⟨rfl, ?_⟩
  have hf := h r (hI.limit_le r hr)
  generalize act r = x at hf
  cases hf with
  | ok hu _ => exact hI.after r _ hr hu
  | refused hu => exact hI.after r _ hr hu

theorem pure (a : α) : SameOn I (Pure.pure a : Reading α) (Pure.pure a) :=
  fun _ hr => ⟨rfl, hr⟩

theorem refuse (e : WireError) : SameOn I (Reader.refuse e : Reading α) (Reader.refuse e) :=
  fun _ hr => ⟨rfl, hr⟩

theorem panic : SameOn I (throw .panic : Reading α) (throw .panic) :=
  fun _ _ => ⟨rfl, trivial⟩

theorem bind {act act' : Reading α} {next next' : α → Reading β} (h : SameOn I act act')
    (hn : ∀ a, SameOn I (next a) (next' a)) : SameOn I (act >>= next) (act' >>= next') := by
  intro r hr
  obtain ⟨heq, hpost⟩ := h r hr
  rw [bind_eq, bind_eq, heq]
  rcases hact : act r with ⟨a, s⟩ | ⟨e | _, s⟩ <;> rw [hact] at hpost
  · exact hn a s hpost
  · exact ⟨rfl, hpost⟩
  · exact ⟨rfl, trivial⟩

/-- an act that is gone on from, and one whose refusals are passed on -/
theorem passed {act act' : Reading α} {next : α → Reading β} {next' : Except WireError α → Reader → Reading β}
    (h : SameOn I act act') (hn : ∀ a s, SameOn I (next a) (next' (.ok a) s))
    (he : ∀ e s, next' (.error e) s = Reader.refuse e) : SameOn I (act >>= next) (onto act' next') := by
  intro r hr
  obtain ⟨heq, hpost⟩ := h r hr
  rw [bind_eq, onto, heq]
  rcases hact : act r with ⟨a, s⟩ | ⟨e | _, s⟩ <;> rw [hact] at hpost
  · exact hn a s s hpost
  · refine ⟨?_, hpost⟩
    dsimp only
    rw [he]
    rfl
  · exact ⟨rfl, trivial⟩

theorem onto {act act' : Reading α} {next next' : Except WireError α → Reader → Reading β} (h : SameOn I act act')
    (hn : ∀ a s, SameOn I (next a s) (next' a s)) : SameOn I (onto act next) (onto act' next') := by
  intro r hr
  obtain ⟨heq, hpost⟩ := h r hr
  unfold Reader.onto
  rw [heq]
  rcases hact : act r with ⟨a, s⟩ | ⟨e | _, s⟩ <;> rw [hact] at hpost
  · exact hn _ s s hpost
  · exact hn _ s s hpost
  · exact ⟨rfl, trivial⟩

theorem below (hI : Deep I) {act act' : Reading α} (h : SameOn I act act') : SameOn I (below act) (below act') := by
  intro r hr
  obtain ⟨heq, hpost⟩ := h (r.onNesting .forward) (hI.onNesting r _ hr)
  unfold Reader.below
  refine ⟨by rw [heq], ?_⟩
  rcases hact : act (r.onNesting .forward) with ⟨a, s⟩ | ⟨e | _, s⟩ <;> rw [hact] at hpost <;> dsimp only
  · split
    · trivial
    · exact hI.onNesting s _ hpost
  · split
    · trivial
    · exact hI.onNesting s _ hpost
  · trivial

theorem onLevel (hI : Deep I) {act act' : Reading α} (h : SameOn I act act') : SameOn I (onLevel act) (onLevel act') := by
  intro r hr
  obtain ⟨heq, hpost⟩ := h r hr
  unfold Reader.onLevel
  refine ⟨by rw [heq], ?_⟩
  rcases hact : act r with ⟨a, s⟩ | ⟨e | _, s⟩ <;> rw [hact] at hpost <;> dsimp only
  · split
    · exact hI.onNesting s _ hpost
    · trivial
  · exact hpost
  · trivial

theorem pairs (hI : Lasting I) : Pairs (SameOn I) where
  pure := pure
  bind := bind
  byte := of_fine hI fun _ h => fine_byte h
  int := of_fine hI fun _ h => fine_int h
  long := of_fine hI fun _ h => fine_long h
  fixed α _ hs := of_fine hI fun _ h => fine_fixed h α hs
  length kind size := of_fine hI fun _ h => fine_length h kind size
  array α _ := of_fine hI fun _ h => fine_array h α
  byteArray := of_fine hI fun _ h => fine_byteArray h
  booleanArray := of_fine hI fun _ h => fine_booleanArray h
  string := of_fine hI fun _ h => fine_string h
  object _ := of_fine hI fun _ h => fine_objectWith h _

theorem into (hI : Lasting I) (m : Nat) : SameOn I (readInto m) (readInto m) := by
  unfold readInto
  split
  · exact of_fine hI fun _ h => fine_upTo h m
  · exact panic

/-- fields whose messages are read in two ways that do the same -/
theorem field (hI : Lasting I) {at₁ at₂ : Place → Reading (Option Message)} (h : ∀ place, SameOn I (at₁ place) (at₂ place))
    (k : FieldKind) : SameOn I (fieldWith at₁ k) (fieldWith at₂ k) :=
  (pairs hI).field (h .nested) k (fun _ => h .root) (fun m _ => into hI m) (fun p _ => of_fine hI fun r _ => fine_probe p r)
    fun e _ => refuse e

theorem codes (hI : Deep I) : Codes (SameOn I) (fun _ => Eq) Eq fun _ => True where
  toPairs := pairs hI.toLasting
  finish := by
    rintro _ x _ rfl
    cases x with
    | ok a => exact pure a
    | error e => exact refuse e
  unknown type := refuse _
  panic := panic
  field _ hat := field hI.toLasting hat _
  onto h hn := h.onto fun a s => hn a a s s rfl rfl
  below := below hI
  onLevel := onLevel hI

end SameOn

/-! ## Messages made by blueprints -/

/-- sessions with that factory, whose limits lie within their data -/
structure Knows (factory : Factory) (r : Reader) : Prop where
  limit_le : r.frame.limit ≤ r.frame.extent
  factory : r.factory = factory

theorem Knows.deep (factory : Factory) : Deep (Knows factory) where
  limit_le _ h := h.limit_le
  after _ _ h hu := ⟨by rw [hu.limit, hu.extent]; exact h.limit_le, hu.factory.trans h.factory⟩
  onNesting _ _ h := ⟨h.limit_le, h.factory⟩

/-- the fields of these kinds, behind those that were read before -/
theorem sameOn_ofKinds {I : Reader → Prop} (hI : Lasting I) {at₁ at₂ : Place → Reading (Option Message)}
    (hat : ∀ place, SameOn I (at₁ place) (at₂ place)) (kind : MessageKind) (ks : List FieldKind) (fs : List Field) :
    SameOn I (do return Message.mk kind (fs ++ (← fieldsWith at₁ ks)) []) ((ReadCode.ofKinds kind ks fs).run at₂) := by
  induction ks generalizing fs with
  | nil =>
    intro r hr
    refine ⟨?_, hr⟩
    change EStateM.Result.ok (Message.mk kind fs []) r = .ok (.mk kind (fs ++ []) []) r
    rw [List.append_nil]
  | cons k ks ih =>
    have hread : (do return Message.mk kind (fs ++ (← fieldsWith at₁ (k :: ks))) [] : Reading Message) = (do
        let f ← fieldWith at₁ k
        return Message.mk kind (fs ++ [f] ++ (← fieldsWith at₁ ks)) []) := by
      simp only [fieldsWith, bind_assoc, pure_bind, List.append_assoc, List.singleton_append]
    rw [hread]
    exact (SameOn.field hI hat k).passed (fun f _ => ih (fs ++ [f])) fun _ _ => rfl

theorem sameOn_body {I : Reader → Prop} (hI : Lasting I) {at₁ at₂ : Place → Reading (Option Message)}
    (hat : ∀ place, SameOn I (at₁ place) (at₂ place)) (b : Blueprint) :
    SameOn I (bodyWith at₁ b) (b.code.run at₂) :=
  sameOn_ofKinds hI hat b.kind b.schema []

/-- a message that a factory makes is one whose code it knows -/
theorem follow_codes (factory : Factory) (n : Nat) (place : Place) :
    SameOn (Knows factory) (follow n place) (followWith (codeBodies factory.codes) n place) := by
  induction n generalizing place with
  | zero => exact .panic
  | succ n ih =>
    have hpairs := SameOn.pairs (Knows.deep factory).toLasting
    have hshort : SameOn (Knows factory) readShort readShort := hpairs.fixed Int16 (by decide)
    rw [follow, followWith, readWith, readBlueprint, bind_assoc]
    apply hshort.bind
    intro type
    by_cases hnull : type = nullMessageType
    · rw [if_pos hnull, if_pos hnull]
      exact .pure none
    · rw [if_neg hnull, if_neg hnull]
      -- the session at hand has the factory that the codes were made of
      intro s hs
      have hcode : codeBodies factory.codes (followWith (codeBodies factory.codes) n) type =
          (s.factory type).map (·.code.run (followWith (codeBodies factory.codes) n)) := by
        rw [hs.factory, codeBodies, Factory.codes, Option.map_map]
        rfl
      rw [hcode]
      simp only [bind_eq, get_eq]
      cases s.factory type with
      | none => exact ⟨rfl, hs⟩
      | some b =>
        have hbody := sameOn_body (Knows.deep factory).toLasting ih b
        cases place with
        | nested => exact hpairs.map (hbody.below (Knows.deep factory)) some s hs
        | root => exact hpairs.map (hbody.onLevel (Knows.deep factory)) some s hs

theorem readAt_codes (factory : Factory) (place : Place) :
    SameOn (Knows factory) (readAt place) (messageCoded factory.codes place) :=
  fun r hr => follow_codes factory r.nestingBound place r hr

/-- **A field of a session is a field of the codes** that its factory makes. -/
theorem readField_codes (factory : Factory) (k : FieldKind) :
    SameOn (Knows factory) (readField k) (fieldWith (messageCoded factory.codes) k) :=
  .field (Knows.deep factory).toLasting (readAt_codes factory) k

/-! ## How deep messages are followed -/

/-- fewer than `n` bytes are left, all of them within the data -/
structure Short (n : Nat) (r : Reader) : Prop where
  limit_le : r.frame.limit ≤ r.frame.extent
  remaining_lt : r.remaining < n

namespace Short

variable {n m : Nat} {r s : Reader}

theorem after (h : Short n r) (hu : Unharmed r s) : Short n s :=
  ⟨by rw [hu.limit, hu.extent]; exact h.limit_le, Nat.lt_of_le_of_lt hu.remaining_le h.remaining_lt⟩

theorem mono (h : Short n r) (hn : n ≤ m) : Short m r :=
  ⟨h.limit_le, Nat.lt_of_lt_of_le h.remaining_lt hn⟩

theorem deep (n : Nat) : Deep (Short n) where
  limit_le _ h := h.limit_le
  after _ _ h hu := h.after hu
  onNesting _ _ h := ⟨h.limit_le, h.remaining_lt⟩

theorem lasting (n : Nat) : Lasting (Short n) :=
  (deep n).toLasting

end Short

/-- the header of a message has taken two bytes -/
theorem sameOn_readWith {n : Nat} {bodies bodies' : Int16 → Option (Reading α)}
    (h : ∀ type, Option.Rel (SameOn (Short n)) (bodies type) (bodies' type)) (place : Place) :
    SameOn (Short (n + 1)) (readWith bodies place) (readWith bodies' place) := by
  intro r hr
  have hhead := fine_header hr.limit_le
  unfold readWith
  rw [bind_eq, bind_eq]
  rcases hread : readShort r with ⟨type, s⟩ | ⟨e | _, s⟩ <;> rw [hread] at hhead
  · have hs := hr.after hhead.unharmed
    have hrest : Short n s := ⟨hs.limit_le, by have := hhead.post; have := hr.remaining_lt; omega⟩
    dsimp only
    split
    · exact ⟨rfl, hs⟩
    · have hbody := h type
      generalize bodies type = x at hbody
      generalize bodies' type = y at hbody
      have hpairs := SameOn.pairs (Short.lasting n)
      cases hbody with
      | none => exact ⟨rfl, hs⟩
      | some hbody =>
        cases place with
        | nested =>
          obtain ⟨heq, hend⟩ := hpairs.map (hbody.below (Short.deep n)) some s hrest
          exact ⟨heq, hend.mono fun _ h => h.mono (Nat.le_succ n)⟩
        | root =>
          obtain ⟨heq, hend⟩ := hpairs.map (hbody.onLevel (Short.deep n)) some s hrest
          exact ⟨heq, hend.mono fun _ h => h.mono (Nat.le_succ n)⟩
  · refine ⟨rfl, ?_⟩
    cases hhead with
    | refused hu => exact hr.after hu
  · cases hhead

/-- **One level more makes no difference**, for codes of any sort. -/
theorem coded_succ (codes : CodeFactory) (n : Nat) (place : Place) :
    SameOn (Short n) (followWith (codeBodies codes) n place) (followWith (codeBodies codes) (n + 1) place) := by
  induction n generalizing place with
  | zero => exact fun r hr => absurd hr.remaining_lt (Nat.not_lt_zero _)
  | succ n ih =>
    rw [followWith, followWith]
    refine sameOn_readWith (fun type => ?_) place
    unfold codeBodies
    cases codes type with
    | none => exact .none
    | some c => exact .some ((SameOn.codes (Short.deep n)).run ih c.akin_self)

theorem coded_add (codes : CodeFactory) (n k : Nat) (place : Place) {r : Reader} (hr : Short n r) :
    followWith (codeBodies codes) (n + k) place r = followWith (codeBodies codes) n place r := by
  induction k with
  | zero => rfl
  | succ k ih =>
    calc followWith (codeBodies codes) (n + (k + 1)) place r = followWith (codeBodies codes) (n + k) place r :=
          (coded_succ codes (n + k) place r (hr.mono (Nat.le_add_right n k))).1
      _ = followWith (codeBodies codes) n place r := ih

/-- a message at a place is followed to any depth beyond the number of bytes left -/
theorem enough_messageCoded (codes : CodeFactory) (n : Nat) (place : Place) :
    SameOn (Short n) (messageCoded codes place) (followWith (codeBodies codes) n place) := by
  intro r hr
  have hb : Short r.nestingBound r := ⟨hr.limit_le, Nat.lt_succ_self _⟩
  obtain ⟨k, rfl⟩ := Nat.exists_eq_add_of_le (Nat.succ_le_of_lt hr.remaining_lt)
  refine ⟨coded_add codes _ k place hb, ?_⟩
  exact (coded_succ codes _ place r hb).2.mono fun _ h => h.mono (Nat.le_add_right _ k)

theorem enough_readAt (n : Nat) (place : Place) : SameOn (Short n) (readAt place) (follow n place) := by
  intro r hr
  have hk : Knows r.factory r := ⟨hr.limit_le, rfl⟩
  obtain ⟨heq, hend⟩ := enough_messageCoded r.factory.codes n place r hr
  rw [(readAt_codes r.factory place r hk).1] at heq hend
  exact ⟨(follow_codes r.factory n place r hk).1.symm.trans heq, hend⟩

theorem readField_eq {n : Nat} (k : FieldKind) {r : Reader} (hr : Short n r) :
    readField k r = fieldWith (follow n) k r :=
  (SameOn.field (Short.lasting n) (enough_readAt n) k r hr).1.symm

end Reader

end Courier
