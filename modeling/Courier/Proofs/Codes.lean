import Courier.Proofs.Leaves

/-!
What holds of reads holds of the codes that are made of them.

Two codes are `Akin` if they make the same reads and go on alike, step for step, from answers and sessions that are
related. `Codes P` says that a relation between acts, besides holding of the leaves, is kept where an act goes on with
what another one has come to, be it answered or refused. It then holds of akin codes, and of messages read by factories
of akin codes, however deep they are followed: `Codes.run`, `Codes.follow`.

A property of acts is a relation of acts to themselves, and every code is akin to itself: `Descends.run` and
`Descends.followCodes` say the same of a property.

A code may take no notice of a refusal. The `strict` code of it passes on every refusal it meets, so it is answered just
where no read is refused, at whatever depth.
-/

namespace Courier

open Reader

/-- codes that make the same reads, of kinds in `K`, and go on alike from answers related by `T` in sessions related by
`R` -/
inductive ReadCode.Akin (T : ∀ α : Type, Except WireError α → Except WireError α → Prop) (R : Reader → Reader → Prop)
    (K : FieldKind → Prop) : {α : Type} → ReadCode α → ReadCode α → Prop
  | finish {α : Type} {x y : Except WireError α} (h : T α x y) : Akin T R K (.finish x) (.finish y)
  | field {α : Type} {k : FieldKind} {next next' : Except WireError Field → Reader → ReadCode α} (hk : K k)
      (h : ∀ a b r s, T _ a b → R r s → Akin T R K (next a r) (next' b s)) :
      Akin T R K (.field k next) (.field k next')
  | object {α β : Type} (d : Decoder β) {next next' : Except WireError β → Reader → ReadCode α}
      (h : ∀ a b r s, T _ a b → R r s → Akin T R K (next a r) (next' b s)) :
      Akin T R K (.object d next) (.object d next')
  | nested {α : Type} (known : Int16 → Bool) {body body' : Int16 → ReadCode Message}
      {next next' : Except WireError (Option Message) → Reader → ReadCode α}
      (hb : ∀ type, Akin T R K (body type) (body' type))
      (h : ∀ a b r s, T _ a b → R r s → Akin T R K (next a r) (next' b s)) :
      Akin T R K (.nested known body next) (.nested known body' next')

theorem ReadCode.Akin.mono {T : ∀ α : Type, Except WireError α → Except WireError α → Prop} {R : Reader → Reader → Prop}
    {K L : FieldKind → Prop} (hKL : ∀ k, K k → L k) {α : Type} {c c' : ReadCode α} (h : c.Akin T R K c') :
    c.Akin T R L c' := by
  induction h with
  | finish hxy => exact .finish hxy
  | field hk _ ih => exact .field (hKL _ hk) ih
  | object d _ ih => exact .object d ih
  | nested known _ _ ihb ih => exact .nested known ihb ih

/-- a code does the same as itself on the same answers -/
theorem ReadCode.akin_self {α : Type} (c : ReadCode α) : c.Akin (fun _ => Eq) Eq (fun _ => True) c := by
  induction c with
  | finish result => exact .finish rfl
  | field k next ih => exact .field trivial fun a b r s ha hr => by subst ha hr; exact ih a r
  | object d next ih => exact .object d fun a b r s ha hr => by subst ha hr; exact ih a r
  | nested known body next ihb ih => exact .nested known ihb fun a b r s ha hr => by subst ha hr; exact ih a r

/-- the same code, which passes on every refusal it meets -/
def ReadCode.strict : {α : Type} → ReadCode α → ReadCode α
  | _, .finish result => .finish result
  | _, .field k next => .field k fun
    | .ok f, s => (next (.ok f) s).strict
    | .error e, _ => .finish (.error e)
  | _, .object d next => .object d fun
    | .ok b, s => (next (.ok b) s).strict
    | .error e, _ => .finish (.error e)
  | _, .nested known body next => .nested known (fun type => (body type).strict) fun
    | .ok m, s => (next (.ok m) s).strict
    | .error e, _ => .finish (.error e)

def CodeFactory.strict (codes : CodeFactory) : CodeFactory :=
  fun type => (codes type).map ReadCode.strict

namespace Reader

variable {α β : Type}

/-- a relation between acts that codes keep -/
structure Codes (P : ∀ {α : Type}, Reading α → Reading α → Prop)
    (T : ∀ α : Type, Except WireError α → Except WireError α → Prop) (R : Reader → Reader → Prop)
    (K : FieldKind → Prop) : Prop extends Pairs P where
  finish : ∀ {α : Type} {x y : Except WireError α}, T α x y → P (ofExcept x) (ofExcept y)
  unknown : ∀ {α : Type} (type : Int16),
    P (refuse (.unknownMessageType type) : Reading α) (refuse (.unknownMessageType type))
  panic : ∀ {α : Type}, P (throw .panic : Reading α) (throw .panic)
  field : ∀ {at₁ at₂ : Place → Reading (Option Message)} {k : FieldKind}, K k → (∀ place, P (at₁ place) (at₂ place)) →
    P (fieldWith at₁ k) (fieldWith at₂ k)
  onto : ∀ {α β : Type} {act act' : Reading α} {next next' : Except WireError α → Reader → Reading β}, P act act' →
    (∀ a b r s, T _ a b → R r s → P (next a r) (next' b s)) → P (onto act next) (onto act' next')
  below : ∀ {α : Type} {act act' : Reading α}, P act act' → P (Reader.below act) (Reader.below act')
  onLevel : ∀ {α : Type} {act act' : Reading α}, P act act' → P (Reader.onLevel act) (Reader.onLevel act')

namespace Codes

variable {P : ∀ {α : Type}, Reading α → Reading α → Prop}
  {T : ∀ α : Type, Except WireError α → Except WireError α → Prop} {R : Reader → Reader → Prop} {K : FieldKind → Prop}

/-- a message whose direct type tells what reads it -/
theorem readWith (h : Codes P T R K) {bodies bodies' : Int16 → Option (Reading α)}
    (hb : ∀ type, Option.Rel P (bodies type) (bodies' type)) (place : Place) :
    P (readWith bodies place) (readWith bodies' place) := by
  apply h.bind (h.fixed Int16 (by decide))
  intro type
  split
  · exact h.pure none
  · have hbody := hb type
    generalize bodies type = x at hbody
    generalize bodies' type = y at hbody
    cases hbody with
    | none => exact h.unknown type
    | some hbody =>
      cases place with
      | nested => exact h.map (h.below hbody) some
      | root => exact h.map (h.onLevel hbody) some

/-- **Akin codes** are related where the messages they read are. -/
theorem run (h : Codes P T R K) {at₁ at₂ : Place → Reading (Option Message)} (hat : ∀ place, P (at₁ place) (at₂ place))
    {c c' : ReadCode α} (hc : c.Akin T R K c') : P (c.run at₁) (c'.run at₂) := by
  induction hc with
  | finish hxy => exact h.finish hxy
  | field hk _ ih => exact h.onto (h.field hk hat) ih
  | object d _ ih => exact h.onto (h.object d) ih
  | nested known _ _ ihb ih =>
    refine h.onto (h.readWith (fun type => ?_) .nested) ih
    split
    · exact .some (ihb type)
    · exact .none

/-- messages by factories of akin codes, however deep they are followed -/
theorem follow (h : Codes P T R K) {codes codes' : CodeFactory}
    (hcodes : ∀ type, Option.Rel (ReadCode.Akin T R K) (codes type) (codes' type)) (n : Nat) (place : Place) :
    P (followWith (codeBodies codes) n place) (followWith (codeBodies codes') n place) := by
  induction n generalizing place with
  | zero => exact h.panic
  | succ n ih =>
    refine h.readWith (fun type => ?_) place
    have hcode := hcodes type
    unfold codeBodies
    generalize codes type = x at hcode
    generalize codes' type = y at hcode
    cases hcode with
    | none => exact .none
    | some hc => exact .some (h.run ih hc)

end Codes

/-! ## Properties of acts -/

namespace Descends

variable {P : ∀ {α : Type}, Reading α → Prop}

/-- a property that is kept where an act goes on with what another one has come to, and does so in the same way in
sessions related by `R` -/
theorem codes (h : Descends P) {R : Reader → Reader → Prop} (hR : ∀ r, R r r)
    (honto : ∀ {α β : Type} {act : Reading α} {next : Except WireError α → Reader → Reading β}, P act →
      (∀ a r s, R r s → next a s = next a r) → (∀ a s, P (next a s)) → P (onto act next)) :
    Codes (fun act act' => act' = act ∧ P act) (fun _ => Eq) R fun _ => True where
  toPairs := h.pairs
  finish := by
    rintro _ x _ rfl
    refine ⟨rfl, ?_⟩
    cases x with
    | ok a => exact h.pure a
    | error e => exact h.refuse e
  unknown type := ⟨rfl, h.refuse _⟩
  panic := ⟨rfl, h.panic⟩
  field {at₁ at₂ k} _ hat := by
    obtain rfl : at₂ = at₁ := funext fun place => (hat place).1
    exact ⟨rfl, h.toLeaves.field (hat .nested).2 k (fun _ => (hat .root).2) fun m _ => h.into m⟩
  onto := by
    rintro _ _ act _ next next' ⟨rfl, ha⟩ hn
    obtain rfl : next' = next := funext fun a => funext fun s => (hn a a s s rfl (hR s)).1
    exact ⟨rfl, honto ha (fun a r s hrs => (hn a a r s rfl hrs).1) fun a s => (hn a a s s rfl (hR s)).2⟩
  below := by
    rintro _ act _ ⟨rfl, ha⟩
    exact ⟨rfl, h.below ha⟩
  onLevel := by
    rintro _ act _ ⟨rfl, ha⟩
    exact ⟨rfl, h.onLevel ha⟩

section Run

variable (h : Descends P) (honto : ∀ {α β : Type} {act : Reading α} {next : Except WireError α → Reader → Reading β},
  P act → (∀ a s, P (next a s)) → P (onto act next))

include h honto

/-- a code, if the messages it reads have the property -/
theorem run {messageAt : Place → Reading (Option Message)} (hat : ∀ place, P (messageAt place)) (c : ReadCode α) :
    P (c.run messageAt) := by
  have hself : c.Akin (fun _ => Eq) Eq (fun _ => True) c := c.akin_self
  exact ((h.codes (fun _ => rfl) fun ha _ hn => honto ha hn).run (fun place => ⟨rfl, hat place⟩) hself).2

/-- messages by a factory of codes, however deep they are followed -/
theorem followCodes (codes : CodeFactory) (n : Nat) (place : Place) : P (followWith (codeBodies codes) n place) := by
  have hself : ∀ type, Option.Rel (ReadCode.Akin (fun _ => Eq) Eq fun _ => True) (codes type) (codes type) := by
    intro type
    cases codes type with
    | none => exact .none
    | some c => exact .some c.akin_self
  exact ((h.codes (fun _ => rfl) fun ha _ hn => honto ha hn).follow hself n place).2

end Run

end Descends

end Reader

end Courier
