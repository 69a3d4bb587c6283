import Courier.Proofs.Codes
import Courier.Proofs.WindowExtension

/-!
Codes that read two windows, one of which begins with the other.

A code may go on as it likes from what its reads have come to, and from the depth, the levels and the settings of its
session. It `Abides` by the window if it tells nothing of where the window lies in the frame, and nothing of what lies
behind. With nothing behind, such a code comes to the same in both sessions, whatever it makes of a refusal:
`follows_codes`.

With bytes behind, a read that is refused in the narrow session may be answered in the wide one, and a code that takes
no notice of the refusal may tell the two apart. What can be said is of runs in which no read is refused, at whatever
depth. The `strict` code passes on every refusal it meets, so it is answered just where there is none, and then any code
is answered in the same way: `grants_run`.
-/

namespace Courier

/-- answers that are the same, and refusals that are by sessions that began at `p` and at `q` -/
inductive WireError.Told (p q : Nat) : (α : Type) → Except WireError α → Except WireError α → Prop
  | ok {α : Type} (a : α) : Told p q α (.ok a) (.ok a)
  | error {α : Type} {e e' : WireError} (h : e.Shifted p q e') : Told p q α (.error e) (.error e')

/-- sessions that differ in their frames, and in how many levels they have allocated -/
structure Reader.Beside (r s : Reader) : Prop where
  factory : s.factory = r.factory
  order : s.order = r.order
  maxLength : s.maxLength = r.maxLength
  levels : s.nesting.view = r.nesting.view

/-- a code that can be run with these bytes behind the window and without them, and wherever the window lies -/
def ReadCode.Abides {α : Type} (behind : Bytes) (c : ReadCode α) : Prop :=
  ∀ p q, c.Akin (WireError.Told p q) Reader.Beside (·.Suits behind) c

def CodeFactory.Abides (behind : Bytes) (codes : CodeFactory) : Prop :=
  ∀ type c, codes type = some c → c.Abides behind

/-- codes of such a factory, side by side -/
theorem CodeFactory.Abides.akin {behind : Bytes} {codes : CodeFactory} (h : codes.Abides behind) (p q : Nat)
    (type : Int16) :
    Option.Rel (ReadCode.Akin (WireError.Told p q) Reader.Beside (·.Suits behind)) (codes type) (codes type) := by
  cases hc : codes type with
  | none => exact .none
  | some c => exact .some (h type c hc p q)

/-- with nothing behind there is less to abide by -/
theorem ReadCode.Abides.alone {α : Type} {behind : Bytes} {c : ReadCode α} (h : c.Abides behind) : c.Abides [] :=
  fun p q => (h p q).mono fun _ hk => hk.windowed

theorem CodeFactory.Abides.alone {behind : Bytes} {codes : CodeFactory} (h : codes.Abides behind) : codes.Abides [] :=
  fun type c hc => (h type c hc).alone

/-- the code of suitable kinds -/
theorem ReadCode.abides_ofKinds {behind : Bytes} {ks : List FieldKind} (h : ∀ k ∈ ks, k.Suits behind) (kind : MessageKind)
    (fs : List Field) : (ReadCode.ofKinds kind ks fs).Abides behind := by
  induction ks generalizing fs with
  | nil => exact fun _ _ => .finish (.ok _)
  | cons k ks ih =>
    refine fun p q => .field (h k List.mem_cons_self) fun a b r s hab _ => ?_
    cases hab with
    | ok f => exact ih (fun k hk => h k (List.mem_cons_of_mem _ hk)) _ p q
    | error he => exact .finish (.error he)

namespace Reader

variable {α β : Type} {g : Gap} {d : Nat} {r s : Reader}

theorem Wider.beside (hf : g.fewer = g.factory) (h : Wider g d r s) : Beside r s :=
  ⟨by rw [h.fewer, h.factory, hf], h.order, h.maxLength, h.levels.symm⟩

theorem Wider.remaining_eq (h : Wider g d r s) (hx : g.behind = []) : s.remaining = r.remaining := by
  rw [h.wide_remaining, h.remaining, h.available, hx]
  rfl

/-! ## With nothing behind -/

theorem Follows.onto (hx : g.behind = []) (hf : g.fewer = g.factory) {act act' : Reading α}
    {next next' : Except WireError α → Reader → Reading β} (h : Follows g act act')
    (hn : ∀ a b r s, WireError.Told g.narrow g.wide α a b → Beside r s → Follows g (next a r) (next' b s)) :
    Follows g (onto act next) (onto act' next') := by
  intro d r s hrs
  have key := h d r s hrs
  unfold Reader.onto
  generalize act r = x at key
  generalize act' s = y at key
  cases key with
  | ok a k => exact hn _ _ _ _ (.ok a) (k.beside hf) d _ _ k
  | refused he k => exact hn _ _ _ _ (.error he) (k.beside hf) d _ _ k
  | panic => exact .panic
  | short hne => exact absurd hx hne
  | lost hne => exact absurd hf hne

/-- **Codes that abide by the window come to the same** with nothing behind it. -/
theorem follows_codes (hx : g.behind = []) (hf : g.fewer = g.factory) :
    Codes (Follows g) (WireError.Told g.narrow g.wide) Beside (·.Suits g.behind) where
  toPairs := follows_pairs g
  finish hxy := by
    cases hxy with
    | ok a => exact .pure a
    | error he => exact fun _ _ _ h => .refused he h
  unknown type := .refuse fun p n l he => by cases he
  panic := .panic
  field hk hat := follows_field hat hk
  onto h hn := h.onto hx hf hn
  below := .below
  onLevel := .onLevel

theorem follows_runCoded (hx : g.behind = []) (hf : g.fewer = g.factory) {codes : CodeFactory}
    (hcodes : codes.Abides g.behind) {c : ReadCode α} (hc : c.Abides g.behind) :
    Follows g (runCoded codes c) (runCoded codes c) := by
  refine (follows_codes hx hf).run (fun place d r s h => ?_) (hc _ _)
  have hbound : s.nestingBound = r.nestingBound := congrArg (· + 1) (h.remaining_eq hx)
  rw [messageCoded, messageCoded, hbound]
  exact (follows_codes hx hf).follow (hcodes.akin _ _) _ place d r s h

/-! ## Where no read is refused -/

/-- what the act of the narrow session answers, the act of the wide one answers too -/
def Grants (g : Gap) (act act' : Reading α) : Prop :=
  ∀ d r s, Wider g d r s → ∀ a t, act r = .ok a t → ∃ u, act' s = .ok a u ∧ Wider g d t u

namespace Grants

theorem of_follows (hf : g.fewer = g.factory) {act act' : Reading α} (h : Follows g act act') : Grants g act act' := by
  intro d r s hrs a t ht
  have key := h d r s hrs
  rw [ht] at key
  generalize act' s = y at key
  cases key with
  | @ok _ _ u k => exact ⟨u, rfl, k⟩
  | lost hne => exact absurd hf hne

theorem of_error {act act' : Reading α} (h : ∀ r a t, act r ≠ .ok a t) : Grants g act act' :=
  fun _ r _ _ a t ht => absurd ht (h r a t)

theorem bind {act act' : Reading α} {next next' : α → Reading β} (h : Grants g act act')
    (hn : ∀ a, Grants g (next a) (next' a)) : Grants g (act >>= next) (act' >>= next') := by
  intro d r s hrs b v hv
  obtain ⟨a, t, ht, hv⟩ := bind_ok.1 hv
  obtain ⟨u, hu, htu⟩ := h d r s hrs a t ht
  obtain ⟨w, hw, hvw⟩ := hn a d t u htu b v hv
  exact ⟨w, bind_ok.2 ⟨a, u, hu, hw⟩, hvw⟩

theorem below {act act' : Reading α} (h : Grants g act act') : Grants g (below act) (below act') := by
  intro d r s hrs a v hv
  obtain ⟨t, ht, rfl⟩ := below_ok hv
  obtain ⟨u, hu, htu⟩ := h (d + 1) _ _ hrs.forward a t ht
  refine ⟨u.onNesting (·.retreat true), ?_, htu.retreat true⟩
  unfold Reader.below
  rw [hu]
  exact if_neg (by rw [htu.wide_depth]; exact Nat.succ_ne_zero d)

theorem onLevel {act act' : Reading α} (h : Grants g act act') : Grants g (onLevel act) (onLevel act') := by
  intro d r s hrs a v hv
  obtain ⟨t, ht, hd, rfl⟩ := onLevel_ok hv
  obtain ⟨u, hu, htu⟩ := h d r s hrs a t ht
  refine ⟨u.onNesting .wipe, ?_, htu.onNesting Nesting.view_wipe (t.nesting.depth_wipe.trans htu.depth)⟩
  unfold Reader.onLevel
  rw [hu]
  exact if_pos (htu.wide_depth.trans (htu.depth.symm.trans hd))

theorem pairs (hf : g.fewer = g.factory) : Pairs (Grants g) where
  pure a := of_follows hf (.pure a)
  bind := bind
  byte := of_follows hf follows_byte
  int := of_follows hf follows_int
  long := of_follows hf follows_long
  fixed α _ _ := of_follows hf (follows_fixed α)
  length kind size := of_follows hf (follows_length kind size)
  array α _ := of_follows hf (follows_array α)
  byteArray := of_follows hf follows_byteArray
  booleanArray := of_follows hf follows_booleanArray
  string := of_follows hf follows_string
  object _ := of_follows hf (follows_objectWith _)

theorem field (hf : g.fewer = g.factory) {at₁ at₂ : Place → Reading (Option Message)}
    (hat : ∀ place, Grants g (at₁ place) (at₂ place)) {k : FieldKind} (hk : k.Suits g.behind) :
    Grants g (fieldWith at₁ k) (fieldWith at₂ k) := by
  refine (pairs hf).field (hat .nested) k (fun _ => hat .root) ?_ ?_ fun _ _ => of_error fun _ _ _ h => by cases h
  · rintro n rfl
    exact of_follows hf (follows_into (hk.behind_eq rfl) n)
  · rintro p rfl
    exact of_follows hf (follows_probe hk)

/-- a message whose direct type tells what reads it -/
theorem readWith (hf : g.fewer = g.factory) {bodies bodies' : Int16 → Option (Reading α)}
    (h : ∀ type, Option.Rel (Grants g) (bodies type) (bodies' type)) (place : Place) :
    Grants g (readWith bodies place) (readWith bodies' place) := by
  apply ((pairs hf).fixed Int16 (by decide)).bind
  intro type
  split
  · exact (pairs hf).pure none
  · have hbody := h type
    generalize bodies type = x at hbody
    generalize bodies' type = y at hbody
    cases hbody with
    | none => exact of_error fun _ _ _ h => by cases h
    | some hbody =>
      cases place with
      | nested => exact (pairs hf).map hbody.below some
      | root => exact (pairs hf).map hbody.onLevel some

/-- an act that is gone on from, and the same act where its refusals are passed on -/
theorem onto (hf : g.fewer = g.factory) {act act' : Reading α} {next next' : Except WireError α → Reader → Reading β}
    (h : Grants g act act') (he : ∀ e s r a t, next (.error e) s r ≠ .ok a t)
    (hn : ∀ a r s, Beside r s → Grants g (next (.ok a) r) (next' (.ok a) s)) : Grants g (onto act next) (onto act' next') := by
  intro d r s hrs b v hv
  unfold Reader.onto at hv ⊢
  rcases ht : act r with ⟨a, t⟩ | ⟨e | _, t⟩ <;> rw [ht] at hv
  · obtain ⟨u, hu, htu⟩ := h d r s hrs a t ht
    rw [hu]
    exact hn a t u (htu.beside hf) d t u htu b v hv
  · exact absurd hv (he e t t b v)
  · cases hv

end Grants

/-- **A code answers what its strict code answers**, with more bytes behind as well. -/
theorem grants_run (hf : g.fewer = g.factory) {at₁ at₂ : Place → Reading (Option Message)}
    (hat : ∀ place, Grants g (at₁ place) (at₂ place)) {c c' : ReadCode α}
    (hc : c.Akin (WireError.Told g.narrow g.wide) Beside (·.Suits g.behind) c') :
    Grants g (c.strict.run at₁) (c'.run at₂) := by
  induction hc with
  | finish hxy =>
    cases hxy with
    | ok a => exact (Grants.pairs hf).pure a
    | error => exact .of_error fun _ _ _ h => by cases h
  | field hk _ ih =>
    rw [ReadCode.strict, ReadCode.run, ReadCode.run]
    apply (Grants.field hf hat hk).onto hf
    · exact fun e s r a t h => by cases h
    · exact fun a r s hrs => ih _ _ r s (.ok a) hrs
  | object d _ ih =>
    rw [ReadCode.strict, ReadCode.run, ReadCode.run]
    apply ((Grants.pairs hf).object d).onto hf
    · exact fun e s r a t h => by cases h
    · exact fun a r s hrs => ih _ _ r s (.ok a) hrs
  | nested known _ _ ihb ih =>
    rw [ReadCode.strict, ReadCode.run, ReadCode.run]
    apply Grants.onto hf
    · apply Grants.readWith hf
      intro type
      split
      · exact .some (ihb type)
      · exact .none
    · exact fun e s r a t h => by cases h
    · exact fun a r s hrs => ih _ _ r s (.ok a) hrs

theorem grants_follow (hf : g.fewer = g.factory) {codes : CodeFactory} (hcodes : codes.Abides g.behind) (n : Nat)
    (place : Place) :
    Grants g (followWith (codeBodies codes.strict) n place) (followWith (codeBodies codes) n place) := by
  induction n generalizing place with
  | zero => exact .of_error fun _ _ _ h => by cases h
  | succ n ih =>
    refine Grants.readWith hf (fun type => ?_) place
    unfold codeBodies CodeFactory.strict
    cases hc : codes type with
    | none => exact .none
    | some c => exact .some (grants_run hf ih (hcodes type c hc _ _))

theorem grants_runCoded (hf : g.fewer = g.factory) {codes : CodeFactory} (hcodes : codes.Abides g.behind)
    {c : ReadCode α} (hc : c.Abides g.behind) : Grants g (runCoded codes.strict c.strict) (runCoded codes c) := by
  refine grants_run hf (fun place d r s h => ?_) (hc _ _)
  -- both sessions follow messages as deep as either would
  have hr : Short (r.remaining + s.remaining + 1) r := ⟨h.limit_le, by omega⟩
  have hs : Short (r.remaining + s.remaining + 1) s := ⟨h.wide_limit_le, by omega⟩
  rw [← (enough_messageCoded codes.strict _ place r hr).1, ← (enough_messageCoded codes _ place s hs).1]
  exact grants_follow hf hcodes _ place d r s h

end Reader

end Courier
