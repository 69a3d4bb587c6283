import Courier.Proofs.Bound
import Courier.Proofs.Session
import Courier.Turn

/-!
Reads of bytes that nobody vouches for.

Whatever the bytes of a frame are and wherever its position stands, a read answers or refuses; it never stops the
program, and it does the session no harm. That is so of messages of any code, which may read one thing or another as the
bytes have it and take no notice of refusals, and of objects taken up by any decoder. A code `Asks` for reads of some
kinds; what it may not ask for inside a message is a root, since that stands on the outermost level only.

`safe_run`: a code is safe where its reads are.
`safe_coded`: the bound that messages are followed to is never reached, since each header takes two bytes.
`Bench.read_hostile`: the main result.
-/

namespace Courier

/-- whether a read can be one of those that a message is made of: a root cannot, since it stands on the outermost level
only; a buffer has to be one that an allocation can hold -/
def FieldKind.nestable : FieldKind → Bool
  | .root | .rootSummary => false
  | .raw n => n ≤ maxAllocation
  | _ => true

/-- whether a read can be asked for at all -/
def FieldKind.askable : FieldKind → Bool
  | .raw n => n ≤ maxAllocation
  | _ => true

/-- the reads of a code are of kinds in `K`, and those of the messages whose codes it brings are of kinds in `L` -/
def ReadCode.Asks (L : FieldKind → Prop) : {α : Type} → ReadCode α → (FieldKind → Prop) → Prop
  | _, .finish _, _ => True
  | _, .field k next, K => K k ∧ ∀ a s, (next a s).Asks L K
  | _, .object _ next, K => ∀ a s, (next a s).Asks L K
  | _, .nested _ body next, K => (∀ type, (body type).Asks L L) ∧ ∀ a s, (next a s).Asks L K

/-- a code that a message can have -/
def ReadCode.Nestable {α : Type} (c : ReadCode α) : Prop :=
  c.Asks (fun k => k.nestable = true) fun k => k.nestable = true

/-- a code that a session can have -/
def ReadCode.Askable {α : Type} (c : ReadCode α) : Prop :=
  c.Asks (fun k => k.nestable = true) fun k => k.askable = true

/-- a factory whose messages are read without roots in them -/
def Factory.Rootless (factory : Factory) : Prop :=
  ∀ type b, factory type = some b → ∀ k ∈ b.schema, k.nestable = true

/-- a factory of codes that messages can have -/
def CodeFactory.Rootless (codes : CodeFactory) : Prop :=
  ∀ type c, codes type = some c → c.Nestable

theorem ReadCode.asks_ofKinds {L K : FieldKind → Prop} {ks : List FieldKind} (h : ∀ k ∈ ks, K k) (kind : MessageKind)
    (fs : List Field) : (ReadCode.ofKinds kind ks fs).Asks L K := by
  induction ks generalizing fs with
  | nil => trivial
  | cons k ks ih =>
    refine ⟨h k List.mem_cons_self, fun a s => ?_⟩
    cases a with
    | error e => trivial
    | ok f => exact ih (fun k hk => h k (List.mem_cons_of_mem _ hk)) _

theorem Factory.Rootless.codes {factory : Factory} (h : factory.Rootless) : factory.codes.Rootless := by
  intro type c hc
  obtain ⟨b, hb, rfl⟩ := Option.map_eq_some_iff.1 hc
  exact ReadCode.asks_ofKinds (h type b hb) b.kind []

namespace Reader

variable {α β : Type}

/-! ## Codes -/

/-- a nested message, if its body does no harm behind the header -/
theorem Fine.nested {bodies : Int16 → Option (Reading α)} {r : Reader} (hr : r.frame.limit ≤ r.frame.extent)
    (h : ∀ type body, bodies type = some body → ∀ s, Unharmed r s → s.remaining + 2 ≤ r.remaining →
      Fine (s.onNesting .forward) (fun _ _ => True) (body (s.onNesting .forward))) :
    Fine r (fun _ _ => True) (readWith bodies .nested r) := by
  apply (fine_header hr).bind
  intro type s hu hrem
  split
  · exact .pure trivial
  · cases hb : bodies type with
    | none => exact .refuse _
    | some body => exact (h type body hb s hu hrem).below.bind fun _ _ _ _ => .pure trivial

/-- a root on the outermost level, if its body does no harm behind the header -/
theorem Fine.root {bodies : Int16 → Option (Reading α)} {r : Reader} (hr : r.frame.limit ≤ r.frame.extent)
    (hd : r.depth = 0) (h : ∀ type body, bodies type = some body → ∀ s, Unharmed r s → s.remaining + 2 ≤ r.remaining →
      Fine s (fun _ _ => True) (body s)) : Fine r (fun _ _ => True) (readWith bodies .root r) := by
  apply (fine_header hr).bind
  intro type s hu hrem
  split
  · exact .pure trivial
  · cases hb : bodies type with
    | none => exact .refuse _
    | some body =>
      exact ((h type body hb s hu hrem).onLevel (hu.depth.trans hd)).bind fun _ _ _ _ => .pure trivial

/-- **A code is safe where its reads are**, and those of its nested messages wherever such a message may stand. -/
theorem safe_run {J : Reader → Prop} (hJ : Deep J) {L : FieldKind → Prop} {messageAt : Place → Reading (Option Message)}
    (hL : ∀ k, L k → Safe J (fieldWith messageAt k)) {I : Reader → Prop} (hI : Lasting I) (hIJ : ∀ r, I r → J r)
    {K : FieldKind → Prop} (hK : ∀ k, K k → Safe I (fieldWith messageAt k)) {c : ReadCode α} (hc : c.Asks L K) :
    Safe I (c.run messageAt) := by
  induction c generalizing I K with
  | finish result => cases result <;> exact fun r _ => by first | exact .pure trivial | exact .refuse _
  | field k next ih =>
    exact fun r hr => (hK k hc.1 r hr).onto fun a s hu => ih a s hI hIJ hK (hc.2 a s) s (hI.after r s hr hu)
  | object d next ih =>
    exact fun r hr => (fine_objectWith (hI.limit_le r hr) d).onto fun a s hu =>
      ih a s hI hIJ hK (hc a s) s (hI.after r s hr hu)
  | nested known body next ihb ih =>
    intro r hr
    refine Fine.onto (Fine.nested (hI.limit_le r hr) fun type act hact s hu _ => ?_) fun a s hu =>
      ih a s hI hIJ hK (hc.2 a s) s (hI.after r s hr hu)
    split at hact
    · obtain rfl := Option.some.inj hact
      exact ihb type hJ.toLasting (fun _ h => h) hL (hc.1 type) _ (hJ.onNesting s _ (hJ.after r s (hIJ r hr) hu))
    · cases hact

/-- what a message may be made of, if the messages in it are safe -/
theorem safe_nestable {I : Reader → Prop} (hI : Lasting I) {messageAt : Place → Reading (Option Message)}
    (hm : Safe I (messageAt .nested)) (k : FieldKind) (hk : k.nestable = true) : Safe I (fieldWith messageAt k) := by
  refine (safe_leaves hI).field hm k (fun h => ?_) fun m h => ?_
  · rcases h with rfl | rfl <;> cases hk
  · subst h
    exact safe_into hI (of_decide_eq_true hk)

/-- the message of a code that the factory knows, if the messages in it are safe -/
theorem safe_body {codes : CodeFactory} (h : codes.Rootless) {J : Reader → Prop} (hJ : Deep J)
    {messageAt : Place → Reading (Option Message)} (hm : Safe J (messageAt .nested)) {type : Int16}
    {body : Reading Message} (hb : codeBodies codes messageAt type = some body) : Safe J body := by
  obtain ⟨c, hc, rfl⟩ := Option.map_eq_some_iff.1 hb
  have hfield := safe_nestable hJ.toLasting hm
  exact safe_run hJ hfield hJ.toLasting (fun _ h => h) hfield (h type c hc)

/-- **Messages are safe to follow** as deep as the bytes that are left can hold them. -/
theorem safe_coded {codes : CodeFactory} (h : codes.Rootless) (n : Nat) :
    Safe (Short n) (followWith (codeBodies codes) n .nested) := by
  induction n with
  | zero => exact fun r hr => absurd hr.remaining_lt (Nat.not_lt_zero _)
  | succ n ih =>
    intro r hr
    refine Fine.nested hr.limit_le fun type body hb s hu hrem => ?_
    -- the header takes two bytes, so fewer than `n` are left for the messages inside
    exact safe_body h (Short.deep n) ih hb _ ⟨(hr.after hu).limit_le, by have := hr.remaining_lt; change s.remaining < n; omega⟩

/-- sessions as they can be opened: the limit lies within the data -/
def Bounded (r : Reader) : Prop :=
  r.frame.limit ≤ r.frame.extent

theorem deep_bounded : Deep Bounded where
  limit_le _ h := h
  after r s h hu := by rw [Bounded, hu.limit, hu.extent]; exact h
  onNesting _ _ h := h

/-- such sessions on the outermost level -/
structure Outermost (r : Reader) : Prop where
  bounded : Bounded r
  depth : r.depth = 0

theorem lasting_outermost : Lasting Outermost where
  limit_le _ h := h.bounded
  after r s h hu := ⟨deep_bounded.after r s h.bounded hu, hu.depth.trans h.depth⟩

theorem safe_messageCoded {codes : CodeFactory} (h : codes.Rootless) : Safe Bounded (messageCoded codes .nested) :=
  fun r hr => safe_coded h r.nestingBound r ⟨hr, Nat.lt_succ_self _⟩

theorem safe_rootCoded {codes : CodeFactory} (h : codes.Rootless) : Safe Outermost (messageCoded codes .root) := by
  intro r hr
  refine Fine.root hr.bounded hr.depth fun type body hb s hu hrem => ?_
  exact safe_body h (Short.deep r.remaining) (safe_coded h _) hb s ⟨deep_bounded.after r s hr.bounded hu, by omega⟩

/-- what can be asked of a session, for messages that are given by codes -/
theorem safe_askable {codes : CodeFactory} (h : codes.Rootless) (k : FieldKind) (hk : k.askable = true) :
    Safe Outermost (fieldWith (messageCoded codes) k) := by
  refine (safe_leaves lasting_outermost).field (fun r hr => safe_messageCoded h r hr.bounded) k
    (fun _ => safe_rootCoded h) fun m hm => ?_
  subst hm
  exact safe_into lasting_outermost (of_decide_eq_true hk)

/-- **Every code that a session can have is safe** on the outermost level. -/
theorem safe_runCoded {codes : CodeFactory} (h : codes.Rootless) {c : ReadCode α} (hc : c.Askable) :
    Safe Outermost (runCoded codes c) :=
  safe_run deep_bounded (safe_nestable deep_bounded.toLasting (safe_messageCoded h)) lasting_outermost
    (fun _ h => h.bounded) (safe_askable h) hc

theorem told_unharmed {codes : CodeFactory} (h : codes.Rootless) {c : ReadCode α} (hc : c.Askable) {r : Reader}
    (hr : Outermost r) : ∃ x s, told (runCoded codes c r) = some (x, s) ∧ Unharmed r s := by
  have key := safe_runCoded h hc r hr
  generalize runCoded codes c r = y at key
  cases key with
  | @ok a s hu _ => exact ⟨.ok a, s, rfl, hu⟩
  | @refused e s hu => exact ⟨.error e, s, rfl, hu⟩

/-! ## Blueprints -/

/-- a session as one can be opened: its limit lies within the data, and its messages have no roots in them -/
structure Sane (r : Reader) : Prop where
  limit_le : r.frame.limit ≤ r.frame.extent
  rootless : r.factory.Rootless

/-- a nested message of a blueprint -/
theorem fine_readMessage {r : Reader} (hr : Sane r) : Fine r (fun _ _ => True) (readMessage r) := by
  have heq := (readAt_codes r.factory .nested r ⟨hr.limit_le, rfl⟩).1
  rw [readMessage, ← heq]
  exact safe_messageCoded hr.rootless.codes r hr.limit_le

/-- **Every read that can be asked for is safe** on the outermost level. -/
theorem run_unharmed {r : Reader} (hr : Outermost r) (hfactory : r.factory.Rootless) {k : FieldKind}
    (hk : k.askable = true) : ∃ reply s, r.run k = (some reply, s) ∧ Unharmed r s := by
  have h := safe_askable hfactory.codes k hk r hr
  rw [(readField_codes r.factory k r ⟨hr.bounded, rfl⟩).1] at h
  unfold run
  generalize readField k r = x at h
  cases h with
  | @ok a s h _ => exact ⟨.ok a, s, rfl, h⟩
  | @refused e s h => exact ⟨.error e, s, rfl, h⟩

end Reader

theorem Desk.readKinds_unharmed {ks : List FieldKind} (hks : ∀ k ∈ ks, k.askable = true) {r : Reader}
    (hr : Reader.Outermost r) (hfactory : r.factory.Rootless) :
    ∃ rs s, readKinds r ks = some (rs, s) ∧ Reader.Unharmed r s := by
  induction ks generalizing r with
  | nil => exact ⟨[], r, rfl, .refl r⟩
  | cons k ks ih =>
    obtain ⟨reply, s, hrun, hu⟩ := Reader.run_unharmed hr hfactory (hks k List.mem_cons_self)
    obtain ⟨rs, t, hrest, ht⟩ := ih (fun k hk => hks k (List.mem_cons_of_mem _ hk))
      (Reader.lasting_outermost.after r s hr hu) (hu.factory ▸ hfactory)
    refine ⟨Received.of reply s :: rs, t, ?_, hu.trans ht⟩
    simp only [readKinds, hrun, hrest, Option.map_some]

namespace Bench

/-- **Reading hostile bytes never stops the program and never damages the frame.** The data are any bytes, the position
is any at all, and the limit lies within the data. After any reads, each of them answered or refused, any other read is
answered or refused too; each leaves the bytes, the size and the limit alone, moves the position on or not at all, and
not past the limit unless it was past it from the start, and ends at the depth it began at. That is so of the reads of
the handler, and of any code a session can have, where messages are given by any codes without roots, opaque objects
taken up by any decoders, and refusals met in any way. -/
theorem read_hostile {b : Bench} {r : Reader} (ho : b.openRead = .ok r) (hlimit : b.frame.limit ≤ b.frame.extent) :
    r.frame = b.frame ∧ r.depth = 0 ∧
    (∀ codes : CodeFactory, codes.Rootless → ∀ {α β : Type} {c : ReadCode α} {c' : ReadCode β}, c.Askable → c'.Askable →
      ∃ x s, Reader.told (Reader.runCoded codes c r) = some (x, s) ∧ Reader.Unharmed r s ∧
        ∃ y t, Reader.told (Reader.runCoded codes c' s) = some (y, t) ∧ Reader.Unharmed s t) ∧
    (b.handler.factory.Rootless → ∀ ks : List FieldKind, (∀ k ∈ ks, k.askable = true) →
      ∃ rs s, Desk.readKinds r ks = some (rs, s) ∧ Reader.Unharmed r s ∧
        ∀ k : FieldKind, k.askable = true → ∃ reply t, s.run k = (some reply, t) ∧ Reader.Unharmed s t) := by
  obtain ⟨hf, hfac, hd⟩ : r.frame = b.frame ∧ r.factory = b.handler.factory ∧ r.depth = 0 := by
    obtain ⟨rfl, hfresh⟩ := openRead_terms ho
    exact ⟨rfl, rfl, congrArg Levels.depth hfresh⟩
  have hr : Reader.Outermost r := ⟨by rwa [Reader.Bounded, hf], hd⟩
  refine ⟨hf, hd, fun codes hcodes {α β c c'} hc hc' => ?_, fun hfactory ks hks => ?_⟩
  · obtain ⟨x, s, hx, hu⟩ := Reader.told_unharmed hcodes hc hr
    exact ⟨x, s, hx, hu, Reader.told_unharmed hcodes hc' (Reader.lasting_outermost.after r s hr hu)⟩
  · rw [← hfac] at hfactory
    obtain ⟨rs, s, hrun, hu⟩ := Desk.readKinds_unharmed hks hr hfactory
    have hs := Reader.lasting_outermost.after r s hr hu
    exact ⟨rs, s, hrun, hu, fun k hk => Reader.run_unharmed hs (hu.factory ▸ hfactory) hk⟩

/-- a node in which another one ends early, and a handler that knows nodes -/
def hostileBench : Bench where
  handler := ⟨fun type => if type = 2 then some .node else none, .standard, .ofCapacity 1, .ofMax 0⟩
  shared := .ofMax 0
  frame := .ofBytes [2, 0, 8, 2, 0, 255, 255, 255, 127, 2]

/-- reads that take those bytes for messages, for texts and for maps -/
def hostileKinds : List FieldKind :=
  [.message, .data .string, .root, .map .string .message true, .raw 3]

/-- as many numbers as a field says -/
def numbersBehind : Field → ReadCode Message
  | .data (.int n) => .ofKinds (.record 2) (List.replicate n.toInt.toNat (.data .long)) []
  | _ => .finish (.error .packDecode)

/-- a message with as many numbers in it as its first one says -/
def numbersCode : ReadCode Message :=
  .field (.data .int) fun
    | .ok f, _ => numbersBehind f
    | .error e, _ => .finish (.error e)

/-- a root, an object and a text, gone on from whatever they come to -/
def heedlessCode : ReadCode Unit :=
  .field .root fun _ _ => .object (Decoder.exactly 2) fun _ _ => .field (.data .string) fun _ _ => .finish (.ok ())

theorem nestable_numbersCode : numbersCode.Nestable := by
  refine ⟨rfl, fun a s => ?_⟩
  rcases a with e | f
  · trivial
  · change (numbersBehind f).Nestable
    unfold numbersBehind
    split
    · exact ReadCode.asks_ofKinds (fun k hk => by rw [List.eq_of_mem_replicate hk]; rfl) _ _
    · trivial

theorem broken_node_read_unharmed :
    ∃ r, hostileBench.openRead = .ok r ∧
      (∃ rs s, Desk.readKinds r hostileKinds = some (rs, s) ∧
        s.frame.data = [2, 0, 8, 2, 0, 255, 255, 255, 127, 2] ∧ s.frame.limit = 10 ∧ s.position ≤ 10 ∧ s.depth = 0) ∧
      ∃ x s, Reader.told (Reader.runCoded (fun type => if type = 2 then some numbersCode else none) heedlessCode r) =
          some (x, s) ∧
        s.frame.data = [2, 0, 8, 2, 0, 255, 255, 255, 127, 2] ∧ s.frame.limit = 10 ∧ s.position ≤ 10 ∧ s.depth = 0 := by
  have ho : hostileBench.openRead = .ok ⟨hostileBench.frame, hostileBench.handler.nesting, hostileBench.handler.factory,
      .little, Config.defaultMaxLength⟩ := rfl
  have hfactory : hostileBench.handler.factory.Rootless := by
    intro type b hb k hk
    dsimp only [hostileBench] at hb
    split at hb
    · obtain rfl := Option.some.inj hb
      revert k
      decide
    · cases hb
  have hcodes : CodeFactory.Rootless fun type => if type = 2 then some numbersCode else none := by
    intro type c hc
    dsimp only at hc
    split at hc
    · obtain rfl := Option.some.inj hc
      exact nestable_numbersCode
    · cases hc
  have hcode : heedlessCode.Askable :=
    ⟨rfl, fun _ _ _ _ => ⟨rfl, fun _ _ => trivial⟩⟩
  obtain ⟨-, -, hcoded, hkinds⟩ := read_hostile ho (Nat.le_refl 10)
  obtain ⟨rs, s, hrun, hu, -⟩ := hkinds hfactory hostileKinds (by decide)
  obtain ⟨x, t, hx, ht, -⟩ := hcoded _ hcodes hcode hcode
  exact ⟨_, ho, ⟨rs, s, hrun, by rw [hu.frame]; rfl, hu.limit, hu.position_le_max, hu.depth⟩,
    x, t, hx, by rw [ht.frame]; rfl, ht.limit, ht.position_le_max, ht.depth⟩

end Bench

end Courier
