import Courier.Proofs.Codes
import Courier.Proofs.Levels
import Courier.Proofs.Opaque

/-!
Reads that do not look at the levels, and what that means for reads that do.

An act is `Blind` if on other levels it does the same, and leaves those levels alone: all leaves are but the probes.
Reads of messages do look at the levels, but only at their view. `Alike` sessions differ in how many levels they have
allocated, and `Level` acts come to the same on them; `level_field` says so of every read, and `level_runCoded` of codes
that do not tell such sessions apart.
-/

namespace Courier

namespace Reader

variable {α β : Type}

/-- the same session on other levels -/
def withNesting (r : Reader) (n : Nesting) : Reader :=
  { r with nesting := n }

/-- what an act came to, on other levels -/
def onLevels (n : Nesting) : EStateM.Result Fault Reader α → EStateM.Result Fault Reader α
  | .ok a r => .ok a (r.withNesting n)
  | .error f r => .error f (r.withNesting n)

/-- an act that neither looks at the levels nor changes them -/
def Blind (act : Reading α) : Prop :=
  ∀ r n, act (r.withNesting n) = onLevels n (act r)

namespace Blind

theorem pure (a : α) : Blind (Pure.pure a : Reading α) :=
  fun _ _ => rfl

theorem refuse (e : WireError) : Blind (Reader.refuse e : Reading α) :=
  fun _ _ => rfl

theorem panic : Blind (throw .panic : Reading α) :=
  fun _ _ => rfl

theorem bind {act : Reading α} {next : α → Reading β} (h : Blind act) (hn : ∀ a, Blind (next a)) :
    Blind (act >>= next) := by
  intro r n
  rw [bind_eq, bind_eq, h r n]
  cases act r with
  | ok a s => exact hn a s n
  | error f s => rfl

/-- an act that asks for anything but the levels -/
theorem ask {next : Reader → Reading β} (hs : ∀ r n, next (r.withNesting n) = next r) (hn : ∀ r, Blind (next r)) :
    Blind (do next (← get)) := by
  intro r n
  rw [bind_eq, bind_eq]
  exact (congrFun (hs r n) _).trans (hn r r n)

theorem take (m : Nat) : Blind (take m) := by
  intro r n
  have hframe : (r.withNesting n).frame = r.frame := rfl
  unfold Reader.take
  rw [hframe]
  split
  · rfl
  · cases r.frame.slice? m <;> rfl

theorem onFrame (read : Frame → Except WireError (α × Frame)) : Blind (onFrame read) := by
  intro r n
  cases h : read r.frame <;> simp only [Reader.onFrame, withNesting, h] <;> rfl

theorem readUpTo (m : Nat) : Blind (readUpTo m) :=
  fun _ _ => rfl

theorem cuts : Cuts Blind where
  pure := pure
  bind := bind
  refuse := refuse
  panic := panic
  take := take
  order hs hn := ask (fun _ _ => hs _ _ rfl) hn

theorem fixed (α : Type) [Fixed α] : Blind (takeFixed α) :=
  cuts.fixed α

theorem length (kind : String) (size : Nat) : Blind (readLength kind size) := by
  apply (fixed Int32).bind
  intro raw
  apply (cuts.ofExcept _).bind
  intro o
  cases o with
  | none => exact .pure none
  | some len =>
    apply ask (fun _ _ => rfl)
    intro r
    split
    · exact .refuse _
    · split
      · exact .refuse _
      · exact .pure _

theorem array (α : Type) [Fixed α] : Blind (takeArray α) :=
  cuts.array length α

theorem byteArray : Blind readByteArray :=
  cuts.byteArray length

theorem booleanArray : Blind readBooleanArray :=
  cuts.booleanArray length

theorem string : Blind readString :=
  cuts.string length

theorem objectWith (d : Decoder α) : Blind (readObjectWith d) := by
  rw [readObjectWith_eq]
  apply (length _ _).bind
  intro o
  cases o with
  | none => exact .refuse _
  | some size =>
    intro r n
    have hframe : (r.withNesting n).frame = r.frame := rfl
    simp only [objectOf, hframe]
    cases (d.run (r.frame.readable.take size)).1 <;> rfl

theorem blueprint : Blind readBlueprint := by
  apply (fixed Int16).bind
  intro type
  split
  · exact .pure none
  · apply ask (fun _ _ => rfl)
    intro r
    cases r.factory type with
    | none => exact .refuse _
    | some b => exact .pure _

theorem into (n : Nat) : Blind (readInto n) := by
  unfold readInto
  split
  · exact readUpTo n
  · exact .panic

/-- a blind act leaves the levels alone -/
theorem nesting_ok {act : Reading α} (h : Blind act) {r s : Reader} {a : α} (hr : act r = .ok a s) :
    s.nesting = r.nesting := by
  have hs := h r r.nesting
  rw [show r.withNesting r.nesting = r from rfl, hr] at hs
  injection hs with _ hs
  rw [hs]
  rfl

theorem nesting_error {act : Reading α} (h : Blind act) {r s : Reader} {f : Fault} (hr : act r = .error f s) :
    s.nesting = r.nesting := by
  have hs := h r r.nesting
  rw [show r.withNesting r.nesting = r from rfl, hr] at hs
  injection hs with _ hs
  rw [hs]
  rfl

end Blind

/-! ## Sessions that differ in how many levels they have allocated -/

structure Alike (r s : Reader) : Prop where
  frame : r.frame = s.frame
  factory : r.factory = s.factory
  order : r.order = s.order
  maxLength : r.maxLength = s.maxLength
  levels : r.nesting.view = s.nesting.view

/-- acts that come to the same -/
inductive Same : EStateM.Result Fault Reader α → EStateM.Result Fault Reader α → Prop
  | ok (a : α) {r s : Reader} (h : Alike r s) : Same (.ok a r) (.ok a s)
  | error (f : Fault) {r s : Reader} (h : Alike r s) : Same (.error f r) (.error f s)

/-- an act that comes to the same on sessions that are alike -/
def Level (act : Reading α) : Prop :=
  ∀ r s, Alike r s → Same (act r) (act s)

namespace Alike

variable {r s : Reader}

theorem eq_withNesting (h : Alike r s) : s = r.withNesting s.nesting := by
  obtain ⟨hf, hfac, ho, hm, -⟩ := h
  cases r
  cases s
  subst hf hfac ho hm
  rfl

theorem depth (h : Alike r s) : r.depth = s.depth :=
  congrArg Levels.depth h.levels

theorem debugText (h : Alike r s) : r.debugText = s.debugText := by
  have hp : r.position = s.position := congrArg Frame.position h.frame
  unfold Reader.debugText
  simp only [hp, h.frame, h.depth, h.order]

/-- an act on the levels that is one on their view -/
theorem onNesting (h : Alike r s) {f : Nesting → Nesting} {g : Levels → Levels} (hf : ∀ n, (f n).view = g n.view) :
    Alike (r.onNesting f) (s.onNesting f) :=
  ⟨h.frame, h.factory, h.order, h.maxLength, by change (f _).view = (f _).view; rw [hf, hf, h.levels]⟩

end Alike

theorem Blind.level {act : Reading α} (h : Blind act) : Level act := by
  intro r s hrs
  have hs := h r s.nesting
  rw [← hrs.eq_withNesting] at hs
  rw [hs]
  cases hr : act r with
  | ok a t => exact .ok a ⟨rfl, rfl, rfl, rfl, (congrArg Nesting.view (h.nesting_ok hr)).trans hrs.levels⟩
  | error f t => exact .error f ⟨rfl, rfl, rfl, rfl, (congrArg Nesting.view (h.nesting_error hr)).trans hrs.levels⟩

theorem Level.bind {act : Reading α} {next : α → Reading β} (h : Level act) (hn : ∀ a, Level (next a)) :
    Level (act >>= next) := by
  intro r s hrs
  rw [bind_eq, bind_eq]
  have key := h r s hrs
  generalize act r = x at key
  generalize act s = y at key
  cases key with
  | ok a h => exact hn a _ _ h
  | error f h => exact .error f h

theorem level_probe (p : Probe) : Level (probe p) := by
  intro r s h
  have hp : r.position = s.position := congrArg Frame.position h.frame
  have hrem : r.remaining = s.remaining := congrArg Frame.remaining h.frame
  have key : ∀ {n m : Note}, n = m → Same (.ok n r) (.ok m s) := by
    rintro n _ rfl
    exact .ok n h
  cases p with
  | position => exact key (congrArg Note.number hp)
  | remaining => exact key (congrArg Note.number hrem)
  | depth => exact key (congrArg Note.number h.depth)
  | debug => exact key (congrArg Note.text h.debugText)

theorem level_leaves : Leaves Level where
  pure a := (Blind.pure a).level
  bind := Level.bind
  refuse e := (Blind.refuse e).level
  byte := (Blind.onFrame _).level
  int := (Blind.onFrame _).level
  long := (Blind.onFrame _).level
  fixed α _ _ := (Blind.fixed α).level
  length kind size := (Blind.length kind size).level
  array α := (Blind.array α).level
  byteArray := Blind.byteArray.level
  booleanArray := Blind.booleanArray.level
  string := Blind.string.level
  object _ := (Blind.objectWith _).level
  probe := level_probe

/-! ## Messages -/

theorem Level.below {act : Reading α} (h : Level act) : Level (below act) := by
  intro r s hrs
  have key := h _ _ (hrs.onNesting Nesting.view_forward)
  have hup : ∀ b {r s : Reader}, Alike r s → Alike (r.onNesting (·.retreat b)) (s.onNesting (·.retreat b)) :=
    fun b _ _ h => h.onNesting (g := (·.retreat b)) fun n => n.view_retreat b
  unfold Reader.below
  generalize act (r.onNesting .forward) = x at key
  generalize act (s.onNesting .forward) = y at key
  cases key with
  | ok a h =>
    simp only [h.depth]
    split
    · exact .error _ h
    · exact .ok a (hup true h)
  | error f h =>
    cases f with
    | panic => exact .error _ h
    | error e =>
      simp only [h.depth]
      split
      · exact .error _ h
      · exact .error _ (hup false h)

theorem Level.onLevel {act : Reading α} (h : Level act) : Level (onLevel act) := by
  intro r s hrs
  have key := h r s hrs
  unfold Reader.onLevel
  generalize act r = x at key
  generalize act s = y at key
  cases key with
  | ok a h =>
    simp only [h.depth]
    split
    · exact .ok a (h.onNesting Nesting.view_wipe)
    · exact .error _ h
  | error f h => exact .error f h

/-- an act that goes on in the same way in sessions that are alike -/
theorem Level.onto {act : Reading α} {next : Except WireError α → Reader → Reading β} (h : Level act)
    (hsame : ∀ a r s, Alike r s → next a s = next a r) (hn : ∀ a s, Level (next a s)) : Level (onto act next) := by
  intro r s hrs
  have key := h r s hrs
  unfold Reader.onto
  generalize act r = x at key
  generalize act s = y at key
  cases key with
  | @ok a t u h =>
    dsimp only
    rw [hsame (.ok a) t u h]
    exact hn _ t t u h
  | @error f t u h =>
    cases f with
    | panic => exact .error _ h
    | error e =>
      dsimp only
      rw [hsame (.error e) t u h]
      exact hn _ t t u h

theorem level_descends : Descends Level where
  toLeaves := level_leaves
  panic := Blind.panic.level
  blueprint := Blind.blueprint.level
  into m := (Blind.into m).level
  below := Level.below
  onLevel := Level.onLevel

theorem level_readAt (place : Place) : Level (readAt place) := by
  intro r s h
  have hb : r.nestingBound = s.nestingBound := by rw [nestingBound, nestingBound, remaining, remaining, h.frame]
  rw [readAt, readAt, hb]
  exact level_descends.follow _ place r s h

/-- **Every read comes to the same** on sessions that differ in their allocated levels only. -/
theorem level_field (k : FieldKind) : Level (readField k) :=
  level_descends.field level_readAt k

end Reader

/-- a code that does not tell sessions apart which are alike -/
def ReadCode.Discreet {α : Type} (c : ReadCode α) : Prop :=
  c.Akin (fun _ => Eq) Reader.Alike (fun _ => True) c

/-- a factory of such codes -/
def CodeFactory.Discreet (codes : CodeFactory) : Prop :=
  ∀ type c, codes type = some c → c.Discreet

namespace Reader

variable {α : Type}

theorem level_codes :
    Codes (fun act act' => act' = act ∧ Level act) (fun _ => Eq) Alike fun _ => True :=
  level_descends.codes (fun _ => ⟨rfl, rfl, rfl, rfl, rfl⟩) Level.onto

theorem level_messageCoded {codes : CodeFactory} (h : codes.Discreet) (place : Place) :
    Level (messageCoded codes place) := by
  intro r s hrs
  have hb : r.nestingBound = s.nestingBound := by rw [nestingBound, nestingBound, remaining, remaining, hrs.frame]
  have hself : ∀ type, Option.Rel (ReadCode.Akin (fun _ => Eq) Alike fun _ => True) (codes type) (codes type) := by
    intro type
    cases hc : codes type with
    | none => exact .none
    | some c => exact .some (h type c hc)
  rw [messageCoded, messageCoded, hb]
  exact (level_codes.follow hself _ place).2 r s hrs

/-- **Discreet codes come to the same** on such sessions. -/
theorem level_runCoded {codes : CodeFactory} (h : codes.Discreet) {c : ReadCode α} (hc : c.Discreet) :
    Level (runCoded codes c) :=
  (level_codes.run (fun place => ⟨rfl, level_messageCoded h place⟩) hc).2

end Reader

end Courier
