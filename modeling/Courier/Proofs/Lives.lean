import Courier.Proofs.Codes
import Courier.Proofs.Groups
import Courier.Proofs.Opaque
import Courier.Proofs.Refusals

/-!
The lives of a frame.

A frame is made empty or over bytes; it is worked on by itself, or it is lent to a session. `Frame.Lives` are all these
lives, up to some moment: the frame is `free`, or a write session or a read session holds it. A write session may do
whatever it offers, and go on after a stop too; it is closed or dropped. A handler, a cache and a factory may be any, and
others each time. `Frame.Past` keeps of a life what counts for whether the frame is finalized: whether it was made over
bytes, how its write sessions have ended, and whether one is open.

Writing moves the position of the frame and nothing else of it, which `Keeps.frame` says; so does reading, whatever it
comes to, and that is `Still`: the limit that an object narrows for its decoder is put back behind it.

`Frame.Upright` is what a frame keeps to that has a given past, with one lemma for each thing that can be done to it;
`Frame.Lives.upright` puts them together, by induction on a life.
`Frame.lives_upright`: the main result.
-/

namespace Courier

open Writer

/-! ## Reading moves the position -/

namespace Frame

variable {f g : Frame}

theorem moved_readByte {v : UInt8} (h : f.readByte = .ok (v, g)) : g = f.setPosition g.position := by
  unfold readByte at h
  split at h
  · cases h
    rfl
  · cases h

theorem moved_readForm {α : Type} {form : Varint.Form α} {v : α} (h : f.readForm form = .ok (v, g)) :
    g = f.setPosition g.position := by
  obtain ⟨n, -, rfl⟩ := readForm_ok h
  rfl

end Frame

namespace Reader

variable {α β : Type}

/-- the session that an act leaves, be it done, refused or stopped -/
def after : EStateM.Result Fault Reader α → Reader
  | .ok _ r => r
  | .error _ r => r

/-- an act that moves the position of the frame, and nothing else of it -/
def Still (act : Reading α) : Prop :=
  ∀ r, (after (act r)).frame = r.frame.setPosition (after (act r)).position

namespace Still

theorem pure (a : α) : Still (Pure.pure a : Reading α) :=
  fun _ => rfl

theorem refuse (e : WireError) : Still (Reader.refuse e : Reading α) :=
  fun _ => rfl

theorem panic : Still (throw .panic : Reading α) :=
  fun _ => rfl

/-- an act that goes on with another one from where the first has come -/
theorem next {act : Reading α} (h : Still act) {r : Reader} {x : EStateM.Result Fault Reader β}
    (hx : (after x).frame = (after (act r)).frame.setPosition (after x).position) :
    (after x).frame = r.frame.setPosition (after x).position := by
  rw [hx, h r]
  rfl

theorem bind {act : Reading α} {next : α → Reading β} (h : Still act) (hn : ∀ a, Still (next a)) :
    Still (act >>= next) := by
  intro r
  have ha := h r
  rw [bind_eq]
  rcases hr : act r with ⟨a, s⟩ | ⟨f, s⟩ <;> rw [hr] at ha
  · refine h.next (r := r) ?_
    rw [hr]
    exact hn a s
  · exact ha

theorem onto {act : Reading α} {next : Except WireError α → Reader → Reading β} (h : Still act)
    (hn : ∀ a s, Still (next a s)) : Still (onto act next) := by
  intro r
  have ha := h r
  unfold Reader.onto
  rcases hr : act r with ⟨a, s⟩ | ⟨e | _, s⟩ <;> rw [hr] at ha
  · refine h.next (r := r) ?_
    rw [hr]
    exact hn _ s s
  · refine h.next (r := r) ?_
    rw [hr]
    exact hn _ s s
  · exact ha

/-- an act that asks for the session -/
theorem ask {next : Reader → Reading β} (hn : ∀ r, Still (next r)) : Still (do next (← get)) :=
  fun r => hn r r

theorem take (n : Nat) : Still (take n) := by
  intro r
  unfold Reader.take
  split
  · rfl
  · cases r.frame.slice? n <;> rfl

theorem cuts : Cuts Still where
  pure := pure
  bind := bind
  refuse := refuse
  panic := panic
  take := take
  order _ hn := ask hn

theorem length (kind : String) (size : Nat) : Still (readLength kind size) := by
  apply (cuts.fixed Int32).bind
  intro raw
  apply (cuts.ofExcept _).bind
  intro o
  cases o with
  | none => exact .pure none
  | some len =>
    apply ask
    intro r
    split
    · exact .refuse _
    · split
      · exact .refuse _
      · exact .pure _

theorem onFrame {read : Frame → Except WireError (α × Frame)}
    (h : ∀ f a g, read f = .ok (a, g) → g = f.setPosition g.position) : Still (onFrame read) := by
  intro r
  unfold Reader.onFrame
  cases hr : read r.frame with
  | error e => rfl
  | ok x => exact h r.frame x.1 x.2 hr

theorem byte : Still readByte :=
  onFrame fun _ _ _ h => Frame.moved_readByte h

theorem int : Still readInt := by
  rw [readInt, Frame.readInt_eq]
  exact onFrame fun _ _ _ h => Frame.moved_readForm h

theorem long : Still readLong := by
  rw [readLong, Frame.readLong_eq]
  exact onFrame fun _ _ _ h => Frame.moved_readForm h

/-- the limit is narrowed for the decoder of an object, and put back behind it -/
theorem objectWith (d : Decoder α) : Still (readObjectWith d) := by
  rw [readObjectWith_eq]
  apply (length _ _).bind
  intro o
  cases o with
  | none => exact .refuse _
  | some size =>
    intro r
    simp only [objectOf]
    cases (d.run (r.frame.readable.take size)).1 <;> rfl

theorem leaves : Leaves Still where
  pure := pure
  bind := bind
  refuse := refuse
  byte := byte
  int := int
  long := long
  fixed α _ _ := cuts.fixed α
  length := length
  array α _ := cuts.array length α
  byteArray := cuts.byteArray length
  booleanArray := cuts.booleanArray length
  string := cuts.string length
  object _ := objectWith _
  probe p := by
    cases p <;> exact fun _ => rfl

theorem into (n : Nat) : Still (readInto n) := by
  unfold readInto
  split
  · exact fun _ => rfl
  · exact .panic

theorem below {act : Reading α} (h : Still act) : Still (below act) := by
  intro r
  have ha := h (r.onNesting .forward)
  unfold Reader.below
  rcases hr : act (r.onNesting .forward) with ⟨a, s⟩ | ⟨e | _, s⟩ <;> rw [hr] at ha <;> dsimp only
  · split <;> exact ha
  · split <;> exact ha
  · exact ha

theorem onLevel {act : Reading α} (h : Still act) : Still (onLevel act) := by
  intro r
  have ha := h r
  unfold Reader.onLevel
  rcases hr : act r with ⟨a, s⟩ | ⟨f, s⟩ <;> rw [hr] at ha <;> dsimp only
  · split <;> exact ha
  · exact ha

theorem blueprint : Still readBlueprint := by
  apply (cuts.fixed Int16).bind
  intro type
  split
  · exact .pure none
  · apply ask
    intro r
    cases r.factory type with
    | none => exact .refuse _
    | some b => exact .pure _

theorem descends : Descends Still where
  toLeaves := leaves
  panic := panic
  blueprint := blueprint
  into := into
  below := below
  onLevel := onLevel

theorem readAt (place : Place) : Still (readAt place) :=
  fun r => descends.follow r.nestingBound place r

theorem messageCoded (codes : CodeFactory) (place : Place) : Still (messageCoded codes place) :=
  fun r => descends.followCodes onto codes r.nestingBound place r

/-- **Whatever is read, and whatever that comes to, the frame is moved at most.** -/
theorem field (k : FieldKind) : Still (readField k) :=
  descends.field readAt k

/-- so it is by a code, whatever it makes of refusals and however the messages in it are read -/
theorem code {messageAt : Place → Reading (Option Message)} (hat : ∀ place, Still (messageAt place)) (c : ReadCode α) :
    Still (c.run messageAt) :=
  descends.run onto hat c

end Still

end Reader

/-! ## Lives -/

namespace Frame

/-- how a write session has ended -/
inductive Fate where
  | closed
  | failed
  | dropped
  deriving DecidableEq

/-- what has become of a frame -/
structure Past where
  /-- whether it was made over bytes -/
  received : Bool
  /-- how its write sessions have ended, the last one first -/
  ended : List Fate
  /-- whether a write session is open -/
  isOpen : Bool
  deriving DecidableEq

namespace Past

def blank : Past :=
  ⟨false, [], false⟩

/-- a frame made over bytes -/
def ofBytes : Past :=
  ⟨true, [], false⟩

/-- the past behind an act on the frame by itself; some of these acts make a new frame -/
def act (p : Past) : FrameAct → Past
  | .new => blank
  | .load _ | .truncate _ | .patch .. => ofBytes
  | _ => p

def opened (p : Past) : Past :=
  { p with isOpen := true }

def closedWith (p : Past) (fate : Fate) : Past :=
  ⟨p.received, fate :: p.ended, false⟩

/-- whether the frame has never been finalized: neither made over bytes nor closed -/
def NeverFinalized (p : Past) : Prop :=
  p.received = false ∧ .closed ∉ p.ended

/-- whether the last write session was failed, dropped or is still open -/
def LastUnfinished (p : Past) : Prop :=
  p.isOpen = true ∨ ∃ fate, p.ended.head? = some fate ∧ fate ≠ .closed

end Past

/-- who holds a frame -/
inductive Stage where
  | free (f : Frame)
  | writing (b : Bench) (w : Writer)
  | reading (b : Bench) (r : Reader)

/-- the frame, whoever holds it -/
def Stage.frame : Stage → Frame
  | free f => f
  | writing _ w => w.frame
  | reading _ r => r.frame

/-- the lives of a frame, up to some moment -/
inductive Lives : Past → Stage → Prop
  | new : Lives .blank (.free .empty)
  | received (data : Bytes) : Lives .ofBytes (.free (.ofBytes data))
  | act {p : Past} {f g : Frame} {reply : FrameReply} (h : Lives p (.free f)) (a : FrameAct)
      (ha : a.run f = some (reply, g)) : Lives (p.act a) (.free g)
  | openWrite {p : Past} {b : Bench} (h : Lives p (.free b.frame)) :
      Lives p.opened (.writing b.openWrite.2 b.openWrite.1)
  | write {p : Past} {b : Bench} {w : Writer} (h : Lives p (.writing b w)) (op : WriteOp) :
      Lives p (.writing b (op.run w).2)
  | writeCode {p : Past} {b : Bench} {w : Writer} (h : Lives p (.writing b w)) (c : WriteCode) :
      Lives p (.writing b (c.run w).writer)
  | closeWrite {p : Past} {b c : Bench} {w : Writer} {n : Nat} (h : Lives p (.writing b w))
      (hc : b.closeWrite w = some (n, c)) :
      Lives (p.closedWith (if w.failed then .failed else .closed)) (.free c.frame)
  | dropWrite {p : Past} {b : Bench} {w : Writer} (h : Lives p (.writing b w)) :
      Lives (p.closedWith .dropped) (.free (b.dropWrite w).frame)
  | openRead {p : Past} {b : Bench} {r : Reader} (h : Lives p (.free b.frame)) (ho : b.openRead = .ok r) :
      Lives p (.reading b r)
  | read {p : Past} {b : Bench} {r : Reader} (h : Lives p (.reading b r)) (k : FieldKind) :
      Lives p (.reading b (Reader.after (Reader.readField k r)))
  | readCode {p : Past} {b : Bench} {r : Reader} (h : Lives p (.reading b r)) {α : Type} (c : ReadCode α) :
      Lives p (.reading b (Reader.after (c.run Reader.readAt r)))
  | readCoded {p : Past} {b : Bench} {r : Reader} (h : Lives p (.reading b r)) {α : Type} (codes : CodeFactory)
      (c : ReadCode α) : Lives p (.reading b (Reader.after (Reader.runCoded codes c r)))
  | closeRead {p : Past} {b : Bench} {r : Reader} (h : Lives p (.reading b r)) : Lives p (.free (b.closeRead r).frame)
  | dropRead {p : Past} {b : Bench} {r : Reader} (h : Lives p (.reading b r)) : Lives p (.free (b.dropRead r).frame)

/-- what a frame keeps to that has this past -/
structure Upright (p : Past) (f : Frame) : Prop where
  limit_le : f.limit ≤ f.extent
  size : f.size = none ∨ f.size = some f.extent
  unfinalized : f.size = none ↔ p.NeverFinalized ∨ p.LastUnfinished

namespace Upright

variable {p : Past} {f g : Frame}

/-- a frame with the same bytes and the same size, whose limit lies within them -/
theorem moved (h : Upright p f) (hc : g.cells = f.cells) (hs : g.size = f.size) (hl : g.limit ≤ g.extent) :
    Upright p g := by
  have he : g.extent = f.extent := congrArg Array.size hc
  exact ⟨hl, by rw [hs, he]; exact h.size, by rw [hs]; exact h.unfinalized⟩

theorem setPosition (h : Upright p f) (n : Nat) : Upright p (f.setPosition n) :=
  h.moved rfl rfl h.limit_le

theorem blank : Upright .blank .empty :=
  ⟨Nat.le_refl 0, .inl rfl, iff_of_true rfl (.inl ⟨rfl, List.not_mem_nil⟩)⟩

/-- a frame made over bytes -/
theorem ofCells (cells : Array UInt8) : Upright .ofBytes (.ofCells cells) := by
  refine ⟨Nat.le_refl _, .inr rfl, iff_of_false nofun ?_⟩
  rintro (⟨h, -⟩ | h | ⟨fate, h, -⟩) <;> cases h

/-- an act on the frame by itself -/
theorem act (h : Upright p f) {a : FrameAct} {reply : FrameReply} (ha : a.run f = some (reply, g)) :
    Upright (p.act a) g := by
  have hread : ∀ {α : Type} {told : α → FrameReply} {x : Except WireError (α × Frame)},
      (∀ v k, x = .ok (v, k) → k = f.setPosition k.position) →
      some (FrameAct.ofRead f told x) = some (reply, g) → Upright p g := by
    intro α told x hx hr
    rcases x with e | ⟨v, k⟩
    · obtain ⟨-, rfl⟩ := Prod.mk.inj (Option.some.inj hr)
      exact h
    · obtain ⟨-, rfl⟩ := Prod.mk.inj (Option.some.inj hr)
      rw [hx v k rfl]
      exact h.setPosition _
  cases a with
  | new =>
    obtain ⟨-, rfl⟩ := Prod.mk.inj (Option.some.inj ha)
    exact blank
  | load data =>
    obtain ⟨-, rfl⟩ := Prod.mk.inj (Option.some.inj ha)
    exact ofCells _
  | truncate n =>
    obtain ⟨-, rfl⟩ := Prod.mk.inj (Option.some.inj ha)
    exact ofCells _
  | patch off bs =>
    obtain ⟨k, hk, hg⟩ := Option.map_eq_some_iff.1 ha
    obtain ⟨-, rfl⟩ := Prod.mk.inj hg
    obtain ⟨data, -, rfl⟩ := Option.map_eq_some_iff.1 hk
    exact ofCells _
  | setLimit n =>
    obtain ⟨k, hk, hg⟩ := Option.map_eq_some_iff.1 ha
    obtain ⟨-, rfl⟩ := Prod.mk.inj hg
    unfold Frame.setLimit at hk
    split at hk
    · obtain rfl := Option.some.inj hk
      exact h.moved rfl rfl ‹_›
    · cases hk
  | rewind | setPosition n =>
    obtain ⟨-, rfl⟩ := Prod.mk.inj (Option.some.inj ha)
    exact h.setPosition _
  | freeze | equals data =>
    obtain ⟨-, rfl⟩ := Prod.mk.inj (Option.some.inj ha)
    exact h
  | readInt => exact hread (fun v k hk => moved_readForm ((congrFun readInt_eq f).symm.trans hk)) ha
  | readLong => exact hread (fun v k hk => moved_readForm ((congrFun readLong_eq f).symm.trans hk)) ha
  | readByte => exact hread (fun v k hk => moved_readByte hk) ha

/-- a write session begins: no bytes can be read, and the frame is not finalized -/
theorem beginWrite (p : Past) (f : Frame) : Upright p.opened f.beginWrite :=
  ⟨Nat.zero_le _, .inl rfl, iff_of_true rfl (.inr (.inl rfl))⟩

/-- a session that wrote without a refusal is closed -/
theorem finish (p : Past) (f : Frame) (data : Bytes) : Upright (p.closedWith .closed) (f.finish data) := by
  refine ⟨Nat.le_refl _, .inr rfl, iff_of_false nofun ?_⟩
  rintro (⟨-, h⟩ | h | ⟨fate, h, hne⟩)
  · exact h List.mem_cons_self
  · cases h
  · exact hne (Option.some.inj h).symm

/-- a session that has failed, or is dropped, leaves the frame as it was -/
theorem abandon (h : Upright p f) (hs : f.size = none) {fate : Fate} (hne : fate ≠ .closed) :
    Upright (p.closedWith fate) f :=
  ⟨h.limit_le, h.size, iff_of_true hs (.inr (.inr ⟨fate, rfl, hne⟩))⟩

end Upright

/-- an open write session has its position within its buffer, and its frame is not finalized -/
def Stage.Held : Stage → Prop
  | .writing _ w => w.Inside ∧ w.frame.size = none
  | _ => True

/-- **What a frame keeps to, its whole life long.** -/
theorem Lives.upright {p : Past} {s : Stage} (h : Lives p s) : Upright p s.frame ∧ s.Held := by
  induction h with
  | new => exact ⟨.blank, trivial⟩
  | received data => exact ⟨.ofCells _, trivial⟩
  | act _ a ha ih => exact ⟨ih.1.act ha, trivial⟩
  | @openWrite p b _ ih =>
    have hf : b.openWrite.1.frame = b.frame.beginWrite := b.frame_openWrite
    refine ⟨?_, b.inside_openWrite, by rw [hf]; rfl⟩
    change Upright _ b.openWrite.1.frame
    rw [hf]
    exact .beginWrite p b.frame
  | write _ op ih =>
    obtain ⟨hu, hin, hs⟩ := ih
    have hk := op.run_keeps hin
    refine ⟨?_, hk.inside, by rw [hk.frame]; exact hs⟩
    change Upright _ (op.run _).2.frame
    rw [hk.frame]
    exact hu.setPosition _
  | writeCode _ c ih =>
    obtain ⟨hu, hin, hs⟩ := ih
    have hk := c.keeps hin
    refine ⟨?_, hk.inside, by rw [hk.frame]; exact hs⟩
    change Upright _ (c.run _).writer.frame
    rw [hk.frame]
    exact hu.setPosition _
  | @closeWrite p b c w n _ hc ih =>
    obtain ⟨hu, hin, hs⟩ := ih
    rw [Bench.closeWrite_eq b hin] at hc
    cases hf : w.failed with
    | true =>
      rw [hf] at hc
      obtain ⟨-, rfl⟩ := Prod.mk.inj (Option.some.inj hc)
      exact ⟨hu.abandon hs nofun, trivial⟩
    | false =>
      rw [hf] at hc
      obtain ⟨-, rfl⟩ := Prod.mk.inj (Option.some.inj hc)
      exact ⟨.finish p w.frame w.written, trivial⟩
  | dropWrite _ ih => exact ⟨ih.1.abandon ih.2.2 nofun, trivial⟩
  | openRead _ ho ih =>
    obtain ⟨rfl, -⟩ := Bench.openRead_terms ho
    exact ⟨ih.1, trivial⟩
  | @read p b r _ k ih =>
    refine ⟨?_, trivial⟩
    change Upright _ (Reader.after (Reader.readField k r)).frame
    rw [Reader.Still.field k r]
    exact ih.1.setPosition _
  | @readCode p b r _ α c ih =>
    refine ⟨?_, trivial⟩
    change Upright _ (Reader.after (c.run Reader.readAt r)).frame
    rw [Reader.Still.code Reader.Still.readAt c r]
    exact ih.1.setPosition _
  | @readCoded p b r _ α codes c ih =>
    refine ⟨?_, trivial⟩
    change Upright _ (Reader.after (Reader.runCoded codes c r)).frame
    rw [Reader.runCoded, Reader.Still.code (Reader.Still.messageCoded codes) c r]
    exact ih.1.setPosition _
  | closeRead _ ih => exact ⟨ih.1, trivial⟩
  | dropRead _ ih => exact ⟨ih.1, trivial⟩

/-- the window shows the bytes that remain, wherever the position stands -/
theorem remaining_eq {f : Frame} (h : f.limit ≤ f.extent) : f.remaining = f.readable.length := by
  rw [length_readable, remaining, available]
  split
  · rfl
  · omega

/-- **The invariants of a frame, its whole life long.** Whatever is done to a frame and whichever sessions it is lent to,
be they closed, failed, dropped or open still: its limit lies within its bytes, its size is none or the number of its
bytes, and what remains of it is the number of bytes that a reader sees, also where the position is past the limit or past
the bytes. It is not finalized exactly if it has never been, or if its last write session has failed, was dropped or is
open still. A write session can always be closed; after one without a refusal, position, limit, size and number of bytes
are the count that the close answers, and after one that has failed that count is zero and the frame is not finalized. -/
theorem lives_upright {p : Past} {s : Stage} (h : Lives p s) :
    s.frame.limit ≤ s.frame.extent ∧
    (s.frame.size = none ∨ s.frame.size = some s.frame.extent) ∧
    s.frame.remaining = s.frame.readable.length ∧
    (s.frame.isFinalized = false ↔ p.NeverFinalized ∨ p.LastUnfinished) ∧
    ∀ b w, s = .writing b w → ∃ n c, b.closeWrite w = some (n, c) ∧
      (w.failed = false → c.frame.position = n ∧ c.frame.limit = n ∧ c.frame.size = some n ∧ c.frame.extent = n) ∧
      (w.failed = true → n = 0 ∧ c.frame.isFinalized = false) := by
  obtain ⟨hu, hheld⟩ := h.upright
  refine ⟨hu.limit_le, hu.size, remaining_eq hu.limit_le, ?_, ?_⟩
  · rw [isFinalized, Option.isSome_eq_false_iff, Option.isNone_iff_eq_none]
    exact hu.unfinalized
  · rintro b w rfl
    obtain ⟨hin, hs⟩ := hheld
    have hclose := Bench.closeWrite_eq b hin
    cases hf : w.failed with
    | true =>
      rw [hf] at hclose
      refine ⟨0, b.dropWrite w, hclose, nofun, fun _ => ⟨rfl, ?_⟩⟩
      rw [Bench.frame_dropWrite, isFinalized, hs]
      rfl
    | false =>
      rw [hf] at hclose
      have hl := length_written hin
      exact ⟨w.position, b.finishWrite w, hclose, fun _ => ⟨hl, hl, congrArg some hl, hl⟩, nofun⟩

/-- a frame over three bytes, its position past its limit -/
def strayFrame : Frame :=
  ⟨#[1, 2, 3], 5, 2, some 3⟩

/-- a bench that knows no messages -/
def strayBench : Bench :=
  ⟨⟨fun _ => none, .standard, .ofCapacity 1, .ofMax 0⟩, .ofMax 0, strayFrame⟩

theorem stray_frame_lives :
    strayFrame.remaining = 0 ∧ strayFrame.remaining = strayFrame.readable.length ∧ strayFrame.isFinalized = true ∧
      ∃ p w n c, Lives p (.writing strayBench.openWrite.2 w) ∧ p.LastUnfinished ∧ w.frame.isFinalized = false ∧
        strayBench.openWrite.2.closeWrite w = some (n, c) ∧ n = 2 ∧ c.frame.size = some 2 := by
  have hstray : Lives .ofBytes (.free strayFrame) :=
    ((Lives.received [1, 2, 3]).act (.setLimit 2) rfl).act (.setPosition 5) rfl
  have hopened : Lives Past.ofBytes.opened (.writing strayBench.openWrite.2 strayBench.openWrite.1) := .openWrite hstray
  have hwriting := hopened.write (.field (.raw [7, 8]))
  obtain ⟨-, -, hremaining, -⟩ := lives_upright hstray
  obtain ⟨-, -, -, hunfinished, hclose⟩ := lives_upright hwriting
  obtain ⟨n, c, hc, hdone, -⟩ := hclose _ _ rfl
  obtain ⟨hposition, -, hsize, -⟩ := hdone (by decide +kernel)
  have hlast : Past.ofBytes.opened.LastUnfinished := .inl rfl
  have hn : n = 2 := by
    have hcount : (strayBench.openWrite.2.closeWrite
        ((WriteOp.field (.raw [7, 8])).run strayBench.openWrite.1).2).map Prod.fst = some 2 := by decide +kernel
    rw [hc] at hcount
    exact Option.some.inj hcount
  exact ⟨rfl, hremaining, rfl, _, _, n, c, hwriting, hlast, hunfinished.2 (.inr hlast), hc, hn, hn ▸ hsize⟩

end Frame

end Courier
