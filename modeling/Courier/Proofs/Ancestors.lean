import Courier.Proofs.Codes
import Courier.Proofs.Hostile
import Courier.Proofs.Patch
import Courier.Proofs.ReadsLeaveClear
import Courier.Proofs.Rootless

/-!
A nested message does not disturb the messages around it.

A message writes through the same buffer and the same levels as the messages around it, and it may do whatever a session
offers: write data, move its cursor, mark its header, nest further messages, and look at the session in between. The
messages of fields are treated beside the messages that are given by their codes. Neither may hold a root.

A code comes to an end by itself; nothing else is assumed of it. `WriteCode.minds` goes by induction on the code;
`loyal_descends` takes messages that are read however deep they are followed, and `Loyal.onto` goes on behind a refusal.
The step that matters is the one back up, `Minds.leave` and `Loyal.below`: what was kept above the level of a message is
one level more once that level has been left.

`ancestors_undisturbed`: the main result.
-/

namespace Courier

open Writer

/-- whether there are no roots in a code -/
def WriteCode.Rootless : WriteCode → Prop
  | .finish _ => True
  | .act _ next => ∀ r w, (next r w).Rootless
  | .field f next => f.rootless = true ∧ ∀ r w, (next r w).Rootless
  | .nested body next => body.Rootless ∧ ∀ r w, (next r w).Rootless
  | .root _ _ => False

namespace Writer

variable {α : Type}

/-- a call on a nested message that has come back, and has left what was there before as it was -/
structure Undisturbed (w : Writer) (s : Sent α) : Prop where
  returns : s.result ≠ .error .panic
  depth : s.writer.depth = w.depth
  levels : ∀ i ≤ w.depth, s.writer.nesting.level i = w.nesting.level i
  cleared : s.result = .ok true → s.writer.nesting.level (w.depth + 1) = .blank
  position_le : w.position ≤ s.writer.position
  written : s.writer.scratch.bytes.take w.position = w.written

/-- a call that is no stop, and keeps what no act can undo -/
structure Minds (w : Writer) (s : Sent α) : Prop where
  returns : s.result ≠ .error .panic
  keeps : Keeps w s.writer

/-- **The step back up**: a nested message leaves alone what was kept above its own level. -/
theorem Minds.leave {w : Writer} {s : Sent α} (h : Minds (enter w) s) : Minds w (leave s) ∧ Undisturbed w (leave s) := by
  have hd : s.writer.depth = w.depth + 1 := h.keeps.depth.trans w.nesting.depth_forward
  have hview : ∀ b, (s.writer.nesting.retreat b).level = (s.writer.nesting.view.retreat b).level := fun b =>
    congrArg Levels.level (s.writer.nesting.view_retreat b)
  have hup : ∀ b, ∀ i ≤ w.depth, (s.writer.nesting.retreat b).level i = w.nesting.level i := by
    intro b i hi
    calc (s.writer.nesting.retreat b).level i = (s.writer.nesting.view.retreat b).level i := congrFun (hview b) i
      _ = s.writer.nesting.level i := by
        cases b with
        | false => rfl
        | true => exact Levels.level_update_of_ne _ _ (by change i ≠ s.writer.depth; omega)
      _ = (enter w).nesting.level i := h.keeps.above i (by rw [← h.keeps.depth, hd]; omega)
      _ = w.nesting.level i := congrFun (congrArg Levels.level w.nesting.view_forward) i
  have hclear : (s.writer.nesting.retreat true).level (w.depth + 1) = .blank := by
    rw [hview, ← hd]
    exact s.writer.nesting.view.level_update_self .blank
  have hk := h.keeps.retreat
  rw [leave_eq (by omega)]
  rcases hr : s.result with (e | _) | b
  · exact ⟨⟨nofun, (hk false).mark⟩, nofun, (hk false).depth, hup false, nofun, (hk false).position_le, (hk false).front⟩
  · exact absurd hr h.returns
  · refine ⟨⟨nofun, hk b⟩, nofun, (hk b).depth, hup b, fun hb => ?_, (hk b).position_le, (hk b).front⟩
    cases hb
    exact hclear

/-- an act behind one that is minded -/
theorem Minds.onto {w : Writer} {s : Sent α} (h : Minds w s) {next : Except WireError Bool → Writer → Sent Unit}
    (hn : ∀ r, Minds s.writer (next r s.writer)) : Minds w (s.onto next) := by
  unfold Sent.onto
  rcases hr : s.result with (e | _) | b
  · exact ⟨(hn _).returns, h.keeps.trans (hn _).keeps⟩
  · exact absurd hr h.returns
  · exact ⟨(hn _).returns, h.keeps.trans (hn _).keeps⟩

theorem minds_act (l : Layout) {w : Writer} (hw : w.Inside) : Minds w (sent () l.run w) := by
  have h := l.goes hw
  unfold sent
  generalize l.run w = x at h
  generalize l.result = res at h
  rcases h with ⟨_, keeps⟩ | ⟨_, keeps⟩ | ⟨_, keeps⟩ <;> exact ⟨nofun, keeps⟩

end Writer

/-- **A code keeps what no act can undo**, and it does not stop. -/
theorem WriteCode.minds {c : WriteCode} (hc : c.Rootless) {w : Writer} (hw : w.Inside) : Minds w (c.run w) := by
  induction c generalizing w with
  | finish r =>
    refine ⟨?_, .refl hw⟩
    cases r <;> nofun
  | act l next ih =>
    have h := minds_act l hw
    exact h.onto fun r => ih r _ (hc r _) h.keeps.inside
  | field f next ih =>
    have h : Minds w (f.write w) := ⟨f.write_returns hc.1 hw, (f.carries hw).keeps⟩
    exact h.onto fun r => ih r _ (hc.2 r _) h.keeps.inside
  | nested body next ihBody ih =>
    have hin : (enter w).Inside := hw
    have h := (ihBody hc.1 hin).leave.1
    exact h.onto fun r => ih r _ (hc.2 r _) h.keeps.inside
  | root => exact hc.elim

/-! ## Reading -/

open Reader

namespace Reader

variable {α β : Type}

/-- an act that began with `r` has ended at its depth, with the first `n` levels as they were; a stop is no end -/
def Upholds (n : Nat) (r : Reader) : EStateM.Result Fault Reader α → Prop
  | .ok _ s | .error (.error _) s => s.depth = r.depth ∧ ∀ i < n, s.nesting.level i = r.nesting.level i
  | .error .panic _ => True

/-- an act that leaves the levels above the one at hand alone -/
def Loyal (act : Reading α) : Prop :=
  ∀ r, Upholds r.depth r (act r)

namespace Upholds

variable {n : Nat} {r s : Reader} {x : EStateM.Result Fault Reader α}

theorem trans (hd : s.depth = r.depth) (hl : ∀ i < n, s.nesting.level i = r.nesting.level i) (h : Upholds n s x) :
    Upholds n r x := by
  rcases x with ⟨a, t⟩ | ⟨_ | _, t⟩
  · exact ⟨h.1.trans hd, fun i hi => (h.2 i hi).trans (hl i hi)⟩
  · exact ⟨h.1.trans hd, fun i hi => (h.2 i hi).trans (hl i hi)⟩
  · trivial

theorem bind {act : Reading α} {next : α → Reading β} (h : Upholds n r (act r))
    (hn : ∀ a s, act r = .ok a s → Upholds n s (next a s)) : Upholds n r ((act >>= next) r) := by
  rw [bind_eq]
  rcases hx : act r with ⟨a, s⟩ | ⟨_ | _, s⟩ <;> rw [hx] at h
  · exact (hn a s hx).trans h.1 h.2
  · exact h
  · trivial

theorem onto {act : Reading α} {next : Except WireError α → Reader → Reading β} (h : Upholds n r (act r))
    (hn : ∀ a s, s.depth = r.depth → Upholds n s (next a s s)) : Upholds n r (onto act next r) := by
  unfold Reader.onto
  rcases hx : act r with ⟨a, s⟩ | ⟨_ | _, s⟩ <;> rw [hx] at h
  · exact (hn _ s h.1).trans h.1 h.2
  · exact (hn _ s h.1).trans h.1 h.2
  · trivial

theorem mono {m : Nat} (h : Upholds n r x) (hm : m ≤ n) : Upholds m r x := by
  rcases x with ⟨a, t⟩ | ⟨_ | _, t⟩
  · exact ⟨h.1, fun i hi => h.2 i (hi.trans_le hm)⟩
  · exact ⟨h.1, fun i hi => h.2 i (hi.trans_le hm)⟩
  · trivial

end Upholds

theorem Blind.upholds {act : Reading α} (h : Blind act) (n : Nat) (r : Reader) : Upholds n r (act r) := by
  have hsame : ∀ {s : Reader}, s.nesting = r.nesting →
      s.depth = r.depth ∧ ∀ i < n, s.nesting.level i = r.nesting.level i :=
    fun hs => ⟨congrArg Nesting.depth hs, fun i _ => congrArg (Nesting.level · i) hs⟩
  rcases hr : act r with ⟨a, s⟩ | ⟨_ | _, s⟩
  · exact hsame (h.nesting_ok hr)
  · exact hsame (h.nesting_error hr)
  · trivial

theorem Blind.loyal {act : Reading α} (h : Blind act) : Loyal act :=
  fun r => h.upholds r.depth r

/-- **The step back up**: an act one level down leaves the level it is gone into from alone as well. -/
theorem Loyal.below {act : Reading α} (h : Loyal act) (r : Reader) : Upholds (r.depth + 1) r (below act r) := by
  have hdown : (r.onNesting .forward).nesting.view = r.nesting.view.forward := r.nesting.view_forward
  have hdepth : (r.onNesting .forward).depth = r.depth + 1 := congrArg Levels.depth hdown
  have hup : ∀ (s : Reader) (b : Bool), s.depth = (r.onNesting .forward).depth →
      (∀ i < (r.onNesting .forward).depth, s.nesting.level i = (r.onNesting .forward).nesting.level i) →
      s.depth ≠ 0 ∧ (s.onNesting (·.retreat b)).depth = r.depth ∧
        ∀ i < r.depth + 1, (s.onNesting (·.retreat b)).nesting.level i = r.nesting.level i := by
    intro s b hd hl
    rw [hdepth] at hd hl
    refine ⟨by omega, ?_, fun i hi => ?_⟩
    · calc (s.nesting.retreat b).depth = s.depth - 1 := s.nesting.depth_retreat b
        _ = r.depth := by rw [hd, Nat.add_sub_cancel]
    · calc (s.nesting.retreat b).level i = (s.nesting.view.retreat b).level i :=
            congrFun (congrArg Levels.level (s.nesting.view_retreat b)) i
        _ = s.nesting.level i := by
          cases b with
          | false => rfl
          | true => exact Levels.level_update_of_ne _ _ (by change i ≠ s.depth; omega)
        _ = (r.onNesting .forward).nesting.level i := hl i hi
        _ = r.nesting.level i := congrFun (congrArg Levels.level hdown) i
  have ha := h (r.onNesting .forward)
  unfold Reader.below
  rcases hx : act (r.onNesting .forward) with ⟨a, s⟩ | ⟨e | _, s⟩ <;> rw [hx] at ha
  · obtain ⟨h0, hs⟩ := hup s true ha.1 ha.2
    simp only [if_neg h0]
    exact hs
  · obtain ⟨h0, hs⟩ := hup s false ha.1 ha.2
    simp only [if_neg h0]
    exact hs
  · trivial

namespace Loyal

theorem bind {act : Reading α} {next : α → Reading β} (h : Loyal act) (hn : ∀ a, Loyal (next a)) :
    Loyal (act >>= next) := by
  intro r
  refine (h r).bind fun a s hs => ?_
  have hd := h r
  rw [hs] at hd
  have hd : s.depth = r.depth := hd.1
  exact hd ▸ hn a s

theorem onto {act : Reading α} {next : Except WireError α → Reader → Reading β} (h : Loyal act)
    (hn : ∀ a s, Loyal (next a s)) : Loyal (onto act next) :=
  fun r => (h r).onto fun a s hd => hd ▸ hn a s s

theorem leaves : Leaves Loyal where
  pure a := (Blind.pure a).loyal
  bind := bind
  refuse e := (Blind.refuse e).loyal
  byte := (Blind.onFrame _).loyal
  int := (Blind.onFrame _).loyal
  long := (Blind.onFrame _).loyal
  fixed α _ _ := (Blind.fixed α).loyal
  length kind size := (Blind.length kind size).loyal
  array α := (Blind.array α).loyal
  byteArray := Blind.byteArray.loyal
  booleanArray := Blind.booleanArray.loyal
  string := Blind.string.loyal
  object _ := (Blind.objectWith _).loyal
  probe p r := by
    have hsame : r.depth = r.depth ∧ ∀ i < r.depth, r.nesting.level i = r.nesting.level i := ⟨rfl, fun _ _ => rfl⟩
    cases p <;> exact hsame

/-- a level that is cleared behind an act is the outermost one, which has none above it -/
theorem onLevel {act : Reading α} (h : Loyal act) : Loyal (onLevel act) := by
  intro r
  have ha := h r
  unfold Reader.onLevel
  rcases hx : act r with ⟨a, s⟩ | ⟨_ | _, s⟩ <;> rw [hx] at ha
  · dsimp only
    split
    · rename_i h0
      have hr : r.depth = 0 := ha.1.symm.trans h0
      exact ⟨s.nesting.depth_wipe.trans ha.1, fun i hi => absurd hi (by omega)⟩
    · trivial
  · exact ha
  · trivial

end Loyal

/-! Messages of the model. -/

theorem loyal_descends : Descends Loyal where
  toLeaves := Loyal.leaves
  panic := Blind.panic.loyal
  blueprint := Blind.blueprint.loyal
  into m := (Blind.into m).loyal
  below h r := (h.below r).mono (Nat.le_succ _)
  onLevel := Loyal.onLevel

/-- a nested message of the model leaves the level at hand alone as well -/
theorem upholds_readMessage (r : Reader) : Upholds (r.depth + 1) r (readMessage r) := by
  have hbody := loyal_descends.body (loyal_descends.follow r.remaining)
  refine (Blind.blueprint.upholds _ r).bind fun o s hs => ?_
  have hd : s.depth = r.depth := congrArg Nesting.depth (Blind.blueprint.nesting_ok hs)
  cases o with
  | none => exact (Blind.pure none).upholds _ s
  | some b =>
    rw [← hd]
    exact ((hbody b).below s).bind fun m t _ => (Blind.pure (some m)).upholds _ t

/-! Messages given by their codes. -/

theorem loyal_readAt (place : Place) : Loyal (readAt place) :=
  fun r => loyal_descends.follow r.nestingBound place r

theorem loyal_messageCoded (codes : CodeFactory) (place : Place) : Loyal (messageCoded codes place) :=
  fun r => loyal_descends.followCodes Loyal.onto codes r.nestingBound place r

/-- a nested message leaves the level at hand alone as well, whatever reads it -/
theorem upholds_readWith {bodies : Int16 → Option (Reading α)} (h : ∀ type body, bodies type = some body → Loyal body)
    (r : Reader) : Upholds (r.depth + 1) r (readWith bodies .nested r) := by
  refine ((Blind.fixed Int16).upholds _ r).bind fun type s hs => ?_
  have hd : s.depth = r.depth := congrArg Nesting.depth ((Blind.fixed Int16).nesting_ok hs)
  split
  · exact (Blind.pure none).upholds _ s
  · cases hb : bodies type with
    | none => exact (Blind.refuse _).upholds _ s
    | some body =>
      rw [← hd]
      exact ((h type body hb).below s).bind fun a t _ => (Blind.pure (some a)).upholds _ t

theorem upholds_codeBodies {messageAt : Place → Reading (Option Message)} (hat : ∀ place, Loyal (messageAt place))
    (codes : CodeFactory) (r : Reader) : Upholds (r.depth + 1) r (readWith (codeBodies codes messageAt) .nested r) := by
  refine upholds_readWith (fun type body hb => ?_) r
  obtain ⟨c, -, rfl⟩ := Option.map_eq_some_iff.1 hb
  exact loyal_descends.run Loyal.onto hat c

end Reader

/-! ## The main result -/

/-- **A nested message cannot disturb the messages around it.** In every state of a write session, a call on a nested
message without roots comes back: it has finished, was interrupted or was refused. It ends at the depth it started at,
with the levels down to the one at hand as they were and with what was written before still in front; the level of the
message is clear if it has finished. That is so of the messages of fields, and of any code made of what a session
offers. A nested message that is read or refused ends at the same depth too, with the same levels down to the one at
hand, in any read session, whatever its code does and whatever the codes of the messages in it do; a session as one can
be opened does not stop in a message of fields. -/
theorem ancestors_undisturbed {w : Writer} (hw : w.Reached) (r : Reader) :
    (∀ m : Message, m.rootless = true → Undisturbed w (w.writeMessage m)) ∧
    (∀ c : WriteCode, c.Rootless → Undisturbed w (w.writeCoded c)) ∧
    Upholds (r.depth + 1) r (readMessage r) ∧
    (Sane r → ∀ s, readMessage r ≠ .error .panic s) ∧
    (∀ codes : CodeFactory, Upholds (r.depth + 1) r (readWith (codeBodies codes readAt) .nested r)) ∧
    ∀ codes inner : CodeFactory,
      Upholds (r.depth + 1) r (readWith (codeBodies codes (messageCoded inner)) .nested r) := by
  have hin : (enter w).Inside := hw.within.1
  refine ⟨fun m hm => ?_, fun c hc => (c.minds hc hin).leave.2, upholds_readMessage r, fun hr s hs => ?_,
    fun codes => upholds_codeBodies loyal_readAt codes r,
    fun codes inner => upholds_codeBodies (loyal_messageCoded inner) codes r⟩
  · have h : Minds (enter w) (m.write (enter w)) := ⟨m.write_returns hm hin, (m.carries hin).keeps⟩
    exact h.leave.2
  · have h := fine_readMessage hr
    rw [hs] at h
    cases h

/-- a record with a list of nodes, which is interrupted behind it -/
def halted : Message :=
  .record 7 [.items .list .message [.message (.node 3 none)], .stall, .data (.byte 1)]

/-- a code that has a message refused inside it, and finishes all the same -/
def lenient : WriteCode :=
  .field .markHeader fun _ _ =>
    .nested (.field .advance fun _ _ => .finish (.error .packEncode)) fun _ _ => .finish (.ok true)

theorem rootless_lenient : lenient.Rootless :=
  ⟨rfl, fun _ _ => ⟨⟨rfl, fun _ _ => trivial⟩, fun _ _ => trivial⟩⟩

/-- a read session of a node that ends in its middle -/
def severedReader : Reader :=
  ⟨.ofBytes [2, 0, 8, 2, 0], .ofCapacity 1, fun type => if type = 2 then some .node else none, .little, 100⟩

theorem halted_message_undisturbed :
    ∃ w, snugWriter = some w ∧
      (w.writeMessage halted).result = .ok false ∧ (w.writeMessage halted).writer.depth = w.depth ∧
      (w.writeCoded lenient).result = .ok true ∧ (w.writeCoded lenient).writer.nesting.level (w.depth + 1) = .blank ∧
      ∃ e s, readMessage severedReader = .error (.error e) s ∧ s.depth = 0 := by
  have hshape : snugWriter.map (fun w => ((w.writeMessage halted).result, (w.writeCoded lenient).result)) =
      some (.ok false, .ok true) := by decide +kernel
  obtain ⟨w, hw, hshape⟩ := Option.map_eq_some_iff.1 hshape
  obtain ⟨hhalted, hlenient⟩ := Prod.mk.inj hshape
  obtain ⟨hmessage, hcode, hread, hstop, -⟩ := ancestors_undisturbed (reached_snugWriter hw) severedReader
  refine ⟨w, hw, hhalted, (hmessage halted rfl).depth, hlenient, (hcode lenient rootless_lenient).cleared hlenient, ?_⟩
  have hsane : Sane severedReader := by
    refine ⟨Nat.le_refl 5, fun type b hb => ?_⟩
    dsimp only [severedReader] at hb
    split at hb
    · obtain rfl := Option.some.inj hb
      decide
    · cases hb
  have hrefused : (match readMessage severedReader with | .ok _ _ => true | .error _ _ => false) = false := by
    decide +kernel
  rcases hx : readMessage severedReader with ⟨o, s⟩ | ⟨e | _, s⟩ <;> rw [hx] at hread hrefused
  · cases hrefused
  · exact ⟨e, s, rfl, hread.1⟩
  · exact absurd hx (hstop hsane s)

end Courier
