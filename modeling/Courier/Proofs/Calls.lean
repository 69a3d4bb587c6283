import Courier.Proofs.Conduct

/-!
The calls of a session do what their dispatches say.

A call on a message is a `Sent`, its dispatch is worked out from the message, the byte order and the levels alone.
`Carries` ties the two: nothing that was there before the call is lost, where there is room enough the call comes to
what the dispatch says, and where there is not it is refused and the session is marked failed.

`Relays`: the calls that only pass on another one, such as `leave` and `settle`.
`Carries.bind`, `Carries.leave`, ...: the ways of putting calls together respect it.
`Message.carries`, `Field.carries`, `Value.carries`: every call carries its dispatch.
`Field.write_marks`: a refusal marks the session failed, with one exception: the field that does nothing but refuse.
-/

namespace Courier

open Writer Dispatch

namespace Sent

variable {α β : Type}

/-- goes on with `next` once the call has come to its end -/
def bind (s : Sent α) (next : α → Writer → Sent β) (stop : α → β) : Sent β :=
  match s.result with
  | .ok true => next s.left s.writer
  | _ => ⟨s.result, s.writer, stop s.left⟩

/-- the same call with something else left -/
def map (f : α → β) (s : Sent α) : Sent β :=
  { s with left := f s.left }

theorem bind_of_done {s : Sent α} (h : s.result = .ok true) (next : α → Writer → Sent β) (stop : α → β) :
    s.bind next stop = next s.left s.writer := by
  simp only [bind, h]

/-- nothing follows a call that has not come to its end -/
theorem bind_of_ne {s : Sent α} (h : s.result ≠ .ok true) (next : α → Writer → Sent β) (stop : α → β) :
    s.bind next stop = s.map stop := by
  unfold bind
  split
  · contradiction
  · rfl

end Sent

namespace Dispatch

variable {α : Type}

theorem rounds_of_ne {d : Dispatch (Grant × α)} {n : Nat} {pass : Grant → Levels → Dispatch (Grant × α)} {k : Nat}
    (h : d.result ≠ .ok true) : d.rounds n pass k = d := by
  cases k <;> unfold rounds <;> split <;> first | contradiction | rfl

theorem peak_le_rounds (n : Nat) (pass : Grant → Levels → Dispatch (Grant × α)) (k : Nat) (d : Dispatch (Grant × α)) :
    d.out.peak ≤ (d.rounds n pass k).out.peak := by
  induction k generalizing d with
  | zero =>
    unfold rounds
    split
    · split <;> exact Nat.le_refl _
    · exact Nat.le_refl _
  | succ k ih =>
    unfold rounds
    split
    · split
      · exact Nat.le_trans (Nat.le_max_left ..) (ih ((pass d.left.1 d.levels).behind d.out d.failed))
      · exact Nat.le_refl _
    · exact Nat.le_refl _

end Dispatch

namespace Writer

variable {α β : Type}

/-- where there is room enough, the call comes to what the dispatch says -/
structure Tells (w : Writer) (s : Sent α) (d : Dispatch α) : Prop where
  result : s.result = d.result
  left : s.left = d.left
  levels : s.writer.nesting.view = d.levels
  failed : s.writer.failed = (w.failed || d.failed)
  position : s.writer.position = w.position + d.out.bytes.length
  written : ∀ b, d.result = .ok b → s.writer.written = w.written ++ d.out.bytes

/-- the call does what the dispatch says, or is refused for want of room -/
structure Carries (w : Writer) (s : Sent α) (d : Dispatch α) : Prop where
  keeps : Keeps w s.writer
  tells : w.Fits d.out.peak → Tells w s d
  crowded : ¬ w.Fits d.out.peak → (∃ e, s.result = .error (.error e)) ∧ s.writer.failed = true

/-- what was kept one level down is kept once that level has been left -/
theorem Keeps.retreat {w v : Writer} (h : Keeps (enter w) v) (b : Bool) : Keeps w (v.onNesting (·.retreat b)) := by
  have hd : v.depth = w.depth + 1 := h.depth.trans w.nesting.depth_forward
  refine ⟨h.frame, h.order, h.position_le, h.inside, h.capacity_le, h.capacity_le_max, h.front, h.failed, ?_, ?_⟩
  · calc (v.onNesting (·.retreat b)).depth = v.depth - 1 := v.nesting.depth_retreat b
      _ = w.depth + 1 - 1 := by rw [hd]
      _ = w.depth := Nat.add_sub_cancel ..
  · intro i hi
    have hup : (v.nesting.view.retreat b).level i = v.nesting.level i := by
      cases b with
      | false => rfl
      | true => exact Levels.level_update_of_ne _ _ (by change i ≠ v.depth; omega)
    calc (v.nesting.retreat b).level i = (v.nesting.view.retreat b).level i :=
          congrFun (congrArg Levels.level (v.nesting.view_retreat b)) i
      _ = v.nesting.level i := hup
      _ = (enter w).nesting.level i := h.above i (by rw [← h.depth, hd]; omega)
      _ = w.nesting.level i := congrFun (congrArg Levels.level w.nesting.view_forward) i

theorem Inside.fits_zero {w : Writer} (h : w.Inside) : w.Fits 0 :=
  Nat.le_trans h (Nat.le_max_left ..)

theorem leave_eq {s : Sent α} (h : s.writer.depth ≠ 0) :
    leave s = match s.result with
      | .ok b => ⟨.ok b, s.writer.onNesting (·.retreat b), s.left⟩
      | .error (.error e) => ⟨.error (.error e), { s.writer.onNesting (·.retreat false) with failed := true }, s.left⟩
      | .error .panic => ⟨.error .panic, s.writer.onNesting (·.retreat false), s.left⟩ := by
  obtain ⟨result, v, left⟩ := s
  simp only [leave, if_neg h]
  rcases result with (_ | _) | _ <;> rfl

theorem settle_eq (s : Sent α) :
    settle s = match s.result with
      | .ok true =>
        if s.writer.depth = 0 then ⟨.ok true, s.writer.onNesting .wipe, s.left⟩ else ⟨.error .panic, s.writer, s.left⟩
      | .error (.error e) => ⟨.error (.error e), { s.writer with failed := true }, s.left⟩
      | _ => s := by
  obtain ⟨(_ | _) | (_ | _), v, left⟩ := s <;> rfl

/-- one level up behind a call on a nested message, nothing that was there before is lost -/
theorem Keeps.leave {w : Writer} {s : Sent α} (h : Keeps (enter w) s.writer) : Keeps w (Writer.leave s).writer := by
  have hd : s.writer.depth = w.depth + 1 := h.depth.trans w.nesting.depth_forward
  rw [leave_eq (by omega)]
  rcases s.result with (_ | _) | b
  · exact (h.retreat _).mark
  · exact h.retreat _
  · exact h.retreat b

theorem Keeps.settle {w : Writer} {s : Sent α} (h : Keeps w s.writer) : Keeps w (Writer.settle s).writer := by
  have hwipe : Keeps w (s.writer.onNesting .wipe) := by
    apply h.onNesting s.writer.nesting.depth_wipe
    intro i hi
    have hl := congrFun (congrArg Levels.level s.writer.nesting.view_wipe) i
    exact hl.trans (Levels.level_update_of_ne _ _ (Nat.ne_of_lt hi))
  rw [settle_eq]
  split
  · split
    · exact hwipe
    · exact h
  · exact h.mark
  · exact h

/-- the fields are gone over again only where they have come to their end -/
theorem rounds_of_ne {s : Sent (Grant × α)} (h : s.result ≠ .ok true) (n : Nat)
    (pass : Grant → Writer → Sent (Grant × α)) (k : Nat) : rounds n pass k s = s := by
  cases k <;> unfold rounds <;> split <;> first | contradiction | rfl

/-- a call that passes on another one: it leaves what was written, and it is refused where that one is -/
structure Relays (s : Sent α) (t : Sent β) : Prop where
  order : t.writer.order = s.writer.order
  ended : ∀ b, t.result = .ok b → ∃ c, s.result = .ok c
  written : ∀ b, t.result = .ok b → t.writer.written = s.writer.written

theorem Relays.refl (s : Sent α) : Relays s s :=
  ⟨rfl, fun b h => ⟨b, h⟩, fun _ _ => rfl⟩

theorem Relays.refused {s : Sent α} {t : Sent β} {f : Fault} (ho : t.writer.order = s.writer.order)
    (ht : t.result = .error f) : Relays s t := by
  refine ⟨ho, fun b hb => ?_, fun b hb => ?_⟩ <;> cases ht.symm.trans hb

theorem relays_leave (s : Sent α) : Relays s (leave s) := by
  by_cases hd : s.writer.depth = 0
  · obtain ⟨result, w, left⟩ := s
    simp only [leave, if_pos hd]
    exact .refused rfl rfl
  · rw [leave_eq hd]
    rcases hr : s.result with (e | _) | b
    · exact .refused rfl rfl
    · exact .refused rfl rfl
    · exact ⟨rfl, fun _ _ => ⟨b, hr⟩, fun _ _ => rfl⟩

theorem relays_settle (s : Sent α) : Relays s (settle s) := by
  rw [settle_eq]
  rcases hr : s.result with (e | _) | (_ | _)
  · exact .refused rfl rfl
  · exact .refl s
  · exact .refl s
  · dsimp only
    split
    · exact ⟨rfl, fun _ _ => ⟨true, hr⟩, fun _ _ => rfl⟩
    · exact .refused rfl rfl

theorem relays_whole (s : Sent α) (type : Int16) (w : Writer) : Relays s (sent () (fun _ => whole type s) w) := by
  rcases hr : s.result with f | (_ | _) <;> simp only [sent, whole, hr]
  · exact .refused rfl rfl
  · exact .refused rfl rfl
  · exact ⟨rfl, fun _ _ => ⟨true, hr⟩, fun _ _ => rfl⟩

/-- a root among the fields of a message tells only that it was not refused -/
theorem relays_root (s : Sent α) (left : β) : Relays s ⟨s.result.map fun _ => true, s.writer, left⟩ := by
  refine ⟨rfl, fun b h => ?_, fun _ _ => rfl⟩
  cases hr : s.result with
  | ok c => exact ⟨c, rfl⟩
  | error e =>
    rw [hr] at h
    cases h

/-- no more rounds: the call stops where it would have to go on -/
theorem relays_rounds (s : Sent (Grant × α)) (n : Nat) (pass : Grant → Writer → Sent (Grant × α)) :
    Relays s (rounds n pass 0 s) := by
  unfold rounds
  split
  · split
    · exact .refused rfl rfl
    · exact .refl s
  · exact .refl s

namespace Carries

variable {w : Writer} {s : Sent α} {d : Dispatch α}

/-- a call that did not end in a refusal found room enough -/
theorem tells_of_ok (h : Carries w s d) {b : Bool} (hs : s.result = .ok b) : Tells w s d := by
  by_cases hf : w.Fits d.out.peak
  · exact h.tells hf
  · obtain ⟨⟨e, he⟩, -⟩ := h.crowded hf
    simp [hs] at he

theorem stay (hw : w.Inside) (left : α) (result : Except Fault Bool) :
    Carries w ⟨result, w, left⟩ (.stay left result w.nesting.view) where
  keeps := .refl hw
  tells _ := ⟨rfl, rfl, rfl, by simp [Dispatch.stay], by simp [Dispatch.stay], by simp [Dispatch.stay]⟩
  crowded h := absurd hw.fits_zero h

/-- a change of the level at hand -/
theorem onNesting (hw : w.Inside) (left : α) {f : Nesting → Nesting} {g : Levels → Levels}
    (hv : (f w.nesting).view = g w.nesting.view) (hk : Keeps w (w.onNesting f)) :
    Carries w ⟨.ok true, w.onNesting f, left⟩ (.stay left (.ok true) (g w.nesting.view)) where
  keeps := hk
  tells _ := ⟨rfl, rfl, hv, by simp [Dispatch.stay, Writer.onNesting], by simp [Dispatch.stay, Writer.onNesting, position],
    by simp [Dispatch.stay, Writer.onNesting, written, position]⟩
  crowded h := absurd hw.fits_zero h

theorem ofLayout {act : Writing Unit} {l : ByteOrder → Layout} (ha : Lays act l) (hw : w.Inside) (left : α) :
    Carries w (sent left act w) (.ofLayout left w.order (l w.order) w.nesting.view) := by
  have key := (l w.order).goes hw
  rw [← ha w] at key
  generalize hr : act w = r at key
  generalize hres : (l w.order).result = res at key
  cases key with
  | done fits keeps levels failed position written =>
    simp only [sent, hr, Dispatch.ofLayout, hres]
    exact ⟨keeps, fun _ => ⟨rfl, rfl, congrArg _ levels, by simp [failed], position, fun _ _ => written⟩,
      fun h => absurd fits h⟩
  | refused fits keeps levels failed position =>
    simp only [sent, hr, Dispatch.ofLayout, hres]
    exact ⟨keeps, fun _ => ⟨rfl, rfl, congrArg _ levels, by simp [failed], position, fun _ h => by cases h⟩,
      fun h => absurd fits h⟩
  | crowded fits keeps levels failed =>
    refine ⟨?_, fun h => absurd ?_ fits, fun _ => ?_⟩
    · simpa only [sent, hr] using keeps
    · cases res <;> simpa only [Dispatch.ofLayout, hres] using h
    · simp only [sent, hr]
      exact ⟨⟨_, rfl⟩, failed⟩

theorem map (h : Carries w s d) (f : α → β) : Carries w (s.map f) (d.map f) :=
  ⟨h.keeps, fun hf =>
    have t := h.tells hf
    ⟨t.result, congrArg f t.left, t.levels, t.failed, t.position, t.written⟩, h.crowded⟩

/-- a call that counts as finished wherever it was not refused -/
theorem ended (h : Carries w s d) (left : β) :
    Carries w ⟨s.result.map fun _ => true, s.writer, left⟩ { d with result := d.result.map fun _ => true, left := left } := by
  refine ⟨h.keeps, fun hf => ?_, fun hf => ?_⟩
  · have t := h.tells hf
    refine ⟨congrArg (Except.map fun _ => true) t.result, rfl, t.levels, t.failed, t.position, fun b hb => ?_⟩
    cases hr : d.result with
    | ok b => exact t.written b hr
    | error e => simp [hr, Except.map] at hb
  · obtain ⟨⟨e, he⟩, hfl⟩ := h.crowded hf
    exact ⟨⟨e, congrArg (Except.map fun _ => true) he⟩, hfl⟩

/-- one call behind another that has come to its end -/
theorem behind (h : Carries w s d) (hs : s.result = .ok true) {t : Sent β} {e : Levels → Dispatch β}
    (ht : Carries s.writer t (e s.writer.nesting.view)) : Carries w t ((e d.levels).behind d.out d.failed) := by
  have hd := h.tells_of_ok hs
  have hfit : w.Fits d.out.peak := by
    by_contra hf
    obtain ⟨⟨e, he⟩, -⟩ := h.crowded hf
    simp [hs] at he
  rw [hd.levels] at ht
  generalize e d.levels = e at ht ⊢
  have hfits : w.Fits (d.out ++ e.out).peak ↔ s.writer.Fits e.out.peak := by
    rw [h.keeps.fits_iff, hd.position, Nat.add_sub_cancel_left]
    simp only [Fits, Output.peak_append] at hfit ⊢
    omega
  refine ⟨h.keeps.trans ht.keeps, fun hf => ?_, fun hf => ht.crowded fun h => hf (hfits.2 h)⟩
  have te := ht.tells (hfits.1 hf)
  refine ⟨te.result, te.left, te.levels, ?_, ?_, fun b hb => ?_⟩
  · rw [te.failed, hd.failed, Bool.or_assoc]
    rfl
  · rw [te.position, hd.position, Nat.add_assoc]
    simp [Dispatch.behind]
  · rw [te.written b hb, hd.written true (hd.result.symm.trans hs), List.append_assoc]
    rfl

theorem bind (h : Carries w s d) {n : α → Writer → Sent β} {e : α → Levels → Dispatch β} {c : α → β}
    (hn : ∀ a v, v.Inside → v.order = w.order → Carries v (n a v) (e a v.nesting.view)) :
    Carries w (s.bind n c) (d.bind e c) := by
  -- a call that has come to its end had room, so its dispatch has come to its end too; otherwise nothing follows
  by_cases hs : s.result = .ok true
  · have hd := h.tells_of_ok hs
    have key := h.behind hs (e := e s.left) (hn s.left s.writer h.keeps.inside h.keeps.order)
    rw [hd.left] at key
    simpa only [Sent.bind, hs, Dispatch.bind, hd.result.symm.trans hs, hd.left] using key
  · rw [Sent.bind_of_ne hs]
    by_cases hf : w.Fits d.out.peak
    · have hd := h.tells hf
      have hr : d.bind e c = d.map c := by
        unfold Dispatch.bind
        split
        · rename_i h1
          exact absurd (hd.result.trans h1) hs
        · rfl
      rw [hr]
      exact h.map c
    · refine ⟨h.keeps, fun hb => absurd ?_ hf, fun _ => h.crowded hf⟩
      unfold Dispatch.bind at hb
      split at hb
      · exact Nat.le_trans (Nat.add_le_add_left (Nat.le_max_left ..) _) hb
      · exact hb

/-- a call that is refused for want of room, and a dispatch that asks for more still -/
theorem stopped (h : Carries w s d) (hs : s.result ≠ .ok true) {e : Dispatch α} (he : d.result ≠ .ok true → e = d)
    (hp : d.out.peak ≤ e.out.peak) : Carries w s e := by
  by_cases hf : w.Fits d.out.peak
  · rw [he fun hd => hs ((h.tells hf).result.trans hd)]
    exact h
  · exact ⟨h.keeps, fun h => absurd (Nat.le_trans (Nat.add_le_add_left hp _) h) hf, fun _ => h.crowded hf⟩

/-- going over the fields time after time -/
theorem rounds {s : Sent (Grant × α)} {d : Dispatch (Grant × α)} {n : Nat} {pass : Grant → Writer → Sent (Grant × α)}
    {dpass : Grant → Levels → Dispatch (Grant × α)} (h : Carries w s d)
    (hp : ∀ g v, v.Inside → v.order = w.order → Carries v (pass g v) (dpass g v.nesting.view)) (k : Nat) :
    Carries w (Writer.rounds n pass k s) (d.rounds n dpass k) := by
  induction k generalizing s d with
  | zero =>
    by_cases hs : s.result = .ok true
    · have hd := h.tells_of_ok hs
      have hc : s.writer.cursor = d.levels.cursor := by rw [← hd.levels, Nesting.cursor_view, cursor]
      simp only [Writer.rounds, Dispatch.rounds, hs, hd.result.symm.trans hs, hc]
      split
      · refine ⟨h.keeps, fun hf => ?_, fun hf => absurd (h.crowded hf).1 (by simp [hs])⟩
        exact ⟨rfl, hd.left, hd.levels, hd.failed, hd.position, fun _ h => by cases h⟩
      · exact h
    · rw [rounds_of_ne hs]
      exact h.stopped hs Dispatch.rounds_of_ne (Dispatch.peak_le_rounds ..)
  | succ k ih =>
    by_cases hs : s.result = .ok true
    · have hd := h.tells_of_ok hs
      have hc : s.writer.cursor = d.levels.cursor := by rw [← hd.levels, Nesting.cursor_view, cursor]
      simp only [Writer.rounds, Dispatch.rounds, hs, hd.result.symm.trans hs, hc]
      split
      · have key := h.behind hs (e := dpass s.left.1) (hp s.left.1 s.writer h.keeps.inside h.keeps.order)
        rw [hd.left] at key ⊢
        exact ih key
      · exact h
    · rw [rounds_of_ne hs]
      exact h.stopped hs Dispatch.rounds_of_ne (Dispatch.peak_le_rounds ..)

/-- one level up behind a call on a nested message -/
theorem leave (h : Carries (enter w) s d) : Carries w (Writer.leave s) d.leave := by
  refine ⟨h.keeps.leave, ?_, ?_⟩
  all_goals
    obtain ⟨result, v, left⟩ := s
    have hv : v.depth = w.depth + 1 := h.keeps.depth.trans w.nesting.depth_forward
    rw [leave_eq (s := ⟨result, v, left⟩) (by change v.depth ≠ 0; omega)]
  · intro hf
    rw [Dispatch.out_leave] at hf
    obtain ⟨rfl, rfl, hl, hfl, hp, hwr⟩ := h.tells hf
    have hd0 : d.levels.depth ≠ 0 := by
      rw [← hl]
      change v.depth ≠ 0
      omega
    dsimp only at hl hfl hp hwr
    simp only [Dispatch.leave, if_neg hd0]
    cases hr : d.result with
    | ok b => exact ⟨rfl, rfl, (v.nesting.view_retreat b).trans (by rw [hl]), hfl, hp, fun _ _ => hwr b hr⟩
    | error f =>
      cases f with
      | error e => exact ⟨rfl, rfl, (v.nesting.view_retreat false).trans (by rw [hl]), by simp, hp, fun _ h => by cases h⟩
      | panic => exact ⟨rfl, rfl, (v.nesting.view_retreat false).trans (by rw [hl]), hfl, hp, fun _ h => by cases h⟩
  · intro hf
    rw [Dispatch.out_leave] at hf
    obtain ⟨⟨e, he⟩, -⟩ := h.crowded hf
    dsimp only at he
    subst he
    exact ⟨⟨e, rfl⟩, rfl⟩

/-- the end of a call on the outermost message -/
theorem settle (h : Carries w s d) : Carries w (Writer.settle s) d.settle := by
  refine ⟨h.keeps.settle, ?_, ?_⟩
  all_goals
    obtain ⟨result, v, left⟩ := s
    rw [settle_eq]
  · intro hf
    rw [Dispatch.out_settle] at hf
    obtain ⟨rfl, rfl, hl, hfl, hp, hwr⟩ := h.tells hf
    have hdep : v.depth = d.levels.depth := congrArg Levels.depth hl
    dsimp only at hl hfl hp hwr
    rcases hr : d.result with (e | _) | (_ | _) <;> simp only [Dispatch.settle, hr]
    · exact ⟨rfl, rfl, hl, by simp, hp, by simp⟩
    · exact ⟨hr.symm, rfl, hl, hfl, hp, by simp [hr]⟩
    · exact ⟨hr.symm, rfl, hl, hfl, hp, fun _ => hwr _⟩
    · rw [hdep]
      split
      · exact ⟨rfl, rfl, (v.nesting.view_wipe).trans (by rw [hl]), hfl, hp, fun _ _ => hwr _ hr⟩
      · exact ⟨rfl, rfl, hl, hfl, hp, fun _ h => by cases h⟩
  · intro hf
    rw [Dispatch.out_settle] at hf
    obtain ⟨⟨e, he⟩, -⟩ := h.crowded hf
    dsimp only at he
    subst he
    exact ⟨⟨e, rfl⟩, rfl⟩

/-- a call on an item of a container -/
theorem whole (h : Carries w s d) (type : Int16) :
    Carries w (sent () (fun _ => Writer.whole type s) w) (d.whole type) := by
  obtain ⟨result, v, left⟩ := s
  constructor
  · rcases result with (_ | _) | (_ | _)
    · exact h.keeps
    · exact h.keeps
    · exact h.keeps.mark
    · exact h.keeps
  · intro hf
    rw [Dispatch.out_whole] at hf
    obtain ⟨rfl, rfl, hl, hfl, hp, hwr⟩ := h.tells hf
    dsimp only at hl hfl hp hwr
    rcases hr : d.result with (e | _) | (_ | _) <;> simp only [sent, Writer.whole, refuse, Dispatch.whole, hr]
    · exact ⟨hr.symm, rfl, hl, hfl, hp, by simp [Dispatch.map, hr]⟩
    · exact ⟨hr.symm, rfl, hl, hfl, hp, by simp [Dispatch.map, hr]⟩
    · exact ⟨rfl, rfl, hl, by simp, hp, fun _ h => by cases h⟩
    · exact ⟨hr.symm, rfl, hl, hfl, hp, fun _ => hwr _⟩
  · intro hf
    rw [Dispatch.out_whole] at hf
    obtain ⟨⟨e, he⟩, hfl⟩ := h.crowded hf
    dsimp only at he hfl
    subst he
    exact ⟨⟨e, rfl⟩, hfl⟩

end Carries

/-! ## Calls, put together -/

theorem sent_bind (left : α) (act next : Writing Unit) (w : Writer) :
    sent left (do act; next) w = (sent () act w).bind (fun _ v => sent left next v) fun _ => left := by
  simp only [sent, bind_eq]
  cases act w <;> rfl

theorem sent_seq (left : α) (act next : Writing Unit) (w : Writer) :
    sent left (do act; next) w = ((sent () act w).bind (fun _ v => sent () next v) id).map fun _ => left := by
  simp only [sent, bind_eq]
  cases act w with
  | ok _ v =>
    simp only [Sent.bind, Sent.map]
    cases next v <;> rfl
  | error f v => rfl

/-- the header of a message, noted as written -/
def header (type : Int16) (w : Writer) : Sent Unit :=
  (sent () (writeHeader type) w).bind (fun _ v => ⟨.ok true, v.onNesting .markHeader, ()⟩) id

/-- the fields of a message, time after time -/
def passes (fields : List Field) (grant : Grant) (w : Writer) : Sent (Grant × List Field) :=
  rounds fields.length (fun grant w => Field.writeAll 0 grant fields w) grant.rounds (Field.writeAll 0 grant fields w)

end Writer

theorem Writer.openMessage_eq (type : Int16) (grant : Grant) (w : Writer) :
    openMessage type grant w =
      if w.headerWritten then .ok (some grant) w
      else match spend grant with
        | none => .ok none w
        | some grant => match writeHeader type w with
          | .ok _ v => .ok (some grant) (v.onNesting .markHeader)
          | .error f v => .error f v := by
  rw [openMessage, bind_eq, get_eq]
  by_cases hw : w.headerWritten = true
  · simp only [if_pos hw]
    rfl
  · simp only [if_neg hw]
    cases spend grant with
    | none => rfl
    | some grant =>
      simp only [bind_eq]
      cases writeHeader type w <;> rfl

theorem Message.write_mk (kind : MessageKind) (fields : List Field) (pauses : List Nat) (w : Writer) :
    (Message.mk kind fields pauses).write w =
      if w.headerWritten then (passes fields pauses.head? w).map fun t => .mk kind t.2 pauses.tail
      else match spend pauses.head? with
        | none => ⟨.ok false, w, .mk kind fields pauses.tail⟩
        | some grant => (header kind.type w).bind
          (fun _ v => (passes fields grant v).map fun t => .mk kind t.2 pauses.tail)
          fun _ => .mk kind fields pauses.tail := by
  rw [Message.write, openMessage_eq]
  by_cases hw : w.headerWritten = true
  · rw [if_pos hw, if_pos hw]
    rfl
  · rw [if_neg hw, if_neg hw]
    cases spend pauses.head? with
    | none => rfl
    | some grant =>
      simp only [header, sent]
      cases writeHeader kind.type w <;> rfl

theorem Value.write_message {t : ItemType} (h : t = .message) (m : Message) :
    Value.write t (.message m) = fun w => whole m.type (leave (m.write (enter w))) := by
  rw [Value.write]
  exact if_pos h

theorem Value.write_message_ne {t : ItemType} (h : t ≠ .message) (m : Message) :
    Value.write t (.message m) = refuse (.typeMismatch t.name ItemType.message.name) := by
  rw [Value.write]
  exact if_neg h

theorem Field.write_item (t : ItemType) (v : Value) (w : Writer) :
    (Field.item t v).write w = (sent () (v.write t) w).map fun _ => .item t v := by
  rw [Field.write]
  simp only [sent]
  cases v.write t w <;> rfl

theorem Field.write_items (way : Listing) (t : ItemType) (vs : List Value) (w : Writer) :
    (Field.items way t vs).write w =
      ((sent () (writeCount way t vs.length) w).bind (fun _ v => sent () (Value.writeAll t vs) v) id).map
        fun _ => .items way t vs := by
  rw [← sent_seq, Field.write]
  cases way <;> simp [writeCount]

theorem Field.write_map (kt vt : ItemType) (linked : Bool) (es : List (Value × Value)) (w : Writer) :
    (Field.map kt vt linked es).write w =
      ((sent () (putLength es.length) w).bind (fun _ v => sent () (Value.writeEntries kt vt es) v) id).map
        fun _ => .map kt vt linked es := by
  rw [← sent_seq, Field.write]

theorem Field.writeAll_cons (k : Nat) (grant : Grant) (f : Field) (fs : List Field) (w : Writer) :
    Field.writeAll k grant (f :: fs) w =
      if w.cursor = k then
        match spend grant with
        | none => ⟨.ok false, w, grant, f :: fs⟩
        | some grant => (f.write w).bind
          (fun f v => (Field.writeAll (k + 1) grant fs (v.onNesting .increment)).map fun t => (t.1, f :: t.2))
          fun f => (grant, f :: fs)
      else (Field.writeAll (k + 1) grant fs w).map fun t => (t.1, f :: t.2) := by
  rw [Field.writeAll]
  by_cases hw : w.cursor = k
  · simp only [hw, if_true]
    cases spend grant with
    | none => rfl
    | some grant =>
      obtain ⟨result, v, left⟩ := f.write w
      rcases result with (_ | _) | (_ | _) <;> rfl
  · simp only [hw, if_false]
    rfl

namespace Writer

variable {α β : Type}

/-- what a call carries that starts on other levels -/
theorem Carries.after {w : Writer} (hw : w.Inside) {f : Nesting → Nesting} {g : Levels → Levels}
    (hv : (f w.nesting).view = g w.nesting.view) (hk : Keeps w (w.onNesting f)) {t : Sent α} {e : Levels → Dispatch α}
    (h : Carries (w.onNesting f) t (e (f w.nesting).view)) : Carries w t (e (g w.nesting.view)) := by
  have key := (Carries.onNesting hw () hv hk).behind rfl h
  have he : ∀ d : Dispatch α, d.behind .nothing false = d := by simp [Dispatch.behind]
  simpa only [Dispatch.stay, he] using key

theorem keeps_increment {w : Writer} (hw : w.Inside) : Keeps w (w.onNesting .increment) :=
  (Keeps.refl hw).onNesting w.nesting.depth_increment fun i hi =>
    (congrFun (congrArg Levels.level w.nesting.view_increment) i).trans
      (Levels.level_update_of_ne _ _ (Nat.ne_of_lt hi))

theorem keeps_markHeader {w : Writer} (hw : w.Inside) : Keeps w (w.onNesting .markHeader) :=
  (Keeps.refl hw).onNesting w.nesting.depth_markHeader fun i hi =>
    (congrFun (congrArg Levels.level w.nesting.view_markHeader) i).trans
      (Levels.level_update_of_ne _ _ (Nat.ne_of_lt hi))

theorem carries_fields {fs : List Field}
    (h : ∀ f ∈ fs, ∀ w : Writer, w.Inside → Carries w (f.write w) (f.dispatch w.order w.nesting.view))
    (k : Nat) (grant : Grant) {w : Writer} (hw : w.Inside) :
    Carries w (Field.writeAll k grant fs w) (Field.dispatchAll w.order k grant fs w.nesting.view) := by
  induction fs generalizing k grant w with
  | nil =>
    rw [Field.writeAll, Field.dispatchAll]
    exact .stay hw _ _
  | cons f fs ih =>
    have hrest := ih fun f hf => h f (List.mem_cons_of_mem _ hf)
    rw [Field.writeAll_cons, Field.dispatchAll]
    have hc : w.nesting.view.cursor = w.cursor := w.nesting.cursor_view
    rw [hc]
    split
    · cases spend grant with
      | none => exact .stay hw _ _
      | some grant =>
        apply (h f List.mem_cons_self w hw).bind
        intro f v hv ho
        rw [← ho]
        refine Carries.after (e := fun s => (Field.dispatchAll v.order (k + 1) grant fs s).map _) hv
          v.nesting.view_increment (keeps_increment hv) ?_
        exact (hrest (k + 1) grant (keeps_increment hv).inside).map _
    · exact (hrest (k + 1) grant hw).map _

theorem carries_header (type : Int16) {w : Writer} (hw : w.Inside) :
    Carries w (header type w)
      ⟨.ok true, (Layout.fixed w.order type .done).output w.order, w.nesting.view.markHeader, false, ()⟩ := by
  have h := (Carries.ofLayout (Lays.fixed type Lays.done).alone hw ()).bind
    (n := fun _ v => ⟨.ok true, v.onNesting .markHeader, ()⟩) (e := fun _ s => .stay () (.ok true) s.markHeader)
    (c := id) fun _ v hv _ => .onNesting hv () v.nesting.view_markHeader (keeps_markHeader hv)
  have he : ∀ o : Output, (⟨.ok true, o, w.nesting.view, false, ()⟩ : Dispatch Unit).bind
      (fun _ s => .stay () (.ok true) s.markHeader) id = ⟨.ok true, o, w.nesting.view.markHeader, false, ()⟩ := by
    intro o
    simp [Dispatch.bind, Dispatch.behind, Dispatch.stay]
  exact he _ ▸ h

theorem carries_message (kind : MessageKind) {fields : List Field} (pauses : List Nat)
    (h : ∀ f ∈ fields, ∀ w : Writer, w.Inside → Carries w (f.write w) (f.dispatch w.order w.nesting.view))
    {w : Writer} (hw : w.Inside) :
    Carries w ((Message.mk kind fields pauses).write w)
      ((Message.mk kind fields pauses).dispatch w.order w.nesting.view) := by
  have hpass : ∀ g v, v.Inside → v.order = w.order →
      Carries v (Field.writeAll 0 g fields v) (Field.dispatchAll w.order 0 g fields v.nesting.view) := by
    intro g v hv ho
    rw [← ho]
    exact carries_fields h 0 g hv
  have hhead : w.nesting.view.headerWritten = w.headerWritten := w.nesting.headerWritten_view
  rw [Message.write_mk, Message.dispatch]
  simp only [hhead]
  split
  · have he : ∀ d : Dispatch (Grant × List Field), d.behind .nothing false = d := by simp [Dispatch.behind]
    rw [he]
    exact ((hpass _ w hw rfl).rounds hpass _).map _
  · cases spend pauses.head? with
    | none => exact .stay hw _ _
    | some grant =>
      have hh := carries_header kind.type hw
      by_cases hs : (header kind.type w).result = .ok true
      · have hv := hpass grant _ hh.keeps.inside hh.keeps.order
        simp only [Sent.bind, hs]
        exact ((hh.behind hs (e := Field.dispatchAll w.order 0 grant fields) hv).rounds hpass _).map _
      · dsimp only
        rw [Sent.bind_of_ne hs]
        refine (hh.map fun _ => Message.mk kind fields pauses.tail).stopped hs (fun h => absurd rfl h) ?_
        have hp := Dispatch.peak_le_rounds fields.length (Field.dispatchAll w.order 0 · fields) grant.rounds
          ((Field.dispatchAll w.order 0 grant fields w.nesting.view.markHeader).behind
            ((Layout.fixed w.order kind.type .done).output w.order) false)
        exact Nat.le_trans (Nat.le_max_left ..) hp

theorem carries_plain {f : Field} (h : f.isPlain = true) {w : Writer} (hw : w.Inside) :
    Carries w (f.write w) (f.dispatch w.order w.nesting.view) := by
  cases f with
  | data d => exact .ofLayout (lays_writeDatum d) hw _
  | absent t => exact .ofLayout (lays_writeAbsent t) hw _
  | fixedInt v => exact .ofLayout (Lays.fixed v Lays.done).alone hw _
  | fixedLong v => exact .ofLayout (Lays.fixed v Lays.done).alone hw _
  | range bs offset len => exact .ofLayout (lays_writeByteArrayPart bs offset len) hw _
  | raw bs => exact .ofLayout (Lays.put (Nat.le_refl _) Lays.done).alone hw _
  | object shape p => exact .ofLayout (l := fun _ => .object p.emission) (fun _ => rfl) hw _
  | nothing => exact .ofLayout (Lays.fixed nullLength Lays.done).alone hw _
  | message m =>
    cases m with
    | none => exact .ofLayout (Lays.fixed nullMessageType Lays.done).alone hw _
    | some m => cases h
  | note n => exact .stay hw _ _
  | advance => exact .onNesting hw _ w.nesting.view_increment (keeps_increment hw)
  | markHeader => exact .onNesting hw _ w.nesting.view_markHeader (keeps_markHeader hw)
  | stall => exact .stay hw _ _
  | fail e => exact .stay hw _ _
  | _ => cases h

theorem carries_values {vs : List Value}
    (h : ∀ v ∈ vs, ∀ t, ∀ w : Writer, w.Inside → Carries w (sent () (v.write t) w) (v.dispatch w.order t w.nesting.view))
    (t : ItemType) {w : Writer} (hw : w.Inside) :
    Carries w (sent () (Value.writeAll t vs) w) (Value.dispatchAll w.order t vs w.nesting.view) := by
  induction vs generalizing w with
  | nil => exact .stay hw _ _
  | cons v vs ih =>
    rw [Value.writeAll, Value.dispatchAll, sent_bind]
    apply (h v List.mem_cons_self t w hw).bind
    intro _ u hu ho
    rw [← ho]
    exact ih (fun v hv => h v (List.mem_cons_of_mem _ hv)) hu

theorem carries_entries {es : List (Value × Value)}
    (h : ∀ e ∈ es, (∀ t, ∀ w : Writer, w.Inside →
        Carries w (sent () (e.1.write t) w) (e.1.dispatch w.order t w.nesting.view)) ∧
      ∀ t, ∀ w : Writer, w.Inside → Carries w (sent () (e.2.write t) w) (e.2.dispatch w.order t w.nesting.view))
    (kt vt : ItemType) {w : Writer} (hw : w.Inside) :
    Carries w (sent () (Value.writeEntries kt vt es) w) (Value.dispatchEntries w.order kt vt es w.nesting.view) := by
  induction es generalizing w with
  | nil => exact .stay hw _ _
  | cons e es ih =>
    obtain ⟨k, v⟩ := e
    obtain ⟨hk, hv⟩ := h (k, v) List.mem_cons_self
    rw [Value.writeEntries, Value.dispatchEntries, sent_bind]
    apply (hk kt w hw).bind
    intro _ u hu ho
    rw [sent_bind, ← ho]
    apply (hv vt u hu).bind
    intro _ u' hu' ho'
    rw [← ho']
    exact ih (fun e he => h e (List.mem_cons_of_mem _ he)) hu'

theorem carries_step :
    Tree.Step (fun m => ∀ w : Writer, w.Inside → Carries w (m.write w) (m.dispatch w.order w.nesting.view))
      (fun f => ∀ w : Writer, w.Inside → Carries w (f.write w) (f.dispatch w.order w.nesting.view))
      fun v => ∀ t, ∀ w : Writer, w.Inside → Carries w (sent () (v.write t) w) (v.dispatch w.order t w.nesting.view) where
  message kind fields pauses h w hw := carries_message kind pauses h hw
  plain f hf w hw := carries_plain hf hw
  item t v h w hw := by
    rw [Field.write_item, Field.dispatch]
    exact (h t w hw).map _
  items way t vs h w hw := by
    rw [Field.write_items, Field.dispatch]
    refine ((Carries.ofLayout (lays_writeCount way t vs.length) hw ()).bind fun _ v hv ho => ?_).map _
    rw [← ho]
    exact carries_values h t hv
  map kt vt linked es h w hw := by
    rw [Field.write_map, Field.dispatch]
    refine ((Carries.ofLayout (Lays.count es.length Lays.done).alone hw ()).bind fun _ v hv ho => ?_).map _
    rw [← ho]
    exact carries_entries h kt vt hv
  nested m h w hw := by
    have hi : (enter w).Inside := hw
    have key := h (enter w) hi
    have hv : (enter w).nesting.view = w.nesting.view.forward := w.nesting.view_forward
    rw [hv] at key
    rw [Field.write, Field.dispatch]
    exact key.leave.map fun m => Field.message (some m)
  root m h w hw := by
    rw [Field.write, Field.dispatch]
    exact (h w hw).settle.ended (Field.root m)
  null t w hw := by
    rw [Value.write, Value.dispatch]
    refine Carries.ofLayout (l := fun o => if t.isNullable then t.absentLayout o else .refuse _) ?_ hw ()
    split
    · exact lays_writeAbsent t
    · exact fun _ => rfl
  data d t w hw := by
    rw [Value.write, Value.dispatch]
    refine Carries.ofLayout (l := fun o => if d.itemType = t then d.layout o else .refuse _) ?_ hw ()
    split
    · exact lays_writeDatum d
    · exact fun _ => rfl
  inner m h t w hw := by
    have hi : (enter w).Inside := hw
    have key := h (enter w) hi
    have hv : (enter w).nesting.view = w.nesting.view.forward := w.nesting.view_forward
    rw [hv] at key
    rw [Value.dispatch]
    by_cases ht : t = .message
    · rw [if_pos ht, Value.write_message ht]
      exact key.leave.whole m.type
    · rw [if_neg ht, Value.write_message_ne ht]
      exact Carries.ofLayout (l := fun _ => .refuse _) (fun _ => rfl) hw ()

end Writer

/-- **A call on a message comes to what its dispatch says**, as far as there is room. -/
theorem Message.carries (m : Message) {w : Writer} (hw : w.Inside) :
    Carries w (m.write w) (m.dispatch w.order w.nesting.view) :=
  carries_step.all.1 m w hw

theorem Field.carries (f : Field) {w : Writer} (hw : w.Inside) :
    Carries w (f.write w) (f.dispatch w.order w.nesting.view) :=
  carries_step.all.2.1 f w hw

theorem Value.carries (v : Value) (t : ItemType) {w : Writer} (hw : w.Inside) :
    Carries w (sent () (v.write t) w) (v.dispatch w.order t w.nesting.view) :=
  carries_step.all.2.2 v t w hw

theorem Writer.carries_writeRoot (m : Message) {w : Writer} (hw : w.Inside) :
    Carries w (w.writeRoot m) (.root w.order m w.nesting.view) :=
  (m.carries hw).settle

namespace Writer

variable {α : Type} {w : Writer} {s : Sent α} {d : Dispatch α}

/-- a refusal marks the session failed, if the dispatch marks it -/
theorem Carries.marks (h : Carries w s d) (hd : d.Marked) {e : WireError} (he : s.result = .error (.error e)) :
    s.writer.failed = true := by
  by_cases hf : w.Fits d.out.peak
  · have t := h.tells hf
    rw [t.failed, hd e (t.result.symm.trans he), Bool.or_true]
  · exact (h.crowded hf).2

/-- a call that is not refused leaves the mark as it was -/
theorem Carries.calm (h : Carries w s d) (hd : d.Sound w.nesting.view) {b : Bool} (hb : s.result = .ok b) :
    s.writer.failed = w.failed := by
  have t := h.tells_of_ok hb
  rw [t.failed, hd.calm b (t.result.symm.trans hb), Bool.or_false]

end Writer

theorem Field.write_marks {f : Field} (hf : ∀ e, f ≠ .fail e) {w : Writer} (hw : w.Inside) {e : WireError}
    (he : (f.write w).result = .error (.error e)) : (f.write w).writer.failed = true :=
  (f.carries hw).marks (marked_field w.order hf w.nesting.view) he

theorem Writer.writeRoot_marks (m : Message) {w : Writer} (hw : w.Inside) {e : WireError}
    (he : (w.writeRoot m).result = .error (.error e)) : (w.writeRoot m).writer.failed = true :=
  (carries_writeRoot m hw).marks (Dispatch.Marked.settle _) he

theorem Writer.writeMessage_marks (m : Message) {w : Writer} (hw : w.Inside) {e : WireError}
    (he : (w.writeMessage m).result = .error (.error e)) : (w.writeMessage m).writer.failed = true := by
  have hi : (enter w).Inside := hw
  exact (m.carries hi).leave.marks (Dispatch.Marked.leave _) he

end Courier
