import Courier.Proofs.Session
import Courier.Turn

/-!
A refused write is not forgotten.

Whatever refuses a write marks its session failed, and nothing takes the mark back. That holds of the acts of a session
and of the messages of fields, which pass every refusal on; it holds as well where a message answers a refusal inside it
by success. `WriteCode.Refused` says of a code that some write of it is refused, at whatever depth and whatever becomes
of the refusal.

`WriteCode.keeps`: no code undoes what was there before, be it brought to a stop.
`WriteCode.failed_of_refused`, `Desk.failed_of_refuses`: a session in which a write was refused has failed.
-/

namespace Courier

open Writer

namespace Writer

variable {α : Type}

theorem keeps_act (l : Layout) {w : Writer} (hw : w.Inside) : Keeps w (sent () l.run w).writer := by
  have h := l.goes hw
  unfold sent
  generalize l.run w = x at h
  generalize l.result = res at h
  rcases h with ⟨_, keeps⟩ | ⟨_, keeps⟩ | ⟨_, keeps⟩ <;> exact keeps

theorem Keeps.onto {w : Writer} {s : Sent α} (h : Keeps w s.writer) {next : Except WireError Bool → Writer → Sent Unit}
    (hn : ∀ r, Keeps s.writer (next r s.writer).writer) : Keeps w (s.onto next).writer := by
  unfold Sent.onto
  rcases s.result with (e | _) | b
  · exact h.trans (hn _)
  · exact h
  · exact h.trans (hn _)

end Writer

/-- **No code undoes what was there before it.** -/
theorem WriteCode.keeps (c : WriteCode) {w : Writer} (hw : w.Inside) : Keeps w (c.run w).writer := by
  induction c generalizing w with
  | finish r => exact .refl hw
  | act l next ih =>
    have h := keeps_act l hw
    exact h.onto fun r => ih r _ h.inside
  | field f next ih =>
    have h := (f.carries hw).keeps
    exact h.onto fun r => ih r _ h.inside
  | nested body next ihb ih =>
    have h : Keeps w _ := Keeps.leave (ihb (w := enter w) hw)
    exact h.onto fun r => ih r _ h.inside
  | root body next ihb ih =>
    have h : Keeps w _ := Keeps.settle (ihb hw)
    exact h.onto fun r => ih r _ h.inside

/-! ## Codes -/

/-- a call that is refused -/
def Sent.Refused {α : Type} (s : Sent α) : Prop :=
  ∃ e, s.result = .error (.error e)

/-- a call that is gone on from, to where `P` holds -/
def Sent.Reaches {α : Type} (s : Sent α) (P : Except WireError Bool → Writer → Prop) : Prop :=
  ∃ r, s.told = some r ∧ P r s.writer

/-- some write of the code is refused, at whatever depth; to refuse without a call on a message is no write -/
def WriteCode.Refused : WriteCode → Writer → Prop
  | .finish _, _ => False
  | .act l next, w =>
    (sent () l.run w).Refused ∨ (sent () l.run w).Reaches fun r v => (next r v).Refused v
  | .field f next, w =>
    ((∀ e, f ≠ .fail e) ∧ (f.write w).Refused) ∨ (f.write w).Reaches fun r v => (next r v).Refused v
  | .nested body next, w =>
    body.Refused (enter w) ∨ (leave (body.run (enter w))).Refused ∨
      (leave (body.run (enter w))).Reaches fun r v => (next r v).Refused v
  | .root body next, w =>
    body.Refused w ∨ (settle (body.run w)).Refused ∨ (settle (body.run w)).Reaches fun r v => (next r v).Refused v

namespace Writer

variable {α : Type}

theorem marks_act (l : Layout) {w : Writer} (hw : w.Inside) (h : (sent () l.run w).Refused) :
    (sent () l.run w).writer.failed = true := by
  obtain ⟨e, he⟩ := h
  have hgoes := l.goes hw
  unfold sent at he ⊢
  generalize l.run w = x at hgoes he
  generalize l.result = res at hgoes
  rcases hgoes with - | ⟨-, -, -, failed⟩ | ⟨-, -, -, failed⟩
  · cases he
  · exact failed
  · exact failed

theorem marks_leave {s : Sent α} (hd : s.writer.depth ≠ 0) (h : (leave s).Refused) : (leave s).writer.failed = true := by
  obtain ⟨e, he⟩ := h
  rw [leave_eq hd] at he ⊢
  rcases hr : s.result with (e' | _) | b <;> rw [hr] at he <;> first | rfl | cases he

theorem marks_settle {s : Sent α} (h : (settle s).Refused) : (settle s).writer.failed = true := by
  obtain ⟨result, w, left⟩ := s
  obtain ⟨e, he⟩ := h
  rcases result with (e' | _) | (_ | _)
  · rfl
  · cases he
  · cases he
  · unfold settle at he
    dsimp only at he
    split at he <;> cases he

/-- the ends of calls leave a mark that is set -/
theorem failed_ends {s : Sent α} (h : s.writer.failed = true) :
    (leave s).writer.failed = true ∧ (settle s).writer.failed = true := by
  obtain ⟨result, w, left⟩ := s
  constructor
  · unfold leave
    rcases result with (e | _) | b <;> dsimp only <;> split <;> first | exact h | rfl
  · rcases result with (e | _) | (_ | _)
    · rfl
    · exact h
    · exact h
    · unfold settle
      dsimp only
      split <;> exact h

/-- a mark that is set stays set behind a call that is gone on from -/
theorem failed_onto {s : Sent α} {next : Except WireError Bool → Writer → Sent Unit} (hf : s.writer.failed = true)
    (hn : ∀ r, Keeps s.writer (next r s.writer).writer) : (s.onto next).writer.failed = true := by
  unfold Sent.onto
  rcases s.result with (e | _) | b
  · exact (hn _).failed hf
  · exact hf
  · exact (hn _).failed hf

theorem failed_of_reaches {s : Sent α} {next : Except WireError Bool → Writer → Sent Unit}
    {P : Except WireError Bool → Writer → Prop} (h : s.Reaches P)
    (hn : ∀ r, P r s.writer → (next r s.writer).writer.failed = true) : (s.onto next).writer.failed = true := by
  obtain ⟨r, hr, h⟩ := h
  have honto : s.onto next = next r s.writer := by
    unfold Sent.told at hr
    unfold Sent.onto
    rcases hx : s.result with (e | _) | b <;> rw [hx] at hr <;> cases hr <;> rfl
  rw [honto]
  exact hn r h

end Writer

/-- **A code in which a write is refused leaves its session failed**, whatever it makes of the refusal. -/
theorem WriteCode.failed_of_refused {c : WriteCode} {w : Writer} (hw : w.Inside) (h : c.Refused w) :
    (c.run w).writer.failed = true := by
  induction c generalizing w with
  | finish r => exact h.elim
  | act l next ih =>
    have hk := keeps_act l hw
    rcases h with h | h
    · exact failed_onto (marks_act l hw h) fun r => (next r _).keeps hk.inside
    · exact failed_of_reaches h fun r => ih r _ hk.inside
  | field f next ih =>
    have hk := (f.carries hw).keeps
    rcases h with ⟨hf, e, he⟩ | h
    · exact failed_onto (f.write_marks hf hw he) fun r => (next r _).keeps hk.inside
    · exact failed_of_reaches h fun r => ih r _ hk.inside
  | nested body next ihb ih =>
    have hin : (enter w).Inside := hw
    have hbody := body.keeps hin
    have hk : Keeps w _ := Keeps.leave hbody
    have hd : (body.run (enter w)).writer.depth ≠ 0 := by
      rw [hbody.depth, show (enter w).depth = w.depth + 1 from w.nesting.depth_forward]
      exact Nat.succ_ne_zero _
    rcases h with h | h | h
    · exact failed_onto (failed_ends (ihb hin h)).1 fun r => (next r _).keeps hk.inside
    · exact failed_onto (marks_leave hd h) fun r => (next r _).keeps hk.inside
    · exact failed_of_reaches h fun r => ih r _ hk.inside
  | root body next ihb ih =>
    have hk : Keeps w _ := Keeps.settle (body.keeps hw)
    rcases h with h | h | h
    · exact failed_onto (failed_ends (ihb hw h)).2 fun r => (next r _).keeps hk.inside
    · exact failed_onto (marks_settle h) fun r => (next r _).keeps hk.inside
    · exact failed_of_reaches h fun r => ih r _ hk.inside

/-! ## Acts -/

/-- whether an act writes: to refuse without a call on a message is no write -/
def WriteAct.writes : WriteAct → Bool
  | .op (.field (.fail _)) => false
  | _ => true

def WriteReply.isError : WriteReply → Bool
  | .error _ => true
  | _ => false

/-- whether one of the writes of a session was refused -/
def Answer.refuses (acts : List WriteAct) : Answer → Bool
  | .written ws _ _ _ => (acts.zip ws).any fun p => p.1.writes && p.2.reply.isError
  | _ => false

namespace Desk

/-- only a refused call is answered by a refusal -/
theorem result_of_isError {answer : Except Fault Bool → Option WriteReply}
    (ha : answer = WriteReply.ofCall ∨ answer = WriteReply.ofAct) {r : Except Fault Bool} {reply : WriteReply}
    (hr : answer r = some reply) (he : reply.isError = true) : ∃ e, r = .error (.error e) := by
  rcases ha with rfl | rfl <;> rcases r with (e | _) | b <;> cases hr <;> first | exact ⟨e, rfl⟩ | cases he

/-- a refused call, if it marks the session -/
theorem failed_of_call {answer : Except Fault Bool → Option WriteReply}
    (ha : answer = WriteReply.ofCall ∨ answer = WriteReply.ofAct) {r : Except Fault Bool} {v u : Writer}
    {drafts later : List (String × Message)} {reply : WriteReply} (h : (answer r, v, drafts) = (some reply, u, later))
    (he : reply.isError = true) (hm : ∀ e, r = .error (.error e) → v.failed = true) : u.failed = true := by
  obtain ⟨hr, h⟩ := Prod.mk.inj h
  obtain ⟨rfl, -⟩ := Prod.mk.inj h
  obtain ⟨e, hr⟩ := result_of_isError ha hr he
  exact hm e hr

theorem writeAct_marks {w u : Writer} (hw : w.Inside) {drafts later : List (String × Message)} {a : WriteAct}
    {reply : WriteReply} (h : writeAct w drafts a = (some reply, u, later)) (ha : a.writes = true)
    (he : reply.isError = true) : u.failed = true := by
  cases a with
  | op op =>
    cases op with
    | debug =>
      obtain ⟨hr, -⟩ := Prod.mk.inj h
      cases hr
      cases he
    | root m => exact failed_of_call (.inl rfl) h he fun e => writeRoot_marks m hw
    | field f =>
      obtain ⟨answer, hanswer, hrun⟩ := run_field_eq f
      simp only [writeAct, hrun] at h
      have hf : ∀ e, f ≠ .fail e := by
        rintro e rfl
        cases ha
      exact failed_of_call hanswer h he fun e => Field.write_marks hf hw
  | rootDraft name =>
    simp only [writeAct] at h
    cases hm : lookUp drafts name with
    | none => simp [hm] at h
    | some m =>
      simp only [hm] at h
      exact failed_of_call (.inl rfl) h he fun e => writeRoot_marks m hw
  | messageDraft name =>
    simp only [writeAct] at h
    cases hm : lookUp drafts name with
    | none => simp [hm] at h
    | some m =>
      simp only [hm] at h
      exact failed_of_call (.inl rfl) h he fun e => writeMessage_marks m hw

/-- **A session one of whose acts was refused has failed**, whatever its later acts come to. -/
theorem failed_of_refuses {acts : List WriteAct} {w v : Writer} {drafts later : List (String × Message)}
    {ws : List Written} (hw : w.Inside) (h : writeActs w drafts acts = some (ws, v, later))
    (he : (acts.zip ws).any (fun p => p.1.writes && p.2.reply.isError) = true) : v.failed = true := by
  induction acts generalizing w drafts ws with
  | nil => cases he
  | cons a acts ih =>
    obtain ⟨reply, u, between, rest, ha, hrest, rfl⟩ := writeActs_cons_eq_some h
    have hk : Keeps w u := by
      have := writeAct_keeps a drafts hw
      rwa [ha] at this
    simp only [List.zip_cons_cons, List.any_cons, Bool.or_eq_true, Bool.and_eq_true] at he
    rcases he with ⟨hwr, he⟩ | he
    · exact (writeActs_keeps hk.inside hrest).failed (writeAct_marks hw ha hwr he)
    · exact ih hk.inside hrest he

end Desk

end Courier
