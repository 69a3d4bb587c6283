import Courier.Proofs.Parallel

/-!
A write session does not notice how large its buffer is.

`Writer.ample` gives a session all the room it may ever ask for. A call on the session so enlarged comes to what it
comes to on the session itself, and leaves that session, enlarged in the same way: growing puts zeros behind what a
buffer holds and does nothing else, so it makes no difference when that is done. This speaks of refused calls too, and
of every byte of the buffer, those included that a refused call has skipped and never filled in.

`Layout.run_ample`: the acts that touch no level.
`Message.write_ample`, `Field.write_ample`: the calls.
-/

namespace Courier

namespace Scratch

/-- what lies within a block is written over alike before and after it grows -/
theorem enlarge_overwrite (s : Scratch) {off : Nat} {src : Bytes} (h : off + src.length ≤ s.capacity) (n : Nat) :
    (s.overwrite off src).enlarge n = (s.enlarge n).overwrite off src := by
  have hmin : min (off + src.length) (max s.capacity n) = min (off + src.length) s.capacity := by omega
  simp only [enlarge, overwrite, hmin]

/-- growing in two steps is growing in one -/
theorem enlarge_enlarge (s : Scratch) {m n : Nat} (h : m ≤ n) : (s.enlarge m).enlarge n = s.enlarge n := by
  have hmax : max (max s.capacity m) n = max s.capacity n := by omega
  simp only [enlarge, hmax]

end Scratch

namespace Writer

variable {α β : Type}

/-- the session with all the room it may ever ask for -/
def ample (w : Writer) : Writer :=
  { w with scratch := w.scratch.enlarge maxBufferSize }

@[simp] theorem position_ample (w : Writer) : w.ample.position = w.position := rfl

@[simp] theorem order_ample (w : Writer) : w.ample.order = w.order := rfl

@[simp] theorem nesting_ample (w : Writer) : w.ample.nesting = w.nesting := rfl

@[simp] theorem capacity_ample (w : Writer) : w.ample.capacity = max w.capacity maxBufferSize := rfl

theorem fits_ample (w : Writer) (n : Nat) : w.ample.Fits n ↔ w.Fits n := by
  simp only [Fits, position_ample, capacity_ample]
  omega

theorem written_ample {w : Writer} (h : w.Inside) : w.ample.written = w.written :=
  w.scratch.take_enlarge _ h

/-- growing is what `ample` has done already -/
theorem grow_ample {w : Writer} {n : Nat} (h : w.Fits n) : w.ample.grow n = w.ample :=
  if_pos h

theorem ample_grow (w : Writer) (n : Nat) : (w.grow n).ample = w.ample := by
  unfold grow
  split
  · rfl
  · simp only [ample, Scratch.enlarge_enlarge _ (Nat.min_le_right ..)]

theorem ample_append {w : Writer} {bs : Bytes} (h : w.position + bs.length ≤ w.capacity) :
    (w.append bs).ample = w.ample.append bs := by
  simp only [ample, append, w.scratch.enlarge_overwrite h]
  rfl

/-! ## Acts -/

/-- the end of an act, the session enlarged -/
def ampleEnd : EStateM.Result Fault Writer α → EStateM.Result Fault Writer α
  | .ok a w => .ok a w.ample
  | .error f w => .error f w.ample

theorem reserve_ample (n : Nat) (w : Writer) : reserve n w.ample = ampleEnd (reserve n w) := by
  rw [reserve_eq, reserve_eq]
  by_cases hf : w.Fits n
  · rw [if_pos hf, if_pos ((w.fits_ample n).2 hf), grow_ample hf, ampleEnd, ample_grow]
    rfl
  · rw [if_neg hf, if_neg fun h => hf ((w.fits_ample n).1 h)]
    rfl

theorem put_ample {room : Nat} {bs : Bytes} (hb : bs.length ≤ room) (w : Writer) :
    put room bs w.ample = ampleEnd (put room bs w) := by
  rw [put_eq _ hb, put_eq _ hb]
  by_cases hf : w.Fits room
  · have hroom := le_capacity_grow hf
    rw [← w.position_grow room] at hroom
    rw [if_pos hf, if_pos ((w.fits_ample room).2 hf), grow_ample hf, ampleEnd, ample_append (by omega), ample_grow]
  · rw [if_neg hf, if_neg fun h => hf ((w.fits_ample room).1 h)]
    rfl

/-- acts in a row -/
theorem bind_ample {act : Writing α} {next : α → Writing β} {w : Writer} (h : act w.ample = ampleEnd (act w))
    (hn : ∀ a v, next a v.ample = ampleEnd (next a v)) :
    (act >>= next) w.ample = ampleEnd ((act >>= next) w) := by
  rw [bind_eq, bind_eq, h]
  cases act w with
  | ok a v => exact hn a v
  | error f v => rfl

theorem putPieces_ample (ps : List Bytes) (w : Writer) : putPieces ps w.ample = ampleEnd (putPieces ps w) := by
  induction ps generalizing w with
  | nil => rfl
  | cons p ps ih => exact bind_ample (put_ample (Nat.le_refl _) w) fun _ => ih

/-- the size goes to a place that lies within the buffer as it is -/
theorem fillSize_ample {start : Nat} {w : Writer} (h : start + lengthPrefixSize ≤ w.capacity) :
    fillSize start w.ample = ampleEnd (fillSize start w) := by
  rw [fillSize, fillSize, position_ample, order_ample]
  cases encodeLength (w.position - start - lengthPrefixSize) with
  | error e => rfl
  | ok size =>
    have hl : start + (Fixed.bytes w.order.swap size).length ≤ w.capacity := by rwa [Fixed.length_bytes]
    have hl' : start + (Fixed.bytes w.order.swap size).length ≤ w.ample.capacity := Nat.le_trans hl (Nat.le_max_left ..)
    simp only [splice, if_pos hl, if_pos hl', ampleEnd]
    simp only [ample, w.scratch.enlarge_overwrite hl]

theorem writeEmission_ample (e : Emission) (w : Writer) :
    writeEmission e w.ample = ampleEnd (writeEmission e w) := by
  rw [writeEmission_eq, writeEmission_eq, reserve_ample, reserve_eq]
  by_cases hf : w.Fits lengthPrefixSize
  · have hroom : (w.grow lengthPrefixSize).position + lengthPrefixSize ≤ (w.grow lengthPrefixSize).capacity := by
      rw [position_grow]
      exact le_capacity_grow hf
    have hstart := w.position_grow lengthPrefixSize
    rw [if_pos hf]
    dsimp only [ampleEnd]
    generalize w.grow lengthPrefixSize = u at hroom hstart
    -- the place of the size is behind the session now, so it stays within whatever the pieces do
    have hk := goes_putPieces e.pieces (keeps_advance hroom).inside
    have hp : ∀ v, v = u.ample →
        putPieces e.pieces { v with frame := v.frame.setPosition (v.position + lengthPrefixSize) } =
          ampleEnd (putPieces e.pieces { u with frame := u.frame.setPosition (u.position + lengthPrefixSize) }) := by
      rintro _ rfl
      exact putPieces_ample e.pieces { u with frame := u.frame.setPosition (u.position + lengthPrefixSize) }
    rw [hp _ rfl]
    generalize putPieces e.pieces _ = r at hk
    cases hk with
    | done _ keeps =>
      cases e.complete with
      | false => rfl
      | true => exact fillSize_ample (hstart ▸ Nat.le_trans hroom keeps.capacity_le)
    | crowded => rfl
  · rw [if_neg hf]
    rfl

theorem Layout.run_ample (l : Layout) (w : Writer) : l.run w.ample = ampleEnd (l.run w) := by
  induction l generalizing w with
  | done | refuse => rfl
  | reserve room next ih => exact bind_ample (reserve_ample room w) fun _ => ih
  | put room bs fits next ih => exact bind_ample (put_ample fits w) fun _ => ih
  | object e => exact writeEmission_ample e w

end Writer

/-! ## Calls -/

/-- what a call comes to, the session enlarged -/
def Sent.ample {α : Type} (s : Sent α) : Sent α :=
  { s with writer := s.writer.ample }

namespace Writer

theorem parallel_ample : Parallel fun w v => v = w.ample where
  order := by
    rintro w _ rfl
    rfl
  levels := by
    rintro w _ rfl
    rfl
  layout l := by
    rintro w _ rfl
    rw [sent, sent, Layout.run_ample l w]
    cases l.run w with
    | ok => exact ⟨rfl, rfl, rfl⟩
    | error => exact ⟨rfl, rfl, rfl⟩
  mark := by
    rintro w _ rfl
    rfl
  onNesting := by
    rintro w _ rfl f g _
    rfl

theorem Abreast.eq_ample {α : Type} {s t : Sent α} (h : Abreast (fun w v => v = w.ample) s t) : t = s.ample := by
  obtain ⟨result, v, left⟩ := t
  obtain ⟨rfl, rfl, rfl⟩ := h
  rfl

end Writer

/-- **A call on a message does not notice how large the buffer is.** -/
theorem Message.write_ample (m : Message) (w : Writer) : m.write w.ample = (m.write w).ample :=
  (Writer.parallel_ample.tandem.message m rfl).eq_ample

theorem Field.write_ample (f : Field) (w : Writer) : f.write w.ample = (f.write w).ample :=
  (Writer.parallel_ample.tandem.field f rfl).eq_ample

end Courier
