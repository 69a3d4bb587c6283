import Courier.Proofs.Levels
import Courier.Writer

/-!
What a write session does to its buffer.

Everything a session writes goes through `put`: room is made, the bytes are written at the position, the position moves
behind them. `written` is what stands in front of the position. Room can be made as long as `Fits` holds, that is up to
`maxBufferSize`, or up to the capacity where that is larger.

`reserve_eq`, `put_eq`: making room and putting bytes succeed exactly where they fit, and are refused elsewhere.
`Keeps`: what no act of a session can undo. It is reflexive and transitive, and the acts keep it one by one.
-/

namespace Courier

theorem le_powerOfTwoFrom (n : Nat) : n ≤ powerOfTwoFrom n := by
  unfold powerOfTwoFrom
  split
  · assumption
  · have h := Nat.lt_log2_self (n := n - 1)
    rw [Nat.one_shiftLeft]
    omega

namespace Scratch

theorem bytes_overwrite_eq (s : Scratch) {off : Nat} {src : Bytes} (h : off + src.length ≤ s.capacity) :
    (s.overwrite off src).bytes = s.bytes.take off ++ src ++ s.bytes.drop (off + src.length) := by
  have hb := s.bytes_overwrite h
  rw [Bytes.overwrite, if_pos (by rwa [length_bytes])] at hb
  exact (Option.some.inj hb).symm

/-- writing over a block leaves what lies in front alone -/
theorem take_overwrite (s : Scratch) {off n : Nat} {src : Bytes} (h : off + src.length ≤ s.capacity) (hn : n ≤ off) :
    (s.overwrite off src).bytes.take n = s.bytes.take n := by
  have hl : (s.bytes.take off).length = off := by
    rw [List.length_take, length_bytes]
    omega
  rw [bytes_overwrite_eq s h, List.append_assoc, List.take_append_of_le_length (by omega), List.take_take,
    Nat.min_eq_left hn]

/-- growing a block leaves what it holds alone -/
theorem take_enlarge (s : Scratch) {n : Nat} (m : Nat) (hn : n ≤ s.capacity) :
    (s.enlarge m).bytes.take n = s.bytes.take n := by
  rw [bytes_enlarge, Bytes.enlarge, List.take_append_of_le_length (by rwa [length_bytes])]

end Scratch

namespace Writer

/-- what has been written so far -/
def written (w : Writer) : Bytes :=
  w.scratch.bytes.take w.position

/-- whether the position lies within the buffer -/
def Inside (w : Writer) : Prop :=
  w.position ≤ w.capacity

/-- whether room for `n` more bytes can be made -/
def Fits (w : Writer) (n : Nat) : Prop :=
  w.position + n ≤ max w.capacity maxBufferSize

instance (w : Writer) (n : Nat) : Decidable (w.Fits n) :=
  inferInstanceAs (Decidable (_ ≤ _))

/-- the session with room for `n` more bytes -/
def grow (w : Writer) (n : Nat) : Writer :=
  if w.position + n ≤ w.capacity then w
  else { w with scratch := w.scratch.enlarge (min (powerOfTwoFrom (w.position + n)) maxBufferSize) }

/-- the session with `bs` written at its position, which moves behind them -/
def append (w : Writer) (bs : Bytes) : Writer :=
  { w with
    scratch := w.scratch.overwrite w.position bs
    frame := w.frame.setPosition (w.position + bs.length) }

/-- the session after a refusal for want of room -/
def crowded (w : Writer) (n : Nat) : EStateM.Result Fault Writer Unit :=
  .error (.error (.capacityOverflow (min (w.position + n) maxSize))) { w with failed := true }

theorem bind_eq {α β : Type} (act : Writing α) (next : α → Writing β) (w : Writer) :
    (act >>= next) w = match act w with
      | .ok a v => next a v
      | .error e v => .error e v := by
  change EStateM.bind act next w = _
  unfold EStateM.bind
  cases act w <;> rfl

theorem get_eq (w : Writer) : (get : Writing Writer) w = .ok w w := rfl

@[simp] theorem position_grow (w : Writer) (n : Nat) : (w.grow n).position = w.position := by
  unfold grow; split <;> rfl

theorem le_capacity_grow {w : Writer} {n : Nat} (h : w.Fits n) : w.position + n ≤ (w.grow n).capacity := by
  unfold grow
  split
  · assumption
  · have := le_powerOfTwoFrom (w.position + n)
    simp only [Fits, capacity, Scratch.enlarge] at *
    omega

theorem capacity_le_grow (w : Writer) (n : Nat) : w.capacity ≤ (w.grow n).capacity := by
  unfold grow
  split
  · exact Nat.le_refl _
  · exact Nat.le_max_left ..

theorem capacity_grow_le (w : Writer) (n : Nat) : (w.grow n).capacity ≤ max w.capacity maxBufferSize := by
  unfold grow
  split
  · exact Nat.le_max_left ..
  · simp only [capacity, Scratch.enlarge]
    omega

theorem written_grow {w : Writer} (h : w.Inside) (n : Nat) : (w.grow n).written = w.written := by
  unfold grow
  split
  · rfl
  · exact w.scratch.take_enlarge _ h

theorem length_written {w : Writer} (h : w.Inside) : w.written.length = w.position := by
  rw [written, List.length_take, Scratch.length_bytes]
  exact Nat.min_eq_left h

theorem written_append {w : Writer} {bs : Bytes} (h : w.position + bs.length ≤ w.capacity) :
    (w.append bs).written = w.written ++ bs := by
  have hl : (w.scratch.bytes.take w.position ++ bs).length = w.position + bs.length := by
    have : w.position ≤ w.capacity := by omega
    rw [List.length_append, List.length_take, Scratch.length_bytes]
    simp only [capacity] at this
    omega
  change ((w.scratch.overwrite w.position bs).bytes.take (w.position + bs.length)) = _
  rw [Scratch.bytes_overwrite_eq _ h, ← hl, List.take_left, written]

theorem reserve_eq (w : Writer) (n : Nat) :
    reserve n w = if w.Fits n then .ok w.position (w.grow n)
      else .error (.error (.capacityOverflow (min (w.position + n) maxSize))) { w with failed := true } := by
  by_cases hc : w.position + n ≤ w.capacity
  · have hf : w.Fits n := Nat.le_trans hc (Nat.le_max_left ..)
    simp [reserve, grow, hc, hf]
  · by_cases hm : w.position + n ≤ maxBufferSize
    · have hf : w.Fits n := Nat.le_trans hm (Nat.le_max_right ..)
      simp [reserve, grow, hc, hf, capacityFor, hm]
    · have hf : ¬ w.Fits n := by
        unfold Fits
        omega
      simp [reserve, hc, hf, capacityFor, hm, refuse]

theorem put_eq (w : Writer) {room : Nat} {bs : Bytes} (h : bs.length ≤ room) :
    put room bs w = if w.Fits room then .ok () ((w.grow room).append bs) else w.crowded room := by
  simp only [put, bind_eq, reserve_eq]
  by_cases hf : w.Fits room
  · have hr : w.position + bs.length ≤ (w.grow room).capacity := Nat.le_trans (by omega) (le_capacity_grow hf)
    rw [if_pos hf, if_pos hf]
    rw [← w.position_grow room] at hr ⊢
    generalize w.grow room = v at hr
    simp only [splice, if_pos hr]
    rfl
  · simp [hf, crowded]

/-! ## What no act can undo -/

/-- `v` comes after `w` in the same session: the frame has only been moved on, the buffer has not shrunk and still
starts with what was written, a refusal is not forgotten, and the levels above the one at hand are as they were -/
structure Keeps (w v : Writer) : Prop where
  frame : v.frame = w.frame.setPosition v.position
  order : v.order = w.order
  position_le : w.position ≤ v.position
  inside : v.Inside
  capacity_le : w.capacity ≤ v.capacity
  capacity_le_max : v.capacity ≤ max w.capacity maxBufferSize
  front : v.scratch.bytes.take w.position = w.written
  failed : w.failed = true → v.failed = true
  depth : v.depth = w.depth
  above : ∀ i < w.depth, v.nesting.level i = w.nesting.level i

namespace Keeps

theorem refl {w : Writer} (h : w.Inside) : Keeps w w :=
  ⟨rfl, rfl, Nat.le_refl _, h, Nat.le_refl _, Nat.le_max_left .., rfl, id, rfl, fun _ _ => rfl⟩

theorem trans {u v w : Writer} (h : Keeps u v) (k : Keeps v w) : Keeps u w where
  frame := by rw [k.frame, h.frame]; rfl
  order := k.order.trans h.order
  position_le := Nat.le_trans h.position_le k.position_le
  inside := k.inside
  capacity_le := Nat.le_trans h.capacity_le k.capacity_le
  capacity_le_max := by
    have := h.capacity_le_max
    have := k.capacity_le_max
    omega
  front := by
    have hp := h.position_le
    rw [← h.front, ← Nat.min_eq_left hp, ← List.take_take, k.front, written, List.take_take, Nat.min_eq_left hp]
  failed := fun hu => k.failed (h.failed hu)
  depth := k.depth.trans h.depth
  above := fun i hi => by rw [k.above i (by rw [h.depth]; exact hi), h.above i hi]

/-- what was written before stays in front -/
theorem written_append {w v : Writer} (h : Keeps w v) : ∃ out, v.written = w.written ++ out := by
  have hfront : v.written.take w.position = w.written := by
    rw [written, List.take_take, Nat.min_eq_left h.position_le, h.front]
  exact ⟨v.written.drop w.position, by rw [← hfront, List.take_append_drop]⟩

/-- the same room can be made before and after -/
theorem fits_iff {w v : Writer} (h : Keeps w v) {n : Nat} : v.Fits n ↔ w.Fits (v.position - w.position + n) := by
  have := h.capacity_le
  have := h.capacity_le_max
  have := h.position_le
  simp only [Fits]
  omega

/-- a change of the levels that spares those above the one at hand -/
theorem onNesting {w v : Writer} (h : Keeps w v) {f : Nesting → Nesting} (hd : (f v.nesting).depth = v.depth)
    (hl : ∀ i < v.depth, (f v.nesting).level i = v.nesting.level i) : Keeps w (v.onNesting f) :=
  h.trans ⟨rfl, rfl, Nat.le_refl _, h.inside, Nat.le_refl _, Nat.le_max_left .., rfl, id, hd, hl⟩

/-- a refusal is marked -/
theorem mark {w v : Writer} (h : Keeps w v) : Keeps w { v with failed := true } :=
  ⟨h.frame, h.order, h.position_le, h.inside, h.capacity_le, h.capacity_le_max, h.front, fun _ => rfl, h.depth,
    h.above⟩

end Keeps

theorem nesting_grow (w : Writer) (n : Nat) : (w.grow n).nesting = w.nesting := by
  unfold grow; split <;> rfl

theorem failed_grow (w : Writer) (n : Nat) : (w.grow n).failed = w.failed := by
  unfold grow; split <;> rfl

theorem keeps_grow {w : Writer} (h : w.Inside) (n : Nat) : Keeps w (w.grow n) where
  frame := by unfold grow; split <;> rfl
  order := by unfold grow; split <;> rfl
  position_le := by rw [position_grow]
  inside := by
    unfold Inside
    rw [position_grow]
    exact Nat.le_trans h (w.capacity_le_grow n)
  capacity_le := w.capacity_le_grow n
  capacity_le_max := w.capacity_grow_le n
  front := by
    have := written_grow h n
    rwa [written, position_grow] at this
  failed := by rw [failed_grow]; exact id
  depth := by rw [depth, nesting_grow]; rfl
  above := by rw [nesting_grow]; exact fun _ _ => rfl

theorem keeps_append {w : Writer} {bs : Bytes} (h : w.position + bs.length ≤ w.capacity) : Keeps w (w.append bs) where
  frame := rfl
  order := rfl
  position_le := Nat.le_add_right ..
  inside := h
  capacity_le := Nat.le_refl _
  capacity_le_max := Nat.le_max_left ..
  front := w.scratch.take_overwrite h (Nat.le_refl _)
  failed := id
  depth := rfl
  above := fun _ _ => rfl

end Writer

end Courier
