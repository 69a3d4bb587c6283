import Courier.Proofs.Parallel

/-!
Write sessions that keep pace with one another.

Two sessions keep pace if they stand at the same position of the same levels and can make the same room. What lies in
their buffers may differ, and so may the order in which their numbers travel: acts that ask for the same room and put as
many bytes there come to the same in both, whether they succeed or not, and the sessions keep pace behind them. How the
capacities of the two compare is left open, as long as growing keeps it so: `Sized` says what that takes, and equal
capacities are one case.

`Pace.layout`: the acts that touch no level.
`tandem_pace`: so calls keep sessions at pace.
-/

namespace Courier

namespace Writer

variable {α β : Type}

/-- a capacity once there is room for `n` bytes from the start on -/
def grown (n c : Nat) : Nat :=
  if n ≤ c then c else max c (min (powerOfTwoFrom n) maxBufferSize)

theorem capacity_grow (w : Writer) (n : Nat) : (w.grow n).capacity = grown (w.position + n) w.capacity := by
  unfold grow grown
  split <;> rfl

/-- a way in which capacities compare that growing keeps, and under which the same room can be made -/
structure Sized (C : Nat → Nat → Prop) : Prop where
  room : ∀ {c d}, C c d → max c maxBufferSize = max d maxBufferSize
  grow : ∀ {c d}, C c d → ∀ n, C (grown n c) (grown n d)

theorem sized_eq : Sized (· = ·) where
  room := by
    rintro c _ rfl
    rfl
  grow := by
    rintro c _ rfl n
    rfl

/-- capacities under which the same room can be made, and nothing else -/
def Roomy (c d : Nat) : Prop :=
  max c maxBufferSize = max d maxBufferSize

theorem sized_roomy : Sized Roomy where
  room h := h
  grow := by
    intro c d h n
    unfold Roomy grown at *
    split <;> split <;> omega

structure Pace (C : Nat → Nat → Prop) (w v : Writer) : Prop where
  position : w.position = v.position
  failed : w.failed = v.failed
  levels : w.nesting.view = v.nesting.view
  capacity : C w.capacity v.capacity
  left_inside : w.Inside
  right_inside : v.Inside

variable {C : Nat → Nat → Prop} {w v : Writer}

namespace Pace

theorem fits_iff (hC : Sized C) (h : Pace C w v) (n : Nat) : w.Fits n ↔ v.Fits n := by
  rw [Fits, Fits, h.position, hC.room h.capacity]

theorem grow (hC : Sized C) (h : Pace C w v) (n : Nat) : Pace C (w.grow n) (v.grow n) where
  position := by rw [position_grow, position_grow, h.position]
  failed := by rw [failed_grow, failed_grow, h.failed]
  levels := by rw [nesting_grow, nesting_grow, h.levels]
  capacity := by
    rw [capacity_grow, capacity_grow, h.position]
    exact hC.grow h.capacity _
  left_inside := (keeps_grow h.left_inside n).inside
  right_inside := (keeps_grow h.right_inside n).inside

/-- as many bytes in the one session as in the other -/
theorem append (h : Pace C w v) {bs cs : Bytes} (hl : bs.length = cs.length)
    (hw : w.position + bs.length ≤ w.capacity) (hv : v.position + cs.length ≤ v.capacity) :
    Pace C (w.append bs) (v.append cs) where
  position := by
    change w.position + bs.length = v.position + cs.length
    rw [h.position, hl]
  failed := h.failed
  levels := h.levels
  capacity := h.capacity
  left_inside := hw
  right_inside := hv

/-- the position moved over bytes that are there already -/
theorem advance (h : Pace C w v) {n : Nat} (hw : w.position + n ≤ w.capacity) (hv : v.position + n ≤ v.capacity) :
    Pace C { w with frame := w.frame.setPosition (w.position + n) }
      { v with frame := v.frame.setPosition (v.position + n) } where
  position := congrArg (· + n) h.position
  failed := h.failed
  levels := h.levels
  capacity := h.capacity
  left_inside := hw
  right_inside := hv

theorem mark (h : Pace C w v) : Pace C { w with failed := true } { v with failed := true } :=
  ⟨h.position, rfl, h.levels, h.capacity, h.left_inside, h.right_inside⟩

/-- an act on the levels that is one on their view -/
theorem onNesting (h : Pace C w v) {f : Nesting → Nesting} {g : Levels → Levels} (hf : ∀ s, (f s).view = g s.view) :
    Pace C (w.onNesting f) (v.onNesting f) :=
  ⟨h.position, h.failed, by change (f _).view = (f _).view; rw [hf, hf, h.levels], h.capacity, h.left_inside,
    h.right_inside⟩

end Pace

/-! ## Acts -/

/-- acts that come to the same and leave related sessions -/
inductive Same (R : Writer → Writer → Prop) : EStateM.Result Fault Writer α → EStateM.Result Fault Writer α → Prop
  | ok (a : α) {w v : Writer} (h : R w v) : Same R (.ok a w) (.ok a v)
  | error (f : Fault) {w v : Writer} (h : R w v) : Same R (.error f w) (.error f v)

namespace Same

variable {R : Writer → Writer → Prop}

theorem bind {act act' : Writing α} {next next' : α → Writing β} (h : Same R (act w) (act' v))
    (hn : ∀ a {w v : Writer}, R w v → Same R (next a w) (next' a v)) :
    Same R ((act >>= next) w) ((act' >>= next') v) := by
  rw [bind_eq, bind_eq]
  generalize act w = r at h
  generalize act' v = s at h
  cases h with
  | ok a h => exact hn a h
  | error f h => exact .error f h

theorem abreast {act act' : Writing Unit} (h : Same R (act w) (act' v)) : Abreast R (sent () act w) (sent () act' v) := by
  unfold Writer.sent
  generalize act w = r at h
  generalize act' v = s at h
  cases h with
  | ok _ h => exact ⟨rfl, rfl, h⟩
  | error f h => exact ⟨rfl, rfl, h⟩

end Same

namespace Pace

theorem refuse (h : Pace C w v) (e : WireError) :
    Same (Pace C) (Writer.refuse (α := α) e w) (Writer.refuse (α := α) e v) :=
  .error _ h.mark

theorem reserve (hC : Sized C) (h : Pace C w v) (n : Nat) : Same (Pace C) (Writer.reserve n w) (Writer.reserve n v) := by
  rw [reserve_eq, reserve_eq, h.position]
  by_cases hf : w.Fits n
  · rw [if_pos hf, if_pos ((h.fits_iff hC n).1 hf)]
    exact .ok _ (h.grow hC n)
  · rw [if_neg hf, if_neg fun hv => hf ((h.fits_iff hC n).2 hv)]
    exact .error _ h.mark

theorem put (hC : Sized C) (h : Pace C w v) {room : Nat} {bs cs : Bytes} (hb : bs.length ≤ room)
    (hl : bs.length = cs.length) : Same (Pace C) (Writer.put room bs w) (Writer.put room cs v) := by
  rw [put_eq w hb, put_eq v (hl ▸ hb)]
  by_cases hf : w.Fits room
  · have hv := (h.fits_iff hC room).1 hf
    rw [if_pos hf, if_pos hv]
    have hcw := le_capacity_grow hf
    have hcv := le_capacity_grow hv
    rw [← w.position_grow room] at hcw
    rw [← v.position_grow room] at hcv
    exact .ok () ((h.grow hC room).append hl (by omega) (by omega))
  · rw [if_neg hf, if_neg fun hv => hf ((h.fits_iff hC room).2 hv), crowded, crowded, h.position]
    exact .error _ h.mark

theorem putPieces (hC : Sized C) (ps : List Bytes) (h : Pace C w v) :
    Same (Pace C) (Writer.putPieces ps w) (Writer.putPieces ps v) := by
  induction ps generalizing w v with
  | nil => exact .ok () h
  | cons p ps ih => exact (h.put hC (Nat.le_refl _) rfl).bind fun _ _ _ h => ih h

/-- the size goes to a place in front of the position -/
theorem fillSize (h : Pace C w v) {start : Nat} (hs : start + lengthPrefixSize ≤ w.position) :
    Same (Pace C) (Writer.fillSize start w) (Writer.fillSize start v) := by
  have hw : w.position ≤ w.capacity := h.left_inside
  have hv : v.position ≤ v.capacity := h.right_inside
  rw [Writer.fillSize, Writer.fillSize, h.position]
  rw [h.position] at hs hw
  cases encodeLength (v.position - start - lengthPrefixSize) with
  | error e => exact h.refuse e
  | ok size =>
    have hl : ∀ o : ByteOrder, (Fixed.bytes o.swap size).length = lengthPrefixSize := fun o => Fixed.length_bytes ..
    simp only [splice, hl]
    rw [if_pos (by omega), if_pos (by omega)]
    exact .ok () ⟨h.position, h.failed, h.levels, h.capacity, h.left_inside, h.right_inside⟩

theorem writeEmission (hC : Sized C) (h : Pace C w v) (e : Emission) :
    Same (Pace C) (Writer.writeEmission e w) (Writer.writeEmission e v) := by
  rw [writeEmission_eq, writeEmission_eq, reserve_eq, reserve_eq, h.position]
  by_cases hf : w.Fits lengthPrefixSize
  · have hv := (h.fits_iff hC lengthPrefixSize).1 hf
    rw [if_pos hf, if_pos hv]
    have hcw := le_capacity_grow hf
    have hcv := le_capacity_grow hv
    have hpos := w.position_grow lengthPrefixSize
    rw [← hpos] at hcw
    rw [← v.position_grow lengthPrefixSize] at hcv
    have h₁ := (h.grow hC lengthPrefixSize).advance hcw hcv
    have hstart : v.position + lengthPrefixSize ≤ (w.grow lengthPrefixSize).position + lengthPrefixSize := by
      rw [hpos, h.position]
    dsimp only
    generalize w.grow lengthPrefixSize = w₁ at h₁ hstart
    generalize v.grow lengthPrefixSize = v₁ at h₁
    have hp := h₁.putPieces hC e.pieces
    have hk := goes_putPieces e.pieces h₁.left_inside
    generalize Writer.putPieces e.pieces _ = r at hp hk
    generalize Writer.putPieces e.pieces _ = s at hp
    cases hp with
    | error f h =>
      cases f with
      | error _ => exact .error _ h
      | panic => exact .error _ h
    | ok _ h =>
      cases e.complete with
      | false => exact h.refuse _
      | true =>
        cases hk with
        | done _ keeps => exact h.fillSize (Nat.le_trans hstart keeps.position_le)
  · rw [if_neg hf, if_neg fun hv => hf ((h.fits_iff hC _).2 hv)]
    exact .error _ h.mark

/-- layouts that match come to the same -/
theorem layout (hC : Sized C) (h : Pace C w v) {l k : Layout} (hl : l.Matches k) : Same (Pace C) (l.run w) (k.run v) := by
  induction hl generalizing w v with
  | done => exact .ok () h
  | refuse e => exact h.refuse e
  | reserve n _ ih => exact (h.reserve hC n).bind fun _ _ _ h => ih h
  | put fits _ length _ ih => exact (h.put hC fits length).bind fun _ _ _ h => ih h
  | object e => exact h.writeEmission hC e

end Pace

/-- acts keep sessions at pace, whatever the order in which numbers travel -/
theorem tandem_pace (hC : Sized C) : Tandem (Pace C) where
  levels h := h.levels
  acts := by
    intro act l ha hl w v h
    have key := h.layout hC (hl w.order v.order)
    rw [← ha w, ← ha v] at key
    exact key.abreast
  mark h := h.mark
  onNesting h _ _ hf := h.onNesting hf

end Writer

end Courier
