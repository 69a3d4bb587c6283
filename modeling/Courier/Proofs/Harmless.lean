import Courier.Proofs.Groups
import Courier.Proofs.Levels
import Courier.Proofs.Opaque

/-!
Acts that do no harm to a read session.

`Unharmed` says what a read may leave behind: the same frame, with the position not moved back, and not moved past the
limit unless it was there before, and the same depth. An act is `Fine` on a session if it is not a stop and leaves the
session unharmed, be it answered or refused; a leaf that answers has made `Progress` as well. The leaves are treated one
by one. All they ask of the session is that its limit lies within its data: the bytes are any, and so is the position.

An act is `Safe` on a sort of sessions if it is fine on each of them. A sort is `Lasting` if no act that does no harm
leads out of it, and `Deep` if going up and down does not either.

`safe_leaves`: the leaves are safe on sessions of any lasting sort.
-/

namespace Courier

namespace Reader

variable {α β : Type}

/-- `s` comes after `r`, and no harm has been done -/
structure Unharmed (r s : Reader) : Prop where
  frame : s.frame = r.frame.setPosition s.position
  position_le : r.position ≤ s.position
  position_le_max : s.position ≤ max r.position r.frame.limit
  depth : s.depth = r.depth
  factory : s.factory = r.factory

namespace Unharmed

variable {r s t : Reader}

theorem refl (r : Reader) : Unharmed r r :=
  ⟨rfl, Nat.le_refl _, Nat.le_max_left .., rfl, rfl⟩

theorem limit (h : Unharmed r s) : s.frame.limit = r.frame.limit := by
  rw [h.frame]
  rfl

theorem extent (h : Unharmed r s) : s.frame.extent = r.frame.extent := by
  rw [h.frame]
  rfl

theorem trans (h : Unharmed r s) (k : Unharmed s t) : Unharmed r t where
  frame := by
    rw [k.frame, h.frame]
    rfl
  position_le := Nat.le_trans h.position_le k.position_le
  position_le_max := by
    have := h.position_le_max
    have := k.position_le_max
    rw [h.limit] at this
    omega
  depth := k.depth.trans h.depth
  factory := k.factory.trans h.factory

theorem remaining_le (h : Unharmed r s) : s.remaining ≤ r.remaining := by
  have := h.position_le
  have := h.limit
  simp only [remaining, Frame.remaining, position] at *
  omega

end Unharmed

/-- bytes have been taken for what was answered -/
def Progress (r : Reader) (_ : α) (s : Reader) : Prop :=
  r.position < s.position

/-- an act that came to an answer with `Q`, or was refused, and did no harm to the session `r` -/
inductive Fine (r : Reader) (Q : α → Reader → Prop) : EStateM.Result Fault Reader α → Prop
  | ok {a : α} {s : Reader} (h : Unharmed r s) (hQ : Q a s) : Fine r Q (.ok a s)
  | refused {e : WireError} {s : Reader} (h : Unharmed r s) : Fine r Q (.error (.error e) s)

namespace Fine

variable {r : Reader} {Q : α → Reader → Prop}

theorem pure {a : α} (h : Q a r) : Fine r Q ((Pure.pure a : Reading α) r) :=
  .ok (.refl r) h

theorem refuse (e : WireError) : Fine r Q (Reader.refuse (α := α) e r) :=
  .refused (.refl r)

theorem bind {act : Reading α} {next : α → Reading β} {R : β → Reader → Prop} (h : Fine r Q (act r))
    (hn : ∀ a s, Unharmed r s → Q a s → Fine s R (next a s)) : Fine r R ((act >>= next) r) := by
  rw [bind_eq]
  generalize act r = x at h
  cases h with
  | refused h => exact .refused h
  | @ok a s h hQ =>
    have hs := hn a s h hQ
    dsimp only
    generalize next a s = y at hs
    cases hs with
    | ok k hR => exact .ok (h.trans k) hR
    | refused k => exact .refused (h.trans k)

/-- an act that asks for the session -/
theorem ask {next : Reader → Reading α} (h : Fine r Q (next r r)) : Fine r Q ((do next (← get)) r) := by
  rw [bind_eq]
  exact h

theorem weaken {R : α → Reader → Prop} {x : EStateM.Result Fault Reader α} (h : Fine r Q x)
    (hR : ∀ a s, Unharmed r s → Q a s → R a s) : Fine r R x := by
  cases h with
  | ok h hQ => exact .ok h (hR _ _ h hQ)
  | refused h => exact .refused h

theorem plain {x : EStateM.Result Fault Reader α} (h : Fine r Q x) : Fine r (fun _ _ => True) x :=
  h.weaken fun _ _ _ _ => trivial

theorem unharmed {s : Reader} {a : α} (h : Fine r Q (.ok a s)) : Unharmed r s := by
  cases h with
  | ok h _ => exact h

theorem post {s : Reader} {a : α} (h : Fine r Q (.ok a s)) : Q a s := by
  cases h with
  | ok _ hQ => exact hQ

/-- an act that is gone on from, whatever it has come to -/
theorem onto {act : Reading α} {next : Except WireError α → Reader → Reading β} {R : β → Reader → Prop}
    (h : Fine r Q (act r)) (hn : ∀ a s, Unharmed r s → Fine s R (next a s s)) : Fine r R (onto act next r) := by
  have hafter : ∀ {s : Reader} {y : EStateM.Result Fault Reader β}, Unharmed r s → Fine s R y → Fine r R y := by
    intro s y hu hy
    cases hy with
    | ok k hR => exact .ok (hu.trans k) hR
    | refused k => exact .refused (hu.trans k)
  unfold Reader.onto
  generalize act r = x at h
  cases h with
  | ok h _ => exact hafter h (hn _ _ h)
  | refused h => exact hafter h (hn _ _ h)

/-- an answer made of what was taken -/
theorem progress {a : α} {s : Reader} (h : r.position < s.position) : Fine s (Progress r) ((Pure.pure a : Reading α) s) :=
  .pure h

end Fine

/-! ## Leaves -/

section Leaves

variable {r : Reader} (hr : r.frame.limit ≤ r.frame.extent)

include hr

theorem available_eq (h : r.position ≤ r.frame.limit) : r.frame.available = r.frame.limit - r.position :=
  Frame.available_of_le h hr

/-- moving on within the window does no harm -/
theorem unharmed_move {n : Nat} (h : n ≤ r.frame.available) :
    Unharmed r { r with frame := r.frame.setPosition (r.position + n) } := by
  refine ⟨rfl, Nat.le_add_right .., ?_, rfl, rfl⟩
  change r.position + n ≤ _
  by_cases hp : r.position ≤ r.frame.limit
  · rw [available_eq hr hp] at h
    omega
  · rw [Frame.available, if_neg fun hw => hp hw.1] at h
    omega

omit hr in
theorem length_peek_le (f : Frame) (n : Nat) : (f.peek n).length ≤ f.available := by
  rw [Frame.peek_eq_take, List.length_take, Frame.length_readable]
  exact Nat.min_le_right ..

theorem fine_take {n : Nat} (h : 0 < n ∨ r.position ≤ r.frame.limit) :
    Fine r (fun bs s => bs.length = n ∧ s.position = r.position + n ∧ s.position ≤ s.frame.limit) (take n r) := by
  unfold take
  split
  · exact .refused (.refl r)
  · rename_i hn
    -- a position past the limit shows an empty window, which is refused unless nothing is asked for
    have hav : r.position ≤ r.frame.limit := by
      rcases h with h | h
      · by_contra hlt
        rw [Frame.available, if_neg fun hp => hlt hp.1] at hn
        omega
      · exact h
    have ha := available_eq hr hav
    have hslice : r.frame.slice? n = some (r.frame.cut n) := by
      rw [Frame.slice?, if_pos]
      change r.position + n ≤ _
      omega
    have hlen : (r.frame.cut n).length = n := by
      rw [Frame.cut_eq, List.length_take, List.length_drop, Frame.length_data]
      change min n (r.frame.extent - r.position) = n
      omega
    rw [hslice]
    refine .ok (unharmed_move hr (Nat.not_lt.1 hn)) ⟨hlen, rfl, ?_⟩
    change r.position + n ≤ r.frame.limit
    omega

theorem fine_fixed (α : Type) [Fixed α] (h : 0 < Fixed.size α) :
    Fine r (fun _ s => s.position = r.position + Fixed.size α ∧ s.position ≤ s.frame.limit) (takeFixed α r) := by
  apply (fine_take hr (.inl h)).bind
  rintro bs s _ ⟨hlen, hpos⟩
  apply Fine.ask
  have hread : (Fixed.readFixed bs s.order.swap : Option α) = some (Fixed.value s.order.swap (bs.take (Fixed.size α))) := by
    rw [Fixed.readFixed, if_pos (by omega)]
  rw [hread]
  exact .pure hpos

/-- a length that was answered leaves room for its elements -/
theorem fine_length (kind : String) (size : Nat) :
    Fine r (fun o s => r.position < s.position ∧ ∀ len, o = some len → s.position + len * size ≤ s.frame.limit)
      (readLength kind size r) := by
  apply (fine_fixed hr Int32 (by decide)).bind
  intro raw s _ hs
  have hon : r.position < s.position := by
    have hsize : Fixed.size Int32 = 4 := rfl
    omega
  cases hd : decodeLength kind raw with
  | error e => exact (Fine.refuse (Q := fun _ _ => False) e).bind fun _ _ _ h => h.elim
  | ok o =>
    apply (Fine.pure (Q := fun a t => a = o ∧ t = s) ⟨rfl, rfl⟩).bind
    rintro o' t _ ⟨rfl, rfl⟩
    cases o' with
    | none => exact .pure ⟨hon, fun _ h => by cases h⟩
    | some len =>
      refine .ask ?_
      by_cases hmax : t.maxLength < len
      · rw [if_pos hmax]
        exact .refuse _
      · rw [if_neg hmax]
        by_cases hrem : t.remaining < len * size
        · rw [if_pos hrem]
          exact .refuse _
        · rw [if_neg hrem]
          refine .pure ⟨hon, fun len' hl => ?_⟩
          obtain rfl := Option.some.inj hl
          have hp := hs.2
          simp only [remaining, Frame.remaining, position] at *
          omega

/-- an act on a length that was answered, and on nothing where it was absent -/
theorem fine_counted {kind : String} {size : Nat} {next : Option Nat → Reading α} {Q : α → Reader → Prop}
    (hnone : ∀ s, r.position < s.position → Fine s Q (next none s))
    (hsome : ∀ len s, r.position < s.position → s.frame.limit ≤ s.frame.extent → s.position ≤ s.frame.limit →
      s.position + len * size ≤ s.frame.limit → Fine s Q (next (some len) s)) :
    Fine r Q ((readLength kind size >>= next) r) := by
  apply (fine_length hr kind size).bind
  rintro o s h ⟨hon, hroom⟩
  cases o with
  | none => exact hnone s hon
  | some len =>
    have hl := hroom len rfl
    have hp : s.position ≤ s.frame.limit :=
      calc s.position ≤ s.position + len * size := Nat.le_add_right ..
        _ ≤ s.frame.limit := hl
    exact hsome len s hon (by rwa [h.limit, h.extent]) hp hl

theorem fine_array (α : Type) [Fixed α] : Fine r (Progress r) (takeArray α r) := by
  apply fine_counted hr
  · intro s hon
    exact .progress hon
  · intro len s hon hs hp _
    apply (fine_take hs (.inr hp)).bind
    intro bs t hu ht
    apply Fine.ask
    have hd : ∃ vs : List α, Fixed.decodeSlice bs len t.order.swap = some vs := by
      unfold Fixed.decodeSlice
      split
      · exact ⟨_, rfl⟩
      · rw [if_pos (Nat.le_of_eq ht.1.symm)]
        exact ⟨_, rfl⟩
    obtain ⟨vs, hd⟩ := hd
    rw [hd]
    exact .progress (hon.trans_le hu.position_le)

theorem fine_byteArray : Fine r (Progress r) (readByteArray r) := by
  apply fine_counted hr
  · intro s hon
    exact .progress hon
  · intro len s hon hs hp _
    exact (fine_take hs (.inr hp)).bind fun bs t hu _ => .progress (hon.trans_le hu.position_le)

theorem fine_booleanArray : Fine r (Progress r) (readBooleanArray r) := by
  apply fine_counted hr
  · intro s hon
    exact .progress hon
  · intro len s hon hs hp _
    apply (fine_take hs (.inr hp)).bind
    intro bs t hu ht
    rw [decodeBools, if_pos (Nat.le_of_eq ht.1.symm)]
    exact .progress (hon.trans_le hu.position_le)

theorem fine_string : Fine r (Progress r) (readString r) := by
  apply fine_counted hr
  · intro s hon
    exact .progress hon
  · intro len s hon hs hp _
    apply (fine_take hs (.inr hp)).bind
    intro bs t hu _
    cases Utf8.decode? bs with
    | none => exact .refuse _
    | some v => exact .progress (hon.trans_le hu.position_le)

theorem fine_upTo (n : Nat) : Fine r (fun _ _ => True) (readUpTo n r) :=
  .ok (unharmed_move hr (length_peek_le ..)) trivial

theorem fine_onFrame {read : Frame → Except WireError (α × Frame)}
    (h : ∀ a f, read r.frame = .ok (a, f) →
      ∃ n, 0 < n ∧ n ≤ r.frame.available ∧ f = r.frame.setPosition (r.frame.position + n)) :
    Fine r (Progress r) (onFrame read r) := by
  unfold onFrame
  cases hread : read r.frame with
  | error e => exact .refused (.refl r)
  | ok x =>
    obtain ⟨a, f⟩ := x
    obtain ⟨n, hpos, hn, rfl⟩ := h a f hread
    exact .ok (unharmed_move hr hn) (Nat.lt_add_of_pos_right hpos)

theorem fine_byte : Fine r (Progress r) (readByte r) := by
  apply fine_onFrame hr
  intro a f h
  have hl := length_peek_le r.frame 1
  unfold Frame.readByte at h
  cases hp : r.frame.peek 1 with
  | nil => simp [hp] at h
  | cons b bs =>
    simp only [hp, Except.ok.injEq, Prod.mk.injEq] at h
    rw [hp] at hl
    have hn : 1 ≤ r.frame.available :=
      calc 1 ≤ bs.length + 1 := Nat.succ_le_succ (Nat.zero_le _)
        _ ≤ r.frame.available := hl
    exact ⟨1, Nat.one_pos, hn, h.2.symm⟩

theorem fine_form {form : Varint.Form α} (h : form.Lawful) : Fine r (Progress r) (onFrame (Frame.readForm form) r) := by
  apply fine_onFrame hr
  intro v f hread
  obtain ⟨n, hd, rfl⟩ := Frame.readForm_ok hread
  obtain ⟨hpos, hlen⟩ := h.length_of_decode hd
  exact ⟨n, hpos, hlen.trans (length_peek_le ..), rfl⟩

theorem fine_int : Fine r (Progress r) (readInt r) := by
  rw [readInt, Frame.readInt_eq]
  exact fine_form hr Varint.grouped32.lawful

theorem fine_long : Fine r (Progress r) (readLong r) := by
  rw [readLong, Frame.readLong_eq]
  exact fine_form hr Varint.grouped64.lawful

/-- the session goes on right behind the object, with the limit it had -/
theorem fine_objectWith (d : Decoder α) : Fine r (Progress r) (readObjectWith d r) := by
  rw [readObjectWith_eq]
  apply fine_counted hr
  · intro s _
    exact .refuse _
  · intro size s hon hs hp hl
    have hmove : Unharmed s (s.advance size) := by
      apply unharmed_move hs
      rw [available_eq hs hp]
      omega
    simp only [objectOf]
    rcases (d.run (s.frame.readable.take size)).1 with _ | a
    · exact .refused hmove
    · exact .ok hmove (hon.trans_le hmove.position_le)

/-- the header of a message takes two bytes -/
theorem fine_header : Fine r (fun _ s => s.remaining + 2 ≤ r.remaining) (readShort r) := by
  apply (fine_fixed hr Int16 (by decide)).weaken
  intro type s h hs
  have hl := h.limit
  have hsize : Fixed.size Int16 = 2 := rfl
  simp only [remaining, Frame.remaining, position] at *
  omega

theorem fine_blueprint :
    Fine r (fun o s => s.remaining + 2 ≤ r.remaining ∧ ∀ b, o = some b → ∃ type, r.factory type = some b)
      (readBlueprint r) := by
  apply (fine_header hr).bind
  intro type s h hrem
  split
  · exact .pure ⟨hrem, fun _ h => by cases h⟩
  · refine .ask ?_
    rw [h.factory]
    cases hb : r.factory type with
    | none => exact .refuse _
    | some b =>
      refine .pure ⟨hrem, fun b' h => ?_⟩
      obtain rfl := Option.some.inj h
      exact ⟨type, hb⟩

end Leaves

theorem fine_probe (p : Probe) (r : Reader) : Fine r (fun _ _ => True) (probe p r) := by
  cases p <;> exact .ok (.refl r) trivial

/-! ## Acts on any session -/

/-- an act that is fine on every session of some sort -/
def Safe (I : Reader → Prop) (act : Reading α) : Prop :=
  ∀ r, I r → Fine r (fun _ _ => True) (act r)

/-- a sort of sessions that an act which does no harm does not lead out of -/
structure Lasting (I : Reader → Prop) : Prop where
  limit_le : ∀ r, I r → r.frame.limit ≤ r.frame.extent
  after : ∀ r s, I r → Unharmed r s → I s

/-- a sort of sessions that does not look at the levels either -/
structure Deep (I : Reader → Prop) : Prop extends Lasting I where
  onNesting : ∀ r f, I r → I (r.onNesting f)

theorem safe_leaves {I : Reader → Prop} (hI : Lasting I) : Leaves (Safe I) where
  pure _ _ _ := .pure trivial
  bind h hn r hr := (h r hr).bind fun a s hu _ => hn a s (hI.after r s hr hu)
  refuse e _ _ := .refuse e
  byte r hr := (fine_byte (hI.limit_le r hr)).plain
  int r hr := (fine_int (hI.limit_le r hr)).plain
  long r hr := (fine_long (hI.limit_le r hr)).plain
  fixed α _ h r hr := (fine_fixed (hI.limit_le r hr) α h).plain
  length kind size r hr := (fine_length (hI.limit_le r hr) kind size).plain
  array α _ r hr := (fine_array (hI.limit_le r hr) α).plain
  byteArray r hr := (fine_byteArray (hI.limit_le r hr)).plain
  booleanArray r hr := (fine_booleanArray (hI.limit_le r hr)).plain
  string r hr := (fine_string (hI.limit_le r hr)).plain
  object _ r hr := (fine_objectWith (hI.limit_le r hr) _).plain
  probe p r _ := fine_probe p r

theorem safe_into {I : Reader → Prop} (hI : Lasting I) {n : Nat} (h : n ≤ maxAllocation) : Safe I (readInto n) := by
  intro r hr
  rw [readInto, if_pos h]
  exact fine_upTo (hI.limit_le r hr) n

/-! ## Up and down -/

namespace Unharmed

variable {r s : Reader}

theorem retreat (h : Unharmed (r.onNesting .forward) s) (b : Bool) : Unharmed r (s.onNesting (·.retreat b)) where
  frame := h.frame
  position_le := h.position_le
  position_le_max := h.position_le_max
  depth :=
    calc (s.onNesting (·.retreat b)).depth = s.depth - 1 := s.nesting.depth_retreat b
      _ = r.depth + 1 - 1 := by rw [h.depth]; exact congrArg (· - 1) r.nesting.depth_forward
      _ = r.depth := Nat.add_sub_cancel ..
  factory := h.factory

theorem wipe (h : Unharmed r s) : Unharmed r (s.onNesting .wipe) :=
  ⟨h.frame, h.position_le, h.position_le_max, s.nesting.depth_wipe.trans h.depth, h.factory⟩

/-- whoever went down is not on the outermost level -/
theorem depth_ne_zero (h : Unharmed (r.onNesting .forward) s) : s.depth ≠ 0 := by
  rw [h.depth, show (r.onNesting .forward).depth = r.depth + 1 from r.nesting.depth_forward]
  exact Nat.succ_ne_zero _

end Unharmed

/-- an act one level down, which ends on the level it started on -/
theorem Fine.below {act : Reading α} {r : Reader}
    (h : Fine (r.onNesting .forward) (fun _ _ => True) (act (r.onNesting .forward))) :
    Fine r (fun _ _ => True) (below act r) := by
  unfold Reader.below
  generalize act (r.onNesting .forward) = x at h
  cases h with
  | ok h _ =>
    simp only [if_neg h.depth_ne_zero]
    exact .ok (h.retreat true) trivial
  | refused h =>
    simp only [if_neg h.depth_ne_zero]
    exact .refused (h.retreat false)

/-- an act on the outermost level -/
theorem Fine.onLevel {act : Reading α} {r : Reader} (h : Fine r (fun _ _ => True) (act r)) (hd : r.depth = 0) :
    Fine r (fun _ _ => True) (onLevel act r) := by
  unfold Reader.onLevel
  generalize act r = x at h
  cases h with
  | ok h _ =>
    simp only [if_pos (h.depth.trans hd)]
    exact .ok h.wipe trivial
  | refused h => exact .refused h

end Reader

end Courier
