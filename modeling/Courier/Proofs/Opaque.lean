import Courier.Proofs.Leaves

/-!
What the read of an opaque object comes to.

The size in front of an object is taken or refused before anything else happens; `objectSize` says which. Once it is
taken, the decoder is fed from the bytes of the object and from nothing else, and the session goes on right behind the
object with the limit that it had.

`drive_eq`: a decoder that is fed from a window makes of it what it makes of the bytes of that window.
`readObjectWith_eq`: the main result. It holds of every session, its position and its limit wherever they are, and of
every decoder.
-/

namespace Courier

namespace Frame

/-- taking what a peek shows takes it off the window -/
theorem readable_peek (f : Frame) (n : Nat) :
    (f.setPosition (f.position + (f.peek n).length)).readable = f.readable.drop n := by
  by_cases hw : f.position ≤ f.limit ∧ f.limit ≤ f.extent
  · have hav : f.available = f.limit - f.position := available_of_le hw.1 hw.2
    have hlen : (f.peek n).length = min n (f.limit - f.position) := by
      rw [peek_eq_take, List.length_take, length_readable, hav]
    rw [readable_advance hw.2 (by omega), hlen]
    rcases Nat.le_total n (f.limit - f.position) with hn | hn
    · rw [Nat.min_eq_left hn]
    · have hall : f.readable.length ≤ f.limit - f.position := Nat.le_of_eq (f.length_readable.trans hav)
      rw [Nat.min_eq_right hn, List.drop_eq_nil_of_le hall, List.drop_eq_nil_of_le (Nat.le_trans hall hn)]
  · have hempty : f.readable = [] := by rw [readable, available, if_neg hw, List.take_zero]
    have hpeek : f.peek n = [] := by rw [peek_eq_take, hempty, List.take_nil]
    rw [hpeek, hempty, List.drop_nil]
    exact hempty

/-- a window that ends earlier shows the first bytes of the window -/
theorem readable_narrowed {f : Frame} {n : Nat} (hl : f.limit ≤ f.extent) (hn : f.position + n ≤ f.limit) :
    { f with limit := f.position + n }.readable = f.readable.take n := by
  have hin : available { f with limit := f.position + n } = n :=
    (available_of_le (f := { f with limit := f.position + n }) (Nat.le_add_right ..) (Nat.le_trans hn hl)).trans
      (Nat.add_sub_cancel_left ..)
  rw [readable, readable, hin, available_of_le (by omega) hl, List.take_take, Nat.min_eq_left (by omega)]
  rfl

end Frame

namespace Reader

variable {α : Type}

/-- the session `n` bytes further on -/
def advance (r : Reader) (n : Nat) : Reader :=
  { r with frame := r.frame.setPosition (r.position + n) }

theorem advance_advance (r : Reader) (m n : Nat) : (r.advance m).advance n = r.advance (m + n) := by
  simp only [advance, position, Frame.setPosition, Nat.add_assoc]

/-- a decoder fed from a window makes of it what it makes of its bytes, and stays within it -/
theorem drive_eq (d : Decoder α) (r : Reader) :
    ∃ n, n ≤ r.frame.available ∧ drive d r = .ok (d.run r.frame.readable).1 (r.advance n) := by
  induction d generalizing r with
  | done a => exact ⟨0, Nat.zero_le _, rfl⟩
  | fail => exact ⟨0, Nat.zero_le _, rfl⟩
  | read n next ih =>
    have hlen : (r.frame.peek n).length = min n r.frame.available := by
      rw [Frame.peek_eq_take, List.length_take, Frame.length_readable]
    have hrest : (r.advance (r.frame.peek n).length).frame.readable = r.frame.readable.drop n :=
      r.frame.readable_peek n
    obtain ⟨k, hk, hd⟩ := ih (r.frame.peek n) (r.advance (r.frame.peek n).length)
    have hin : (r.frame.peek n).length + k ≤ r.frame.available := by
      have := congrArg List.length hrest
      simp only [Frame.length_readable, List.length_drop] at this
      omega
    refine ⟨_, hin, ?_⟩
    calc drive (.read n next) r = drive (next (r.frame.peek n)) (r.advance (r.frame.peek n).length) := rfl
      _ = .ok ((next (r.frame.peek n)).run (r.frame.readable.drop n)).1 (r.advance ((r.frame.peek n).length + k)) := by
        rw [hd, hrest, advance_advance]
      _ = .ok ((Decoder.read n next).run r.frame.readable).1 _ := by rw [Frame.peek_eq_take, Decoder.run]

/-! ## Lengths -/

/-- bytes that the window shows can be taken -/
theorem take_eq {r : Reader} {n : Nat} (hn : 0 < n) (h : n ≤ r.frame.available) :
    take n r = .ok (r.frame.cut n) (r.advance n) := by
  have hin : r.frame.position + n ≤ r.frame.extent := by
    unfold Frame.available at h
    split at h <;> omega
  rw [take, if_neg (by omega), Frame.slice?, if_pos hin]
  rfl

theorem takeFixed_eq (α : Type) [Fixed α] {r : Reader} (hn : 0 < Fixed.size α) (h : Fixed.size α ≤ r.frame.available) :
    takeFixed α r = .ok (Fixed.value r.order.swap (r.frame.cut (Fixed.size α))) (r.advance (Fixed.size α)) := by
  have hlen : (r.frame.cut (Fixed.size α)).length = Fixed.size α := by
    have hpeek : r.frame.peek (Fixed.size α) = r.frame.cut (Fixed.size α) := by rw [Frame.peek, Nat.min_eq_left h]
    rw [← hpeek, Frame.peek_eq_take, List.length_take, Frame.length_readable, Nat.min_eq_left h]
  have hread : (Fixed.readFixed (r.frame.cut (Fixed.size α)) r.order.swap : Option α)
      = some (Fixed.value r.order.swap (r.frame.cut (Fixed.size α))) := by
    rw [Fixed.readFixed, if_pos (Nat.le_of_eq hlen.symm), List.take_of_length_le (Nat.le_of_eq hlen)]
  have horder : (r.advance (Fixed.size α)).order = r.order := rfl
  simp only [takeFixed, bind_eq, take_eq hn h, get_eq, horder, hread]
  rfl

theorem takeFixed_short (α : Type) [Fixed α] {r : Reader} (h : r.frame.available < Fixed.size α) :
    takeFixed α r = .error (.error (r.frame.underflow (Fixed.size α))) r := by
  simp only [takeFixed, bind_eq, take, if_pos h]

/-- what a length says, told of the number that it is -/
theorem decodeLength_eq (kind : String) (raw : Int32) : decodeLength kind raw =
    if raw.toInt = -1 then .ok none
    else if raw.toInt < 0 then .error (.invalidLength kind raw.toInt)
    else .ok (some raw.toInt.toNat) := by
  have hnull : raw = nullLength ↔ raw.toInt = -1 := by
    rw [← Int32.toInt_inj]
    rfl
  have hneg : raw < 0 ↔ raw.toInt < 0 := Int32.lt_iff_toInt_lt
  simp only [decodeLength, hnull, hneg]

/-- what becomes of a length that is there whole -/
theorem readLength_eq (kind : String) (elementSize : Nat) {r s : Reader} {raw : Int32}
    (h : takeFixed Int32 r = .ok raw s) : readLength kind elementSize r =
      if raw.toInt = -1 then .ok none s
      else if raw.toInt < 0 ∨ s.maxLength < raw.toInt then .error (.error (.invalidLength kind raw.toInt)) s
      else if s.remaining < raw.toInt.toNat * elementSize then
        .error (.error (s.frame.underflow (raw.toInt.toNat * elementSize))) s
      else .ok (some raw.toInt.toNat) s := by
  simp only [readLength, bind_eq, h, decodeLength_eq]
  by_cases hnull : raw.toInt = -1
  · rw [if_pos hnull, if_pos hnull]
    rfl
  rw [if_neg hnull, if_neg hnull]
  by_cases hneg : raw.toInt < 0
  · rw [if_pos hneg, if_pos (.inl hneg)]
    rfl
  obtain ⟨len, hlen⟩ := Int.eq_ofNat_of_zero_le (Int.not_lt.1 hneg)
  rw [if_neg hneg, hlen, Int.toNat_natCast]
  change (if s.maxLength < len then refuse (.invalidLength kind len)
    else if s.remaining < len * elementSize then refuse (s.frame.underflow (len * elementSize))
    else return some len : Reading (Option Nat)) s = _
  by_cases hmax : s.maxLength < len
  · rw [if_pos hmax, if_pos (.inr (Int.ofNat_lt.2 hmax))]
    rfl
  have hin : ¬((len : Int) < 0 ∨ (s.maxLength : Int) < len) := by omega
  rw [if_neg hmax, if_neg hin]
  split <;> rfl

/-- a length that was answered was there whole -/
theorem available_of_readLength {kind : String} {elementSize : Nat} {o : Option Nat} {r s : Reader}
    (h : readLength kind elementSize r = .ok o s) : Fixed.size Int32 ≤ r.frame.available := by
  refine Nat.not_lt.1 fun hshort => ?_
  simp only [readLength, bind_eq, takeFixed_short Int32 hshort] at h
  cases h

/-- a length that was taken lies within the window, and leaves room for its elements -/
theorem readLength_ok {kind : String} {elementSize len : Nat} {r s : Reader}
    (h : readLength kind elementSize r = .ok (some len) s) :
    s.frame.limit ≤ s.frame.extent ∧ s.position + len * elementSize ≤ s.frame.limit := by
  have hin := available_of_readLength h
  rw [readLength_eq kind elementSize (takeFixed_eq Int32 (by decide) hin)] at h
  -- four bytes were there, so the window is one, and what is left of it has been compared with the length
  have hwindow : r.frame.position + Fixed.size Int32 ≤ r.frame.limit ∧ r.frame.limit ≤ r.frame.extent := by
    change 4 ≤ r.frame.available at hin
    change r.frame.position + 4 ≤ _ ∧ _
    unfold Frame.available at hin
    split at hin <;> omega
  split at h
  · cases h
  split at h
  · cases h
  split at h
  · cases h
  rename_i hroom
  injection h with hlen hs
  subst hs
  obtain rfl := Option.some.inj hlen
  refine ⟨hwindow.2, ?_⟩
  have hp := hwindow.1
  change ¬r.frame.limit - (r.frame.position + Fixed.size Int32) < _ at hroom
  change r.frame.position + Fixed.size Int32 + _ ≤ r.frame.limit
  omega

/-! ## Objects -/

/-- the session with a window of `size` bytes -/
def narrow (r : Reader) (size : Nat) : Reader :=
  { r with frame := { r.frame with limit := r.position + size } }

/-- a decoder behind a narrowed limit is fed from the bytes up to there, and the position is the only thing it moves -/
theorem drive_narrow (d : Decoder α) {r : Reader} {size : Nat} (hl : r.frame.limit ≤ r.frame.extent)
    (hn : r.position + size ≤ r.frame.limit) :
    ∃ n, drive d (r.narrow size) = .ok (d.run (r.frame.readable.take size)).1 ((r.narrow size).advance n) := by
  have hwindow : (r.narrow size).frame.readable = r.frame.readable.take size := Frame.readable_narrowed hl hn
  obtain ⟨n, -, hd⟩ := drive_eq d (r.narrow size)
  rw [hwindow] at hd
  exact ⟨n, hd⟩

/-- what an object comes to whose decoder has answered, or has failed -/
def verdict (o : Option α) (r : Reader) : EStateM.Result Fault Reader α :=
  match o with
  | some a => .ok a r
  | none => .error (.error .packDecode) r

/-- an object of that size: the decoder is fed from its bytes only, and the session goes on right behind them -/
def objectOf (d : Decoder α) (size : Nat) : Reading α := fun r =>
  verdict (d.run (r.frame.readable.take size)).1 (r.advance size)

/-- **The read of an object** takes the size in front of it, and then what the decoder makes of as many bytes; whatever
it did, the session goes on right behind them, with the limit that it had. -/
theorem readObjectWith_eq (d : Decoder α) : readObjectWith d = (do
    match ← readLength "object" 1 with
    | none => refuse (.invalidLength "object" (-1))
    | some size => objectOf d size) := by
  funext r
  rw [readObjectWith, bind_eq, bind_eq]
  cases h : readLength "object" 1 r with
  | error f s => rfl
  | ok o s =>
    cases o with
    | none => rfl
    | some size =>
      obtain ⟨hl, hn⟩ := readLength_ok h
      rw [Nat.mul_one] at hn
      have hnarrow := setLimit_eq (Nat.le_trans hn hl)
      obtain ⟨n, hd⟩ := drive_narrow d hl hn
      have hback := setLimit_eq (r := (s.narrow size).advance n) hl
      rw [narrow] at hd hback
      simp only [bind_eq, get_eq, hnarrow, hd, hback, objectOf]
      cases (d.run (s.frame.readable.take size)).1 <;> rfl

end Reader

end Courier
