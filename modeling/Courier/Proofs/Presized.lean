import Courier.Proofs.Agree
import Courier.Proofs.CapacityUnseen
import Courier.Proofs.LevelsCleared

/-!
A list, a collection and an array of the same values.

The three put the count in front and then the values one by one. A list has room made first, for the count and for the
least that its items may take; beyond that it is written as the others are, and since a session does not notice how
large its buffer is, the three come to the same (`write_items_ample`). What they come to is told value by value:
`Value.refusal` is what stands against a value where the session stands, and a run of values is refused as the first
value is that something stands against.

Nothing may ask for more room than the largest buffer has, the room made ahead for the list included. An array of more
elements than that buffer has bytes is refused before it asks for any, which counts as standing against it.

`result_value`, `result_values`: what one value and what a run of values comes to.
`items_coincide`: the three, side by side.
`oversize_array_refused`: an array that is longer than the largest buffer, which is refused though it is of the kind.
-/

namespace Courier

open Writer Dispatch

/-- the room that is made ahead for a list of `n` items -/
def ItemType.ahead (t : ItemType) (n : Nat) : Nat :=
  n * t.minEncodedLength + lengthPrefixSize

/-- a count is refused where it is larger than the largest buffer -/
theorem Layout.result_count (order : ByteOrder) (n : Nat) (next : Layout) :
    (Layout.count order n next).result =
      if n ≤ maxBufferSize then next.result else .error (.capacityOverflow n) := by
  simp only [Layout.count, encodeLength, maxBufferSize]
  by_cases hn : n ≤ 2147483647 <;> simp only [hn, if_true, if_false] <;> rfl

theorem Datum.result_layout (order : ByteOrder) (d : Datum) :
    (d.layout order).result = if d.count ≤ maxBufferSize then .ok () else .error (.capacityOverflow d.count) := by
  cases d with
  | byte | short | int | long | float | double | char | boolean | uuid | extendedUuid => rfl
  | _ => exact Layout.result_count ..

namespace Value

/-- what stands against a value as an item of the given kind, where the session stands -/
def refusal (t : ItemType) (w : Writer) : Value → Option Fault
  | .null => if t.isNullable then none else some (.error (.typeMismatch t.name "null"))
  | .data d =>
    if d.itemType = t then
      if d.count ≤ maxBufferSize then none else some (.error (.capacityOverflow d.count))
    else some (.error (.typeMismatch t.name d.itemType.name))
  | .message m =>
    if t = .message then
      match (m.write (enter w)).result with
      | .ok true => none
      | .ok false => some (.error (.suspendedInCollection m.type))
      | .error f => some f
    else some (.error (.typeMismatch t.name ItemType.message.name))

/-- whether a value is of the kind, or absent where that may be, and comes to its end in one call if it is a message -/
def Taken (t : ItemType) (w : Writer) : Value → Prop
  | .null => t.isNullable = true
  | .data d => d.itemType = t
  | .message m => t = .message ∧ (m.write (enter w)).result = .ok true

theorem refusal_eq_none_iff (t : ItemType) (w : Writer) {v : Value} (h : ∀ d, v = .data d → d.count ≤ maxBufferSize) :
    v.refusal t w = none ↔ v.Taken t w := by
  cases v with
  | null => simp [refusal, Taken]
  | data d => simp [refusal, Taken, h d rfl]
  | message m =>
    by_cases ht : t = .message
    · simp only [refusal, Taken, ht, if_true, true_and]
      rcases (m.write (enter w)).result with f | (_ | _) <;> simp
    · simp [refusal, Taken, ht]

/-- where a session stands behind some values -/
def behind (t : ItemType) (vs : List Value) (w : Writer) : Writer :=
  vs.foldl (fun w v => (sent () (v.write t) w).writer) w

/-- what stands against the first of some values that anything stands against -/
def firstRefusal (t : ItemType) : List Value → Writer → Option Fault
  | [], _ => none
  | v :: vs, w => (v.refusal t w).or (firstRefusal t vs (behind t [v] w))

theorem firstRefusal_eq_none_iff (t : ItemType) (vs : List Value) (w : Writer) :
    firstRefusal t vs w = none ↔ ∀ pre v post, vs = pre ++ v :: post → v.refusal t (behind t pre w) = none := by
  induction vs generalizing w with
  | nil => simp [firstRefusal]
  | cons x vs ih =>
    rw [firstRefusal, Option.or_eq_none_iff, ih]
    constructor
    · rintro ⟨hx, hvs⟩ pre v post h
      cases pre with
      | nil =>
        obtain ⟨rfl, -⟩ := List.cons.inj h
        exact hx
      | cons y pre =>
        obtain ⟨rfl, htail⟩ := List.cons.inj h
        exact hvs pre v post htail
    · exact fun h => ⟨h [] x vs rfl, fun pre v post hvs => h (x :: pre) v post (congrArg (x :: ·) hvs)⟩

/-- values that nothing stands against do not hide what stands against the next -/
theorem firstRefusal_append {t : ItemType} {pre : List Value} {w : Writer} (h : firstRefusal t pre w = none)
    {v : Value} {f : Fault} (hv : v.refusal t (behind t pre w) = some f) (post : List Value) :
    firstRefusal t (pre ++ v :: post) w = some f := by
  induction pre generalizing w with
  | nil => exact congrArg (Option.or · _) hv
  | cons x pre ih =>
    rw [firstRefusal, Option.or_eq_none_iff] at h
    rw [List.cons_append, firstRefusal, h.1]
    exact ih h.2 hv

end Value

namespace Dispatch

variable {α β : Type}

theorem peak_le_bind (d : Dispatch α) (next : α → Levels → Dispatch β) (stop : α → β) :
    d.out.peak ≤ (d.bind next stop).out.peak := by
  unfold bind
  split
  · exact Nat.le_max_left ..
  · exact Nat.le_refl _

/-- a list asks for the room that is made ahead for it -/
theorem ahead_le_peak (order : ByteOrder) (t : ItemType) (vs : List Value) (s : Levels) :
    vs.length * t.minEncodedLength + lengthPrefixSize ≤ ((Field.items .list t vs).dispatch order s).out.peak := by
  have hcount : vs.length * t.minEncodedLength + lengthPrefixSize ≤
      (ofLayout () order (.counted order .list t vs.length) s).out.peak := by
    unfold ofLayout
    split <;> exact Nat.le_max_left ..
  rw [Field.dispatch]
  exact Nat.le_trans hcount (peak_le_bind ..)

end Dispatch

namespace Writer

variable {α β : Type}

/-- how an act ends that something may stand against -/
def verdict : Option Fault → Except Fault Bool
  | none => .ok true
  | some f => .error f

theorem Fits.mono {w : Writer} {m n : Nat} (h : w.Fits n) (hm : m ≤ n) : w.Fits m :=
  Nat.le_trans (Nat.add_le_add_left hm _) h

theorem verdict_eq_ok_iff (o : Option Fault) : verdict o = .ok true ↔ o = none := by
  cases o <;> simp [verdict]

/-- where there is room for two calls in a row, there is for the first, and then for the second -/
theorem Carries.fits_bind {w : Writer} {s : Sent α} {d : Dispatch α} (h : Carries w s d)
    {next : α → Levels → Dispatch β} {stop : α → β} (hf : w.Fits (d.bind next stop).out.peak) :
    w.Fits d.out.peak ∧ (s.result = .ok true → s.writer.Fits (next s.left s.writer.nesting.view).out.peak) := by
  have hfit : w.Fits d.out.peak := hf.mono (Dispatch.peak_le_bind d next stop)
  have ht := h.tells hfit
  refine ⟨hfit, fun hs => ?_⟩
  rw [Dispatch.bind_of_done (ht.result.symm.trans hs)] at hf
  rw [h.keeps.fits_iff, ht.position, Nat.add_sub_cancel_left, ht.left, ht.levels]
  exact hf.mono (Nat.le_max_right ..)

/-! ## The values, one by one -/

theorem result_value {v : Value} {t : ItemType} {w : Writer} (hw : w.Inside)
    (hfits : w.Fits (v.dispatch w.order t w.nesting.view).out.peak) :
    (sent () (v.write t) w).result = verdict (v.refusal t w) := by
  have htells := (v.carries t hw).tells hfits
  cases v with
  | null =>
    rw [htells.result, Value.dispatch, Value.refusal]
    split
    · cases t <;> rfl
    · rfl
  | data d =>
    rw [htells.result, Value.dispatch, Value.refusal]
    split
    · rw [Dispatch.ofLayout, Datum.result_layout]
      by_cases hcount : d.count ≤ maxBufferSize <;> simp only [hcount, if_true, if_false] <;> rfl
    · rfl
  | message m =>
    by_cases ht : t = .message
    · have hi : (enter w).Inside := hw
      have hdepth : (m.write (enter w)).writer.depth = w.depth + 1 :=
        (m.carries hi).keeps.depth.trans w.nesting.depth_forward
      rw [Value.write_message ht, Value.refusal, if_pos ht]
      simp only [sent, leave_eq (s := m.write (enter w)) (by rw [hdepth]; exact Nat.succ_ne_zero _)]
      rcases (m.write (enter w)).result with (e | _) | (_ | _) <;> rfl
    · rw [Value.write_message_ne ht, Value.refusal, if_neg ht]
      rfl

theorem result_values {vs : List Value} {t : ItemType} {w : Writer} (hw : w.Inside)
    (hfits : w.Fits (Value.dispatchAll w.order t vs w.nesting.view).out.peak) :
    (sent () (Value.writeAll t vs) w).result = verdict (Value.firstRefusal t vs w) := by
  induction vs generalizing w with
  | nil => rfl
  | cons v vs ih =>
    have hv := v.carries t hw
    rw [Value.dispatchAll] at hfits
    obtain ⟨hfit, hrest⟩ := hv.fits_bind hfits
    have hres := result_value hw hfit
    rw [Value.writeAll, sent_bind, Value.firstRefusal]
    cases hr : v.refusal t w with
    | none =>
      rw [hr] at hres
      have hdone : (sent () (v.write t) w).result = .ok true := hres
      rw [← hv.keeps.order] at hrest
      simp only [Sent.bind, hdone, Option.none_or]
      exact ih hv.keeps.inside (hrest hdone)
    | some f =>
      rw [hr] at hres
      have hstop : (sent () (v.write t) w).result = .error f := hres
      simp only [Sent.bind, hstop, Option.some_or]
      rfl

/-! ## The three ways -/

/-- two calls that came to the same and left their sessions alike, as far as the buffer has been written -/
structure Coincide (s t : Sent α) : Prop where
  result : s.result = t.result
  written : s.writer.written = t.writer.written
  position : s.writer.position = t.writer.position
  failed : s.writer.failed = t.writer.failed
  nesting : s.writer.nesting = t.writer.nesting

theorem coincide_of_ample {s t : Sent α} (hs : s.writer.Inside) (ht : t.writer.Inside) (result : s.result = t.result)
    (h : s.writer.ample = t.writer.ample) : Coincide s t where
  result := result
  written :=
    calc s.writer.written = s.writer.ample.written := (written_ample hs).symm
      _ = t.writer.ample.written := congrArg written h
      _ = t.writer.written := written_ample ht
  position := show s.writer.ample.position = t.writer.ample.position by rw [h]
  failed := show s.writer.ample.failed = t.writer.ample.failed by rw [h]
  nesting := show s.writer.ample.nesting = t.writer.ample.nesting by rw [h]

/-- a list has its room made ahead, and is written as a collection then -/
theorem write_list (t : ItemType) (vs : List Value) (w : Writer) :
    (Field.items .list t vs).write w =
      match reserve (t.ahead vs.length) w with
      | .ok _ u => ((Field.items .collection t vs).write u).map fun _ => .items .list t vs
      | .error f u => ⟨.error f, u, .items .list t vs⟩ := by
  have hcount : sent () (writeCount .list t vs.length) w = match reserve (t.ahead vs.length) w with
      | .ok _ u => sent () (writeCount .collection t vs.length) u
      | .error f u => ⟨.error f, u, ()⟩ := by
    unfold ItemType.ahead
    simp only [writeCount, if_true, sent, bind_eq]
    cases reserve (vs.length * t.minEncodedLength + lengthPrefixSize) w <;> rfl
  rw [Field.write_items, hcount]
  cases reserve (t.ahead vs.length) w with
  | ok _ u =>
    simp only [Field.write_items]
    rfl
  | error f u => rfl

/-- whichever way values are written, it is the way of a collection, in a session that is no other once it is enlarged -/
theorem write_items_ample (way : Listing) (t : ItemType) (vs : List Value) {w : Writer} (hfits : w.Fits (t.ahead vs.length)) :
    ∃ v : Writer, v.ample = w.ample ∧
      (Field.items way t vs).write w = ((Field.items .collection t vs).write v).map fun _ => .items way t vs := by
  cases way with
  | array | collection =>
    refine ⟨w, rfl, ?_⟩
    simp only [Field.write_items]
    rfl
  | list =>
    refine ⟨w.grow (t.ahead vs.length), w.ample_grow _, ?_⟩
    rw [write_list, reserve_eq, if_pos hfits]

theorem coincide_items {w : Writer} (hw : w.Inside) {t : ItemType} {vs : List Value} (hfits : w.Fits (t.ahead vs.length))
    (way way' : Listing) :
    Coincide ((Field.items way t vs).write w) ((Field.items way' t vs).write w) := by
  have hs := ((Field.items way t vs).carries hw).keeps.inside
  have ht := ((Field.items way' t vs).carries hw).keeps.inside
  obtain ⟨u, hu, hwrite⟩ := write_items_ample way t vs hfits
  obtain ⟨v, hv, hwrite'⟩ := write_items_ample way' t vs hfits
  rw [hwrite] at hs ⊢
  rw [hwrite'] at ht ⊢
  have key : ((Field.items .collection t vs).write u).ample = ((Field.items .collection t vs).write v).ample := by
    rw [← Field.write_ample, ← Field.write_ample, hu, hv]
  have hresult : ((Field.items .collection t vs).write u).ample.result =
      ((Field.items .collection t vs).write v).ample.result := congrArg Sent.result key
  have hwriter : ((Field.items .collection t vs).write u).writer.ample =
      ((Field.items .collection t vs).write v).writer.ample := congrArg Sent.writer key
  exact coincide_of_ample hs ht hresult hwriter

/-- where a session stands behind a count and some of the values it counts -/
def amid (w : Writer) (t : ItemType) (n : Nat) (vs : List Value) : Writer :=
  Value.behind t vs (sent () (putLength n) w).writer

theorem result_items {w : Writer} (hw : w.Inside) {t : ItemType} {vs : List Value}
    (hfits : w.Fits ((Field.items .collection t vs).dispatch w.order w.nesting.view).out.peak)
    (hcount : vs.length ≤ maxBufferSize) :
    ((Field.items .collection t vs).write w).result = verdict (Value.firstRefusal t vs (w.amid t vs.length [])) := by
  have hc := Carries.ofLayout (lays_writeCount .collection t vs.length) hw ()
  rw [Field.dispatch] at hfits
  obtain ⟨hfit, hrest⟩ := hc.fits_bind hfits
  have hdone : (sent () (writeCount .collection t vs.length) w).result = .ok true := by
    rw [(hc.tells hfit).result, Dispatch.ofLayout, show Layout.counted w.order .collection t vs.length =
      .count w.order vs.length .done from rfl, Layout.result_count, if_pos hcount]
    rfl
  rw [← hc.keeps.order] at hrest
  rw [Field.write_items]
  simp only [Sent.bind, hdone, Sent.map]
  exact result_values hc.keeps.inside (hrest hdone)

/-- **A list, a collection and an array of the same values come to the same**, in any session and whatever its buffer is
and holds: the same bytes behind those that were there, the same result, position, mark and levels, refused or not. They
are refused as the first value is that something stands against. They succeed exactly if every value is of the kind, or
absent where that may be, and every message comes to its end in its one call; arrays that are longer than the largest
buffer are not spoken of there. Each value is judged where those in front of it have left the session. -/
theorem items_coincide {w : Writer} (hw : w.Inside) (t : ItemType) (vs : List Value)
    (hroom : ∀ way, w.position + ((Field.items way t vs).dispatch w.order w.nesting.view).out.peak ≤ maxBufferSize) :
    (∀ way way', Coincide ((Field.items way t vs).write w) ((Field.items way' t vs).write w)) ∧
      ∀ way, (∃ out, ((Field.items way t vs).write w).writer.written = w.written ++ out) ∧
        (∀ pre v post f, vs = pre ++ v :: post →
          (∀ pre' u post', pre = pre' ++ u :: post' → u.refusal t (w.amid t vs.length pre') = none) →
          v.refusal t (w.amid t vs.length pre) = some f → ((Field.items way t vs).write w).result = .error f) ∧
        ((∀ d, .data d ∈ vs → d.count ≤ maxBufferSize) →
          (((Field.items way t vs).write w).result = .ok true ↔
            ∀ pre v post, vs = pre ++ v :: post → v.Taken t (w.amid t vs.length pre))) := by
  have hfits : ∀ way, w.Fits ((Field.items way t vs).dispatch w.order w.nesting.view).out.peak := fun way =>
    Nat.le_trans (hroom way) (Nat.le_max_right ..)
  have hahead := Dispatch.ahead_le_peak w.order t vs w.nesting.view
  have hcount : vs.length ≤ maxBufferSize := by
    have hle := Nat.le_mul_of_pos_right vs.length t.minEncodedLength_pos
    have := hroom .list
    omega
  have hsame := coincide_items hw ((hfits .list).mono hahead)
  have hnone := Value.firstRefusal_eq_none_iff t
  refine ⟨hsame, fun way => ⟨((Field.items way t vs).carries hw).keeps.written_append, ?_⟩⟩
  rw [(hsame way .collection).result, result_items hw (hfits .collection) hcount]
  constructor
  · rintro pre v post f rfl hpre hv
    exact congrArg verdict (Value.firstRefusal_append ((hnone ..).2 hpre) hv post)
  · intro hlong
    have htaken : ∀ pre v post, vs = pre ++ v :: post →
        (v.refusal t (w.amid t vs.length pre) = none ↔ v.Taken t (w.amid t vs.length pre)) := by
      rintro pre v post rfl
      exact Value.refusal_eq_none_iff _ _ fun d hd => hlong d (by simp [hd])
    rw [verdict_eq_ok_iff, amid, Value.behind, List.foldl_nil, hnone]
    exact forall₃_congr fun pre v post => forall_congr' (htaken pre v post)

/-- a record whose object breaks off behind the place of its size and two bytes -/
def brokenRecord : Message :=
  .record 9 [.object .any (.array [.bool true, .unwritable])]

def brokenItems : List Value :=
  [.message (.leaf 7 none), .null, .message brokenRecord]

/-- a session behind two bytes of a used buffer -/
def usedSession : Writer where
  frame := Frame.empty.setPosition 2
  scratch := .filled 18 170
  nesting := .ofCapacity 1
  order := .big
  failed := false

theorem inside_usedSession : usedSession.Inside := by
  change 2 ≤ 18
  decide

theorem broken_items_coincide :
    (∀ way, Coincide ((Field.items way .message brokenItems).write usedSession)
      ((Field.items .collection .message brokenItems).write usedSession)) ∧
    (∃ out, ((Field.items .list .message brokenItems).write usedSession).writer.written =
      usedSession.written ++ out) ∧
    ((Field.items .list .message brokenItems).write usedSession).result = .error (.error .packEncode) := by
  have hroom : ∀ way, usedSession.position +
      ((Field.items way .message brokenItems).dispatch .big usedSession.nesting.view).out.peak ≤ maxBufferSize := by
    intro way
    cases way <;> decide +kernel
  obtain ⟨hsame, hitems⟩ := items_coincide inside_usedSession .message brokenItems hroom
  obtain ⟨hout, hfirst, -⟩ := hitems .list
  refine ⟨fun way => hsame way .collection, hout,
    hfirst [.message (.leaf 7 none), .null] (.message brokenRecord) [] _ rfl ?_ (by decide +kernel)⟩
  intro pre v post h
  rcases pre with _ | ⟨x, _ | ⟨y, pre⟩⟩
  · cases h
    decide +kernel
  · cases h
    decide +kernel
  · simp at h

/-- a byte array of zeros, as a value -/
def blankBytes (n : Nat) : Value :=
  .data (.byteArray (List.replicate n 0))

theorem layout_oversize (order : ByteOrder) {bs : Bytes} (hlong : maxBufferSize < bs.length) :
    (Datum.byteArray bs).layout order = .refuse (.capacityOverflow bs.length) := by
  have hn : ¬ bs.length ≤ 2147483647 := Nat.not_le.2 hlong
  simp only [Datum.layout, Layout.byteArray, Layout.count, encodeLength, if_neg hn]

/-- room for a count and for the least that the array may take, and for nothing of what is in it -/
theorem peak_oversize {bs : Bytes} (hlong : maxBufferSize < bs.length) (way : Listing) :
    ((Field.items way .byteArray [.data (.byteArray bs)]).dispatch usedSession.order usedSession.nesting.view).out.peak ≤
      8 := by
  simp only [Field.dispatch, Value.dispatchAll, Value.dispatch, Datum.itemType, if_true, layout_oversize _ hlong]
  cases way <;> exact Nat.le_of_ble_eq_true rfl

/-- **An array may be longer than the largest buffer has bytes**, and is refused then. It is of the kind, and no more room
is asked for than for the count in front of it and the least that it may take. -/
theorem oversize_array_refused :
    usedSession.Inside ∧
    (∀ way, usedSession.position + ((Field.items way .byteArray [blankBytes 2147483648]).dispatch usedSession.order
      usedSession.nesting.view).out.peak ≤ maxBufferSize) ∧
    (∀ pre v post, [blankBytes 2147483648] = pre ++ v :: post → v.Taken .byteArray (usedSession.amid .byteArray 1 pre)) ∧
    ∀ way, ((Field.items way .byteArray [blankBytes 2147483648]).write usedSession).result =
      .error (.error (.capacityOverflow 2147483648)) := by
  have hlength : (List.replicate 2147483648 (0 : UInt8)).length = 2147483648 := List.length_replicate
  unfold blankBytes
  generalize List.replicate 2147483648 (0 : UInt8) = bs at hlength ⊢
  have hlong : maxBufferSize < bs.length := by
    rw [hlength]
    decide
  have hroom : ∀ way, usedSession.position + ((Field.items way .byteArray [.data (.byteArray bs)]).dispatch
      usedSession.order usedSession.nesting.view).out.peak ≤ maxBufferSize := fun way =>
    Nat.le_trans (Nat.add_le_add_left (peak_oversize hlong way) _) (by decide)
  have hfits : ∀ way, usedSession.Fits ((Field.items way .byteArray [.data (.byteArray bs)]).dispatch usedSession.order
      usedSession.nesting.view).out.peak := fun way => Nat.le_trans (hroom way) (Nat.le_max_right ..)
  refine ⟨inside_usedSession, hroom, fun pre v post h => ?_, fun way => ?_⟩
  · rcases pre with _ | ⟨x, pre⟩
    · obtain ⟨rfl, -⟩ := List.cons.inj h
      rfl
    · simp at h
  · have hahead := Dispatch.ahead_le_peak usedSession.order .byteArray [.data (.byteArray bs)] usedSession.nesting.view
    have hone : 1 ≤ maxBufferSize := by decide
    rw [(coincide_items inside_usedSession ((hfits .list).mono hahead) way .collection).result,
      result_items inside_usedSession (hfits .collection) hone]
    simp only [Value.firstRefusal, Value.refusal, Datum.itemType, if_true, Datum.count, hlength]
    rfl

end Writer

end Courier
