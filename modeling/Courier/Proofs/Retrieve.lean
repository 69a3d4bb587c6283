import Courier.Proofs.Agree
import Courier.Proofs.Layout
import Courier.Proofs.Reads

/-!
What a read gives on the bytes of a datum, and on those of a message.

The bytes of a datum are those of its layout. A message begins with its direct type, and what the blueprint of that
type gives on the bytes behind it is up to its fields: `Headed` says that these are read back. From there on it is the
same for a nested message, which is read one level down, and for the outermost one.

`gives_datum`, `gives_absentDatum`: a datum, or none.
`Headed.nested`, `Headed.root`: a message at its place.
-/

namespace Courier

open Writer Reader

/-! ## Data -/

namespace Layout

/-- a count that is not refused, and what stands behind it -/
theorem count_done {order : ByteOrder} {n : Nat} {next : Layout} (h : (count order n next).result = .ok ()) :
    n ≤ 2147483647 ∧ next.result = .ok () ∧ ((count order n next).output order).bytes =
      Fixed.bytes order.swap (Int32.ofNat n) ++ (next.output order).bytes := by
  unfold count at h ⊢
  by_cases hn : n ≤ 2147483647
  · simp only [encodeLength, if_pos hn] at h ⊢
    exact ⟨hn, h, rfl⟩
  · simp only [encodeLength, if_neg hn] at h
    cases h

theorem counted_done {order : ByteOrder} {way : Listing} {t : ItemType} {n : Nat}
    (h : (counted order way t n).result = .ok ()) :
    n ≤ 2147483647 ∧
      ((counted order way t n).output order).bytes = Fixed.bytes order.swap (Int32.ofNat n) := by
  have key : (count order n .done).result = .ok () → n ≤ 2147483647 ∧
      ((count order n .done).output order).bytes = Fixed.bytes order.swap (Int32.ofNat n) := by
    intro h
    obtain ⟨hn, -, hb⟩ := count_done h
    exact ⟨hn, hb.trans (List.append_nil _)⟩
  unfold counted at h ⊢
  by_cases hw : way = .list
  · simp only [if_pos hw] at h ⊢
    exact key h
  · simp only [if_neg hw] at h ⊢
    exact key h

theorem object_done {order : ByteOrder} {e : Emission} (h : (object e).result = .ok ()) :
    e.pieces.flatten.length ≤ 2147483647 ∧ ((object e).output order).bytes =
      Fixed.bytes order.swap (Int32.ofNat e.pieces.flatten.length) ++ e.pieces.flatten := by
  refine ⟨?_, rfl⟩
  by_contra hn
  rw [result, encodeLength, if_neg hn] at h
  cases hc : e.complete <;> rw [hc] at h <;> cases h

theorem bytes_fixed_done {α : Type} [Fixed α] (order : ByteOrder) (v : α) :
    ((fixed order v .done).output order).bytes = Fixed.bytes order.swap v :=
  List.append_nil _

theorem byteArray_done {order : ByteOrder} {bs : Bytes} (h : (byteArray order bs).result = .ok ()) :
    bs.length ≤ 2147483647 ∧
      ((byteArray order bs).output order).bytes = Fixed.bytes order.swap (Int32.ofNat bs.length) ++ bs := by
  obtain ⟨hn, -, hb⟩ := count_done h
  exact ⟨hn, hb.trans (congrArg (_ ++ ·) (List.append_nil bs))⟩

end Layout

theorem Bytes.eq_of_slice {bs part : Bytes} {offset len : Nat} (h : Bytes.slice bs offset (offset + len) = some part) :
    (bs.drop offset).take len = part := by
  unfold Bytes.slice at h
  split at h
  · rw [Nat.add_sub_cancel_left] at h
    exact Option.some.inj h
  · cases h

theorem Datum.itemType_ne_message (d : Datum) : d.itemType ≠ .message := by
  cases d <;> exact fun h => by cases h

variable {c : Terms}

theorem Reader.gives_numbers {α : Type} [Fixed α] {vs : List α} (hmax : vs.length ≤ c.maxLength)
    (hr : (Layout.array c.order vs).result = .ok ()) :
    Gives c (takeArray α) ((Layout.array c.order vs).output c.order).bytes (· = some vs) := by
  obtain ⟨hn, -, hb⟩ := Layout.count_done hr
  rw [Layout.array, hb]
  have h := gives_array hmax hn
  rwa [← List.append_nil (Fixed.run c.order.swap vs)] at h


/-- a datum is read as it was written -/
theorem Reader.gives_datum {d : Datum} (hmax : d.count ≤ c.maxLength) (hr : (d.layout c.order).result = .ok ()) :
    Gives c (readDatum d.itemType) ((d.layout c.order).output c.order).bytes (· = some d) := by
  cases d with
  | byte v => exact (gives_byte c v).bind fun a h => Gives.pure (by rw [h])
  | short v => exact (gives_fixed c v).bind fun a h => Gives.pure (by rw [h])
  | int v => exact (gives_int c v).bind fun a h => Gives.pure (by rw [h])
  | long v => exact (gives_long c v).bind fun a h => Gives.pure (by rw [h])
  | float v => exact (gives_fixed c v).bind fun a h => Gives.pure (by rw [h])
  | double v => exact (gives_fixed c v).bind fun a h => Gives.pure (by rw [h])
  | char v => exact (gives_fixed c v).bind fun a h => Gives.pure (by rw [h])
  | boolean v => exact (gives_boolean c v).bind fun a h => Gives.pure (by rw [h])
  | byteArray vs =>
    obtain ⟨hn, hb⟩ := Layout.byteArray_done hr
    rw [Datum.layout, hb]
    exact (gives_byteArray hmax hn).map fun a h => by rw [h]; rfl
  | shortArray vs => exact (gives_numbers hmax hr).map fun a h => by rw [h]; rfl
  | intArray vs => exact (gives_numbers hmax hr).map fun a h => by rw [h]; rfl
  | longArray vs => exact (gives_numbers hmax hr).map fun a h => by rw [h]; rfl
  | floatArray vs => exact (gives_numbers hmax hr).map fun a h => by rw [h]; rfl
  | doubleArray vs => exact (gives_numbers hmax hr).map fun a h => by rw [h]; rfl
  | charArray vs => exact (gives_numbers hmax hr).map fun a h => by rw [h]; rfl
  | booleanArray vs =>
    obtain ⟨hn, -, hb⟩ := Layout.count_done hr
    rw [Datum.layout, hb]
    refine Gives.map (P := (· = some vs)) ?_ fun a h => by rw [h]; rfl
    have h := gives_booleanArray hmax hn
    rwa [← List.append_nil (boolBytes vs)] at h
  | string s =>
    obtain ⟨hn, hb⟩ := Layout.byteArray_done hr
    rw [Datum.layout, hb]
    exact (gives_string hmax hn).map fun a h => by rw [h]; rfl
  | bitSet s =>
    obtain ⟨hn, -, hb⟩ := Layout.count_done hr
    rw [Datum.layout, Layout.array, hb]
    refine Gives.map (P := (· = some s)) ?_ fun a h => by rw [h]; rfl
    have h := gives_bitSet hmax hn
    rwa [← List.append_nil (Fixed.run c.order.swap s.words)] at h
  | uuid v =>
    refine Gives.map (P := (· = some v)) ?_ fun a h => by rw [h]; rfl
    have h := gives_uuid c v
    rwa [← List.append_nil (Varint.encode64 v.least.toInt64)] at h
  | extendedUuid v =>
    refine Gives.map (P := (· = some v)) ?_ fun a h => by rw [h]; rfl
    have h := gives_extendedUuid c v
    rwa [List.append_assoc, ← List.append_nil (Varint.encode64 v.localId)] at h

/-- what stands for an absent datum is read as none -/
theorem Reader.gives_absentDatum {t : ItemType} (ht : t.isNullable = true) (hm : t ≠ .message) :
    Gives c (readDatum t) ((t.absentLayout c.order).output c.order).bytes (· = none) := by
  cases t with
  | message => exact absurd rfl hm
  | byte | short | int | long | float | double | char | boolean => cases ht
  | byteArray | booleanArray | string =>
    refine Gives.map (P := (· = none)) ?_ fun a h => by rw [h]; rfl
    exact (gives_absent c _ _).bind fun n hn => by rw [hn]; exact .pure rfl
  | shortArray | intArray | longArray | floatArray | doubleArray | charArray =>
    exact (gives_absentArray c _).bind fun a h => by rw [h]; exact .pure rfl
  | bitSet =>
    refine Gives.map (P := (· = none)) ?_ fun a h => by rw [h]; rfl
    exact (gives_absentArray c _).bind fun a h => by rw [h]; exact .pure rfl
  | uuid | extendedUuid =>
    refine Gives.map (P := (· = none)) ?_ fun a h => by rw [h]; rfl
    exact (gives_boolean c true).bind fun b hb => by rw [hb]; exact .pure rfl

/-! ## Messages at a place -/

/-- where all levels are clear, they are once one of them is cleared -/
theorem Levels.blank_update {s : Levels} (h : ∀ i, s.level i = .blank) (i : Nat) : (s.update .blank).level i = .blank := by
  by_cases hi : i = s.depth
  · rw [hi]
    exact s.level_update_self .blank
  · exact (s.level_update_of_ne .blank hi).trans (h i)

namespace Reader

theorem gives_blueprint {type : Int16} {b : Blueprint} (ht : type ≠ nullMessageType) (hb : c.factory type = some b) :
    Gives c readBlueprint (Fixed.bytes c.order.swap type) (· = some b) := by
  apply (gives_fixed c type).bind_nil
  intro raw hraw
  rw [hraw, if_neg ht]
  apply Gives.get
  intro r hr
  have hf : r.factory = c.factory := congrArg Terms.factory hr
  rw [hf, hb]
  exact .pure rfl

theorem gives_noBlueprint (c : Terms) : Gives c readBlueprint (Fixed.bytes c.order.swap nullMessageType) (· = none) := by
  apply (gives_fixed c nullMessageType).bind_nil
  intro raw hraw
  rw [hraw, if_pos rfl]
  exact .pure rfl

/-- an absent message -/
theorem gives_noMessage (c : Terms) (j : Nat) (place : Place) (hj : 0 < j) :
    Gives c (follow j place) (Fixed.bytes c.order.swap nullMessageType) (· = none) := by
  obtain ⟨j, rfl⟩ := Nat.exists_eq_succ_of_ne_zero (Nat.ne_of_gt hj)
  exact (gives_noBlueprint c).bind_nil fun b hb => by rw [hb]; exact .pure rfl

/-- an item that holds a message, or none -/
theorem gives_itemMessage {messageAt : Place → Reading (Option Message)} {bs : Bytes} {P : Option Message → Prop}
    {Q : Value → Prop} (h : Gives c (messageAt .nested) bs P) (hm : ∀ n, P (some n) → Q (.message n))
    (h0 : P none → Q .null) : Gives c (itemWith messageAt .message) bs Q :=
  h.bind_nil fun o ho => by
    cases o with
    | none => exact .pure (h0 ho)
    | some n => exact .pure (hm n ho)

/-- an item that holds a datum, or none -/
theorem gives_itemDatum {messageAt : Place → Reading (Option Message)} {t : ItemType} (ht : t ≠ .message) {bs : Bytes}
    {P : Option Datum → Prop} {Q : Value → Prop} (h : Gives c (readDatum t) bs P) (hd : ∀ d, P (some d) → Q (.data d))
    (h0 : P none → Q .null) : Gives c (itemWith messageAt t) bs Q := by
  rw [itemWith, if_neg ht]
  apply h.bind_nil
  intro o ho
  cases o with
  | none => exact .pure (h0 ho)
  | some d => exact .pure (hd d ho)

/-- what is given one level down -/
theorem Gives.below {β : Type} {act : Reading β} {bs : Bytes} {Q : β → Prop} (h : Gives c act bs Q) :
    Gives c (below act) bs Q := by
  intro r rest hr
  have hclear : ∀ i, (r.onNesting .forward).nesting.level i = .blank := fun i =>
    (congrFun (congrArg Levels.level r.nesting.view_forward) i).trans (hr.clear i)
  obtain ⟨a, s, ha, hs, hq⟩ := h (r.onNesting .forward) rest
    ⟨hr.terms, hclear, hr.position_le, hr.limit_le, hr.window⟩
  have hd : s.depth = r.depth + 1 := hs.depth.trans r.nesting.depth_forward
  refine ⟨a, s.onNesting (·.retreat true), ?_, ⟨hs.frame, hs.terms, fun i => ?_, ?_⟩, hq⟩
  · simp only [Reader.below, ha]
    rw [if_neg (by omega)]
  · have hv := congrFun (congrArg Levels.level (s.nesting.view_retreat true)) i
    exact hv.trans (Levels.blank_update hs.clear i)
  · calc (s.onNesting (·.retreat true)).depth = s.depth - 1 := s.nesting.depth_retreat true
      _ = r.depth + 1 - 1 := by rw [hd]
      _ = r.depth := Nat.add_sub_cancel ..

/-- the header of a message, and behind it fields that the blueprint of its type reads back -/
def Headed (c : Terms) (m : Message) (bs : Bytes) : Prop :=
  ∃ b fb, c.factory m.type = some b ∧ bs = Fixed.bytes c.order.swap m.type ++ fb ∧
    ∀ j, fb.length < j → Gives c (bodyWith (follow j) b) fb fun n => m.Agrees c.factory n

theorem Headed.nested {m : Message} {bs : Bytes} (h : Headed c m bs) (ht : m.type ≠ nullMessageType) {j : Nat}
    (hj : bs.length < j) : Gives c (follow j .nested) bs fun o => ∃ n, o = some n ∧ m.Agrees c.factory n := by
  obtain ⟨b, fb, hb, rfl, hbody⟩ := h
  cases j with
  | zero => exact absurd hj (Nat.not_lt_zero _)
  | succ j =>
    rw [List.length_append, Fixed.length_bytes] at hj
    have hfb : fb.length < j := by
      simp only [Fixed.size] at hj
      omega
    apply (gives_blueprint ht hb).bind
    intro a ha
    rw [ha]
    exact (hbody j hfb).below.map fun n hn => ⟨n, rfl, hn⟩

/-- the outermost message -/
theorem Headed.root {m : Message} {bs rest : Bytes} (h : Headed c m bs) (ht : m.type ≠ nullMessageType) {r : Reader}
    (hr : Shows c r (bs ++ rest)) (hd : r.depth = 0) :
    ∃ n s, readRoot r = .ok (some n) s ∧ Moved r s bs.length ∧ m.Agrees c.factory n := by
  obtain ⟨b, fb, hb, rfl, hbody⟩ := h
  have hrem := hr.remaining
  rw [List.append_assoc] at hr
  obtain ⟨_, s, hs, hms, rfl⟩ := gives_blueprint ht hb r _ hr
  have hfb : fb.length < r.remaining := by
    rw [hrem, List.length_append, List.length_append, Fixed.length_bytes]
    simp only [Fixed.size]
    omega
  obtain ⟨n, t, hn, hmt, hag⟩ := hbody _ hfb s rest (hr.moved hms)
  have hdep : t.depth = 0 := hmt.depth.trans (hms.depth.trans hd)
  have hread : readRoot r = .ok (some n) (t.onNesting .wipe) := by
    change follow (r.remaining + 1) .root r = _
    rw [follow, bind_eq, hs]
    simp only [bind_eq, onLevel, hn, hdep, if_true]
    rfl
  refine ⟨n, t.onNesting .wipe, hread, ?_, hag⟩
  rw [List.length_append]
  have hm := hms.trans hmt
  refine ⟨hm.frame, hm.terms, fun i => ?_, ?_⟩
  · have hv := congrFun (congrArg Levels.level t.nesting.view_wipe) i
    exact hv.trans (Levels.blank_update hm.clear i)
  · exact t.nesting.depth_wipe.trans hm.depth

end Reader

end Courier
