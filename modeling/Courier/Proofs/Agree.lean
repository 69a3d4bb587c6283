import Courier.Handler
import Courier.Proofs.Steady

/-!
When a message that was read agrees with one that was written.

A message is `Expected` by a factory and a largest length if the factory answers the direct type of every message in
it with kinds that read the fields as they were written, in the same order, and if no length, count or object size
goes beyond the largest length. A message that was read `Agrees` with one that was written if it is of the kind that
the factory makes for it and if its fields agree one by one: data and absent data are equal, a map is what comes of
inserting its entries in order, and pauses do not count.

`Message.resumable_of_expected`: nothing but the calls on an expected message moves cursors and header marks.
-/

namespace Courier

/-- the number of elements that travels in front of a datum, or zero where none does -/
def Datum.count : Datum → Nat
  | .byteArray vs => vs.length
  | .shortArray vs => vs.length
  | .intArray vs => vs.length
  | .longArray vs => vs.length
  | .floatArray vs => vs.length
  | .doubleArray vs => vs.length
  | .charArray vs => vs.length
  | .booleanArray vs => vs.length
  | .string s => (Utf8.encode s).length
  | .bitSet s => s.words.length
  | _ => 0

mutual

/-- whether the factory answers every type in a message with the kinds of its fields, and no length goes beyond the
largest one -/
def Message.Expected (factory : Factory) (maxLength : Nat) : Message → Prop
  | .mk kind fs _ =>
    kind.type ≠ nullMessageType ∧
      ∃ b, factory kind.type = some b ∧ Field.ExpectedAll factory maxLength fs b.schema
termination_by structural m => m

/-- whether a field is read by a field of that kind -/
def Field.Expected (factory : Factory) (maxLength : Nat) : Field → FieldKind → Prop
  | .data d, .data t => t = d.itemType ∧ d.count ≤ maxLength
  | .absent t, .data u => u = t ∧ t.isNullable = true ∧ t ≠ .message
  | .item t v, .item u => u = t ∧ v.Expected factory maxLength
  | .fixedInt _, .fixedInt => True
  | .fixedLong _, .fixedLong => True
  | .range _ _ len, .data t => t = .byteArray ∧ len ≤ maxLength
  | .raw bs, .raw n => n = bs.length ∧ n ≤ maxAllocation
  | .object shape p, .object shape' =>
    shape' = shape ∧ p.emission.pieces.flatten.length ≤ maxLength ∧
      ((Pack.decoder shape).run p.emission.pieces.flatten).1 = some p
  | .items _ t vs, .items _ u => u = t ∧ vs.length ≤ maxLength ∧ Value.ExpectedAll factory maxLength vs
  | .map kt vt _ es, .map ku vu _ =>
    ku = kt ∧ vu = vt ∧ es.length ≤ maxLength ∧ Value.ExpectedEntries factory maxLength es
  | .nothing, .items .. => True
  | .nothing, .map .. => True
  | .message none, .message => True
  | .message (some m), .message => m.Expected factory maxLength
  | _, _ => False
termination_by structural f => f

def Field.ExpectedAll (factory : Factory) (maxLength : Nat) : List Field → List FieldKind → Prop
  | [], [] => True
  | f :: fs, k :: ks => f.Expected factory maxLength k ∧ Field.ExpectedAll factory maxLength fs ks
  | _, _ => False
termination_by structural fs => fs

def Value.Expected (factory : Factory) (maxLength : Nat) : Value → Prop
  | .null => True
  | .data d => d.count ≤ maxLength
  | .message m => m.Expected factory maxLength
termination_by structural v => v

def Value.ExpectedAll (factory : Factory) (maxLength : Nat) : List Value → Prop
  | [] => True
  | v :: vs => v.Expected factory maxLength ∧ Value.ExpectedAll factory maxLength vs
termination_by structural vs => vs

def Value.ExpectedEntries (factory : Factory) (maxLength : Nat) : List (Value × Value) → Prop
  | [] => True
  | (k, v) :: es =>
    (k.Expected factory maxLength ∧ v.Expected factory maxLength) ∧ Value.ExpectedEntries factory maxLength es
termination_by structural es => es

end

mutual

/-- whether what was read agrees with what was written -/
def Message.Agrees (factory : Factory) : Message → Message → Prop
  | .mk kind fs _, n =>
    (factory kind.type).map Blueprint.kind = some n.kind ∧ Field.AgreesAll factory fs n.fields
termination_by structural m => m

def Field.Agrees (factory : Factory) : Field → Field → Prop
  | .item t v, .item u w => u = t ∧ v.Agrees factory w
  | .range bs offset len, g => g = .data (.byteArray ((bs.drop offset).take len))
  | .items _ t vs, .items _ u ws => u = t ∧ Value.AgreesAll factory vs ws
  | .map kt vt _ es, .map ku vu linked fs =>
    ku = kt ∧ vu = vt ∧ ∃ gs, Value.AgreesEntries factory es gs ∧ fs = (ValueMap.ofEntries linked gs).entries
  | .message (some m), .message (some n) => m.Agrees factory n
  | .data d, g => g = .data d
  | .absent t, g => g = .absent t
  | .fixedInt v, g => g = .fixedInt v
  | .fixedLong v, g => g = .fixedLong v
  | .raw bs, g => g = .raw bs
  | .object shape p, g => g = .object shape p
  | .nothing, g => g = .nothing
  | .message none, g => g = .message none
  | _, _ => False
termination_by structural f => f

def Field.AgreesAll (factory : Factory) : List Field → List Field → Prop
  | [], [] => True
  | f :: fs, g :: gs => f.Agrees factory g ∧ Field.AgreesAll factory fs gs
  | _, _ => False
termination_by structural fs => fs

def Value.Agrees (factory : Factory) : Value → Value → Prop
  | .null, w => w = .null
  | .data d, w => w = .data d
  | .message m, .message n => m.Agrees factory n
  | _, _ => False
termination_by structural v => v

def Value.AgreesAll (factory : Factory) : List Value → List Value → Prop
  | [], [] => True
  | v :: vs, w :: ws => v.Agrees factory w ∧ Value.AgreesAll factory vs ws
  | _, _ => False
termination_by structural vs => vs

def Value.AgreesEntries (factory : Factory) : List (Value × Value) → List (Value × Value) → Prop
  | [], [] => True
  | (k, v) :: es, (l, w) :: fs =>
    (k.Agrees factory l ∧ v.Agrees factory w) ∧ Value.AgreesEntries factory es fs
  | _, _ => False
termination_by structural es => es

end

variable {factory : Factory} {maxLength : Nat}

theorem Message.type_ne_of_expected {m : Message} (h : m.Expected factory maxLength) : m.type ≠ nullMessageType := by
  cases m with
  | mk kind fields pauses => exact h.1

theorem Value.expectedAll_iff (vs : List Value) :
    Value.ExpectedAll factory maxLength vs ↔ ∀ v ∈ vs, v.Expected factory maxLength := by
  induction vs with
  | nil => simp [Value.ExpectedAll]
  | cons v vs ih => simp [Value.ExpectedAll, ih]

theorem Value.expectedEntries_iff (es : List (Value × Value)) :
    Value.ExpectedEntries factory maxLength es ↔
      ∀ e ∈ es, e.1.Expected factory maxLength ∧ e.2.Expected factory maxLength := by
  induction es with
  | nil => simp [Value.ExpectedEntries]
  | cons e es ih => simp [Value.ExpectedEntries, ih]

theorem Field.expected_of_mem {fs : List Field} {ks : List FieldKind} (h : Field.ExpectedAll factory maxLength fs ks)
    {f : Field} (hf : f ∈ fs) : ∃ k, f.Expected factory maxLength k := by
  induction fs generalizing ks with
  | nil => cases hf
  | cons g fs ih =>
    cases ks with
    | nil => cases h
    | cons k ks =>
      rcases List.mem_cons.1 hf with rfl | hf
      · exact ⟨k, h.1⟩
      · exact ih h.2 hf

theorem Tree.resumable_of_expected (factory : Factory) (maxLength : Nat) :
    Tree.Step (fun m => m.Expected factory maxLength → m.resumable = true)
      (fun f => ∀ k, f.Expected factory maxLength k → f.resumable = true)
      fun v => v.Expected factory maxLength → v.resumable = true where
  message kind fields pauses h he := by
    obtain ⟨-, b, -, hb⟩ := he
    rw [Message.resumable, Field.resumableAll_iff]
    intro f hf
    obtain ⟨k, hk⟩ := Field.expected_of_mem hb hf
    exact h f hf k hk
  plain f hf k hk := by
    cases f with
    | message m =>
      cases m with
      | none => rfl
      | some m => cases hf
    | advance | markHeader => cases k <;> cases hk
    | item | items | map | root => cases hf
    | _ => rfl
  item t v h k hk := by
    cases k with
    | item u => exact h hk.2
    | _ => cases hk
  items way t vs h k hk := by
    cases k with
    | items way u =>
      rw [Field.resumable, Value.resumableAll_iff]
      exact fun v hv => h v hv ((Value.expectedAll_iff vs).1 hk.2.2 v hv)
    | _ => cases hk
  map kt vt linked es h k hk := by
    cases k with
    | map ku vu linked =>
      rw [Field.resumable, Value.resumableEntries_iff]
      have he := (Value.expectedEntries_iff es).1 hk.2.2.2
      exact fun e hm => ⟨(h e hm).1 (he e hm).1, (h e hm).2 (he e hm).2⟩
    | _ => cases hk
  nested m h k hk := by
    cases k with
    | message => exact h hk
    | _ => cases hk
  root m h k hk := by cases k <;> cases hk
  null _ := rfl
  data _ _ := rfl
  inner m h he := h he

theorem Message.resumable_of_expected {m : Message} (h : m.Expected factory maxLength) : m.resumable = true :=
  (Tree.resumable_of_expected factory maxLength).all.1 m h

theorem Field.resumable_of_expected {f : Field} {k : FieldKind} (h : f.Expected factory maxLength k) :
    f.resumable = true :=
  (Tree.resumable_of_expected factory maxLength).all.2.1 f k h

theorem Value.resumable_of_expected {v : Value} (h : v.Expected factory maxLength) : v.resumable = true :=
  (Tree.resumable_of_expected factory maxLength).all.2.2 v h

end Courier
