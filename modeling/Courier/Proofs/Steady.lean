import Courier.Proofs.Tree

/-!
Messages that can be gone on with, and the same messages without pauses.

A message is `resumable` where only the calls themselves move cursors and header marks. Its `steady` twin is the same
message without pauses, at any depth; `Message.resumable_steady`: that twin is resumable if the message is.
-/

namespace Courier

mutual

/-- the same message without pauses -/
def Message.steady : Message → Message
  | .mk kind fs _ => .mk kind (Field.steadyAll fs) []
termination_by structural m => m

def Field.steady : Field → Field
  | .item t v => .item t v.steady
  | .items way t vs => .items way t (Value.steadyAll vs)
  | .map kt vt linked es => .map kt vt linked (Value.steadyEntries es)
  | .message (some m) => .message (some m.steady)
  | .root m => .root m.steady
  | f => f
termination_by structural f => f

def Field.steadyAll : List Field → List Field
  | [] => []
  | f :: fs => f.steady :: Field.steadyAll fs
termination_by structural fs => fs

def Value.steady : Value → Value
  | .message m => .message m.steady
  | v => v
termination_by structural v => v

def Value.steadyAll : List Value → List Value
  | [] => []
  | v :: vs => v.steady :: Value.steadyAll vs
termination_by structural vs => vs

def Value.steadyEntries : List (Value × Value) → List (Value × Value)
  | [] => []
  | (k, v) :: es => (k.steady, v.steady) :: Value.steadyEntries es
termination_by structural es => es

end

mutual

/-- whether only the calls on a message, and on the messages in it, move cursors and header marks -/
def Message.resumable : Message → Bool
  | .mk _ fs _ => Field.resumableAll fs
termination_by structural m => m

def Field.resumable : Field → Bool
  | .item _ v => v.resumable
  | .items _ _ vs => Value.resumableAll vs
  | .map _ _ _ es => Value.resumableEntries es
  | .message (some m) => m.resumable
  | .root _ | .advance | .markHeader => false
  | _ => true
termination_by structural f => f

def Field.resumableAll : List Field → Bool
  | [] => true
  | f :: fs => f.resumable && Field.resumableAll fs
termination_by structural fs => fs

def Value.resumable : Value → Bool
  | .message m => m.resumable
  | _ => true
termination_by structural v => v

def Value.resumableAll : List Value → Bool
  | [] => true
  | v :: vs => v.resumable && Value.resumableAll vs
termination_by structural vs => vs

def Value.resumableEntries : List (Value × Value) → Bool
  | [] => true
  | (k, v) :: es => (k.resumable && v.resumable) && Value.resumableEntries es
termination_by structural es => es

end

theorem Message.type_steady (m : Message) : m.steady.type = m.type := by
  cases m with
  | mk kind fields pauses => rfl

theorem Field.steadyAll_eq (fs : List Field) : Field.steadyAll fs = fs.map Field.steady := by
  induction fs with
  | nil => rfl
  | cons f fs ih => rw [Field.steadyAll, ih]; rfl

theorem Value.steadyAll_eq (vs : List Value) : Value.steadyAll vs = vs.map Value.steady := by
  induction vs with
  | nil => rfl
  | cons v vs ih => rw [Value.steadyAll, ih]; rfl

theorem Value.steadyEntries_eq (es : List (Value × Value)) :
    Value.steadyEntries es = es.map fun e => (e.1.steady, e.2.steady) := by
  induction es with
  | nil => rfl
  | cons e es ih => rw [Value.steadyEntries, ih]; rfl

theorem Field.resumableAll_iff (fs : List Field) : Field.resumableAll fs = true ↔ ∀ f ∈ fs, f.resumable = true := by
  induction fs with
  | nil => simp [Field.resumableAll]
  | cons f fs ih => simp [Field.resumableAll, ih]

theorem Value.resumableAll_iff (vs : List Value) : Value.resumableAll vs = true ↔ ∀ v ∈ vs, v.resumable = true := by
  induction vs with
  | nil => simp [Value.resumableAll]
  | cons v vs ih => simp [Value.resumableAll, ih]

theorem Value.resumableEntries_iff (es : List (Value × Value)) :
    Value.resumableEntries es = true ↔ ∀ e ∈ es, e.1.resumable = true ∧ e.2.resumable = true := by
  induction es with
  | nil => simp [Value.resumableEntries]
  | cons e es ih => simp [Value.resumableEntries, ih]

theorem Tree.resumable_steady :
    Tree.Step (fun m => m.steady.resumable = m.resumable) (fun f => f.steady.resumable = f.resumable)
      fun v => v.steady.resumable = v.resumable where
  message kind fields pauses h := by
    rw [Message.steady, Message.resumable, Message.resumable, Bool.eq_iff_iff, Field.resumableAll_iff,
      Field.resumableAll_iff, Field.steadyAll_eq, List.forall_mem_map]
    exact forall₂_congr fun f hf => by rw [h f hf]
  plain f hf := by
    cases f with
    | message m =>
      cases m with
      | none => rfl
      | some m => cases hf
    | item | items | map | root => cases hf
    | _ => rfl
  item t v h := h
  items way t vs h := by
    rw [Field.steady, Field.resumable, Field.resumable, Bool.eq_iff_iff, Value.resumableAll_iff,
      Value.resumableAll_iff, Value.steadyAll_eq, List.forall_mem_map]
    exact forall₂_congr fun v hv => by rw [h v hv]
  map kt vt linked es h := by
    rw [Field.steady, Field.resumable, Field.resumable, Bool.eq_iff_iff, Value.resumableEntries_iff,
      Value.resumableEntries_iff, Value.steadyEntries_eq, List.forall_mem_map]
    exact forall₂_congr fun e he => by rw [(h e he).1, (h e he).2]
  nested m h := h
  root m h := rfl
  null := rfl
  data _ := rfl
  inner m h := h

theorem Message.resumable_steady (m : Message) : m.steady.resumable = m.resumable :=
  Tree.resumable_steady.all.1 m

theorem Field.resumable_steady (f : Field) : f.steady.resumable = f.resumable :=
  Tree.resumable_steady.all.2.1 f

end Courier
