import Courier.Message
import Mathlib

/-!
Induction over messages, fields and values.

A message holds fields, some of which hold values or messages, and values hold messages again. `Tree.Step` lists what
has to be shown for each way of putting them together; the fields that hold neither, the plain ones, are one case.
`Tree.Step.all` draws the conclusion for all three at once.
-/

namespace Courier

/-- whether a field holds neither a message nor a value -/
def Field.isPlain : Field → Bool
  | .item .. | .items .. | .map .. | .message (some _) | .root _ => false
  | _ => true

namespace Tree

/-- the cases of an induction over messages, fields and values -/
structure Step (P : Message → Prop) (Q : Field → Prop) (R : Value → Prop) : Prop where
  message : ∀ kind fields pauses, (∀ f ∈ fields, Q f) → P (.mk kind fields pauses)
  plain : ∀ f : Field, f.isPlain = true → Q f
  item : ∀ t v, R v → Q (.item t v)
  items : ∀ way t vs, (∀ v ∈ vs, R v) → Q (.items way t vs)
  map : ∀ kt vt linked es, (∀ e ∈ es, R e.1 ∧ R e.2) → Q (.map kt vt linked es)
  nested : ∀ m, P m → Q (.message (some m))
  root : ∀ m, P m → Q (.root m)
  null : R .null
  data : ∀ d, R (.data d)
  inner : ∀ m, P m → R (.message m)

namespace Step

variable {P : Message → Prop} {Q : Field → Prop} {R : Value → Prop}

mutual

theorem ofMessage (h : Step P Q R) : ∀ m, P m
  | .mk kind fields pauses => h.message kind fields pauses (h.ofFields fields)
termination_by structural m => m

theorem ofFields (h : Step P Q R) : ∀ (fs : List Field), ∀ f ∈ fs, Q f
  | [], _, hf => nomatch hf
  | f :: fs, g, hg => by
    rcases List.mem_cons.1 hg with hg | hg
    · rw [hg]; exact h.ofField f
    · exact h.ofFields fs g hg
termination_by structural fs => fs

theorem ofField (h : Step P Q R) : ∀ f, Q f
  | .item t v => h.item t v (h.ofValue v)
  | .items way t vs => h.items way t vs (h.ofValues vs)
  | .map kt vt linked es => h.map kt vt linked es (h.ofEntries es)
  | .message (some m) => h.nested m (h.ofMessage m)
  | .root m => h.root m (h.ofMessage m)
  | .data _ | .absent _ | .fixedInt _ | .fixedLong _ | .range .. | .raw _ | .object .. | .nothing | .message none
  | .note _ | .advance | .markHeader | .stall | .fail _ => h.plain _ rfl
termination_by structural f => f

theorem ofValue (h : Step P Q R) : ∀ v, R v
  | .null => h.null
  | .data d => h.data d
  | .message m => h.inner m (h.ofMessage m)
termination_by structural v => v

theorem ofValues (h : Step P Q R) : ∀ (vs : List Value), ∀ v ∈ vs, R v
  | [], _, hv => nomatch hv
  | v :: vs, w, hw => by
    rcases List.mem_cons.1 hw with hw | hw
    · rw [hw]; exact h.ofValue v
    · exact h.ofValues vs w hw
termination_by structural vs => vs

theorem ofEntries (h : Step P Q R) : ∀ (es : List (Value × Value)), ∀ e ∈ es, R e.1 ∧ R e.2
  | [], _, he => nomatch he
  | (k, v) :: es, e, he => by
    rcases List.mem_cons.1 he with he | he
    · rw [he]; exact ⟨h.ofValue k, h.ofValue v⟩
    · exact h.ofEntries es e he
termination_by structural es => es

end

theorem all (h : Step P Q R) : (∀ m, P m) ∧ (∀ f, Q f) ∧ ∀ v, R v :=
  ⟨h.ofMessage, h.ofField, h.ofValue⟩

end Step

end Tree

end Courier
