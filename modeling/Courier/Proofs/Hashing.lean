import Courier.Proofs.Retrieve
import Courier.Proofs.Sameness

/-!
Equal values are hashed alike.

A hasher is fed piece by piece: first the number of the variant that a value is of, then what the value holds. An array
of whole numbers is fed as it lies in memory, behind its count; floats are fed bit for bit, one by one where they stand in
an array. Of a message, its direct type is fed and nothing else. The byte order of memory and what is fed of an
identifier are left open.

Equality is told here variant by variant, beside what is fed of each: floats are compared by their bits, and arrays of
them element by element. A leaf or a node is compared field by field with one of its own kind. All other messages bring
a comparison of their own, `own`, that decides whatever they are compared with; the messages in a node are compared by
`own` again where it is theirs to decide. `Message.Equates own` asks of it that it is one of equals as far as these
messages go, and that equals have the same direct type. Nothing is asked about leaves and nodes.

`Tree.sameBy_same`: with the comparison of records, this is equality of values.
`Tree.sameness_by`: everything is equal to itself, and equality goes both ways and on.
`Datum.feed_injective`: what is fed of data tells them apart.
`Value.equality_hashed`: the main result.
-/

namespace Courier

/-! ## What is fed -/

/-- a piece that a hasher is fed with -/
inductive HashInput where
  /-- the number of a variant -/
  | variant (n : Nat)
  /-- a number of `size` bytes -/
  | word (size n : Nat)
  /-- how many elements there are -/
  | count (n : Nat)
  | bytes (bs : Bytes)
  deriving DecidableEq

/-- what the values themselves do not settle -/
structure HashTerms where
  /-- how numbers lie in memory -/
  order : ByteOrder
  /-- what is fed of an identifier -/
  uuid : Uuid → List HashInput

namespace HashInput

variable {α : Type} [Fixed α]

/-- a number of fixed width -/
def fixed (v : α) : HashInput :=
  word (Fixed.size α) (Fixed.toNat v)

def truth (v : Bool) : HashInput :=
  word 1 v.toNat

/-- numbers as they lie in memory, their count in front -/
def array (order : ByteOrder) (vs : List α) : List HashInput :=
  [count vs.length, bytes (Fixed.run order.swap vs)]

end HashInput

open HashInput

/-- what is fed of a datum behind the number of its variant -/
def Datum.feed (c : HashTerms) : Datum → List HashInput
  | .byte v => [.word 1 v.toNat]
  | .short v => [fixed v]
  | .int v => [fixed v]
  | .long v => [fixed v]
  | .float v => [fixed v]
  | .double v => [fixed v]
  | .char v => [fixed v]
  | .boolean v => [truth v]
  | .byteArray vs => [.count vs.length, .bytes vs]
  | .shortArray vs => array c.order vs
  | .intArray vs => array c.order vs
  | .longArray vs => array c.order vs
  | .floatArray vs => vs.map fixed
  | .doubleArray vs => vs.map fixed
  | .charArray vs => array c.order vs
  | .booleanArray vs => .count vs.length :: vs.map truth
  -- a text ends with a byte that no text holds
  | .string s => [.bytes (Utf8.encode s), .word 1 255]
  | .bitSet s => array c.order s.words
  | .uuid v => c.uuid v
  | .extendedUuid v => c.uuid v.globalId ++ [fixed v.localId]

namespace Value

/-- the number of the variant that a value is of -/
def variant (v : Value) : Nat :=
  match v.itemType? with
  | none => 0
  | some t => t.tag.toNat + 1

/-- what a hasher is fed with for a value -/
def feed (c : HashTerms) (v : Value) : List HashInput :=
  .variant v.variant :: match v with
    | .null => []
    | .data d => d.feed c
    | .message m => [fixed m.type]

end Value

/-! ## Equality, variant by variant -/

/-- equality of data, with floats compared by their bits -/
def Datum.same : Datum → Datum → Bool
  | .byte v, .byte w => v == w
  | .short v, .short w => v == w
  | .int v, .int w => v == w
  | .long v, .long w => v == w
  | .float v, .float w => v.bits == w.bits
  | .double v, .double w => v.bits == w.bits
  | .char v, .char w => v == w
  | .boolean v, .boolean w => v == w
  | .byteArray vs, .byteArray ws => vs == ws
  | .shortArray vs, .shortArray ws => vs == ws
  | .intArray vs, .intArray ws => vs == ws
  | .longArray vs, .longArray ws => vs == ws
  | .floatArray vs, .floatArray ws => vs.length == ws.length && (vs.zip ws).all fun (v, w) => v.bits == w.bits
  | .doubleArray vs, .doubleArray ws => vs.length == ws.length && (vs.zip ws).all fun (v, w) => v.bits == w.bits
  | .charArray vs, .charArray ws => vs == ws
  | .booleanArray vs, .booleanArray ws => vs == ws
  | .string s, .string t => s == t
  | .bitSet s, .bitSet t => s.words == t.words
  | .uuid v, .uuid w => v == w
  | .extendedUuid v, .extendedUuid w => v == w
  | _, _ => false

/-- whether a message of this kind is neither a leaf nor a node -/
def MessageKind.isRecord : MessageKind → Bool
  | .record _ => true
  | .leaf | .node => false

section By

variable (own : Message → Message → Bool)

mutual

/-- equality of messages, where records are compared with anything by `own` -/
def Message.sameBy : Message → Message → Bool
  | .mk kind fields pauses, n =>
    if kind.isRecord then own (.mk kind fields pauses) n
    else kind == n.kind && Field.sameAllBy fields n.fields
termination_by structural m => m

/-- equality of the fields of a leaf or a node -/
def Field.sameBy : Field → Field → Bool
  | .message (some m), .message (some n) => m.sameBy n
  | f, g => f.same g
termination_by structural f => f

/-- equality of such fields in a row -/
def Field.sameAllBy : List Field → List Field → Bool
  | [], [] => true
  | f :: fs, g :: gs => f.sameBy g && Field.sameAllBy fs gs
  | _, _ => false
termination_by structural fs => fs

end

/-- equality of values, where records are compared with anything by `own` -/
def Value.sameBy : Value → Value → Bool
  | .null, .null => true
  | .data d, .data e => d.same e
  | .message m, .message n => m.sameBy own n
  | _, _ => false

end By

/-! ## Data -/

theorem Single.bits_beq (v w : Single) : (v.bits == w.bits) = (v == w) := by
  cases v; cases w
  rw [Bool.eq_iff_iff, beq_iff_eq, beq_iff_eq, Single.mk.injEq]

theorem Double.bits_beq (v w : Double) : (v.bits == w.bits) = (v == w) := by
  cases v; cases w
  rw [Bool.eq_iff_iff, beq_iff_eq, beq_iff_eq, Double.mk.injEq]

/-- rows are equal if they are of the same length and equal place by place -/
theorem zip_all_beq_iff {α : Type} [DecidableEq α] (vs ws : List α) :
    (vs.length == ws.length && (vs.zip ws).all fun (v, w) => v == w) = true ↔ vs = ws := by
  rw [← List.forall₂_eq_eq_eq, List.forall₂_iff_zip]
  simp

theorem BitSet.words_inj {s t : BitSet} : s.words = t.words ↔ s = t := by
  cases s; cases t
  simp

theorem Datum.same_iff (d e : Datum) : d.same e = true ↔ d = e := by
  cases d <;> cases e <;>
    simp only [Datum.same, Single.bits_beq, Double.bits_beq, zip_all_beq_iff, BitSet.words_inj, beq_iff_eq, reduceCtorEq,
      Bool.false_eq_true, byte.injEq, short.injEq, int.injEq, long.injEq, float.injEq, double.injEq, char.injEq,
      boolean.injEq, byteArray.injEq, shortArray.injEq, intArray.injEq, longArray.injEq, floatArray.injEq,
      doubleArray.injEq, charArray.injEq, booleanArray.injEq, string.injEq, bitSet.injEq, uuid.injEq,
      extendedUuid.injEq]

namespace HashInput

variable {α : Type} [Fixed α]

theorem fixed_injective : Function.Injective (fixed : α → HashInput) := by
  intro v w h
  rw [← Fixed.ofNat_toNat v, (word.inj h).2, Fixed.ofNat_toNat]

theorem truth_injective : Function.Injective truth := by
  decide

theorem array_injective (order : ByteOrder) : Function.Injective (array order : List α → List HashInput) := by
  intro vs ws h
  simp only [array, List.cons.injEq, count.injEq, bytes.injEq, and_true] at h
  have hvs := Fixed.decodeSlice_run order.swap vs
  rw [h.1, h.2, Fixed.decodeSlice_run] at hvs
  exact (Option.some.inj hvs).symm

end HashInput

theorem Utf8.encode_injective : Function.Injective Utf8.encode := by
  intro s t h
  have hs := Reader.decode_encode_utf8 s
  rw [h, Reader.decode_encode_utf8] at hs
  exact (Option.some.inj hs).symm

/-- what is fed of two data of the same kind is the same only if they are -/
theorem Datum.feed_injective {c : HashTerms} (hc : Function.Injective c.uuid) {d e : Datum}
    (ht : d.itemType = e.itemType) (h : d.feed c = e.feed c) : d = e := by
  cases d <;> cases e <;> try cases ht
  case byte.byte v w => exact congrArg byte (UInt8.toNat_inj.1 (word.inj (List.cons.inj h).1).2)
  case short.short | int.int | long.long | float.float | double.double | char.char =>
    exact congrArg _ (fixed_injective (List.cons.inj h).1)
  case boolean.boolean => exact congrArg _ (truth_injective (List.cons.inj h).1)
  case byteArray.byteArray =>
    exact congrArg _ (HashInput.bytes.inj (List.cons.inj (List.cons.inj h).2).1)
  case shortArray.shortArray | intArray.intArray | longArray.longArray | charArray.charArray =>
    exact congrArg _ (array_injective c.order h)
  case floatArray.floatArray | doubleArray.doubleArray => exact congrArg _ (List.map_injective_iff.2 fixed_injective h)
  case booleanArray.booleanArray =>
    exact congrArg _ (List.map_injective_iff.2 truth_injective (List.cons.inj h).2)
  case string.string => exact congrArg _ (Utf8.encode_injective (HashInput.bytes.inj (List.cons.inj h).1))
  case bitSet.bitSet => exact congrArg _ (BitSet.words_inj.1 (array_injective c.order h))
  case uuid.uuid => exact congrArg _ (hc h)
  case extendedUuid.extendedUuid v w =>
    obtain ⟨hglobal, hlocal⟩ := List.append_inj' h rfl
    cases v; cases w
    obtain rfl := hc hglobal
    obtain rfl := fixed_injective (List.cons.inj hlocal).1
    rfl

theorem ItemType.tag_inj {t u : ItemType} : t.tag = u.tag ↔ t = u := by
  refine ⟨fun h => ?_, congrArg tag⟩
  have ht := ofTag_tag t
  rw [h, ofTag_tag] at ht
  exact (Except.ok.inj ht).symm

theorem Value.variant_inj {v w : Value} : v.variant = w.variant ↔ v.itemType? = w.itemType? := by
  unfold variant
  cases v.itemType? <;> cases w.itemType? <;> simp [UInt8.toNat_inj, ItemType.tag_inj]

/-! ## Messages -/

/-- records have a comparison that is one of equals as far as they go, and their equals have their direct type -/
structure Message.Equates (own : Message → Message → Bool) : Prop where
  refl : ∀ m : Message, m.kind.isRecord = true → own m m = true
  symm : ∀ m n : Message, m.kind.isRecord = true → own m n = true → n.sameBy own m = true
  trans : ∀ m n o : Message, m.kind.isRecord = true → own m n = true → n.sameBy own o = true → own m o = true
  type : ∀ m n : Message, m.kind.isRecord = true → own m n = true → m.type = n.type

section By

variable {own : Message → Message → Bool}

theorem Message.sameBy_record {m : Message} (hm : m.kind.isRecord = true) (n : Message) :
    m.sameBy own n = own m n := by
  cases m
  rw [Message.sameBy]
  exact if_pos hm

theorem Message.sameBy_stock {m : Message} (hm : ¬ m.kind.isRecord = true) (n : Message) :
    m.sameBy own n = true ↔ m.kind = n.kind ∧ Field.sameAllBy own m.fields n.fields = true := by
  cases m with
  | mk kind fields pauses =>
    have hk : ¬ kind.isRecord = true := hm
    rw [Message.sameBy, if_neg hk, Bool.and_eq_true, beq_iff_eq]
    rfl

/-- leaves are equal if their numbers and their texts are -/
theorem Message.sameBy_leaf (i j : Int64) (s t : Option String) :
    (Message.leaf i s).sameBy own (.leaf j t) = (i == j && s == t) := by
  rw [Bool.eq_iff_iff]
  cases s <;> cases t <;>
    simp [Message.leaf, Message.sameBy, Message.kind, Message.fields, MessageKind.isRecord, Field.sameAllBy, Field.sameBy,
      Field.same]

/-- nodes are equal if their numbers and their messages are -/
theorem Message.sameBy_node (v w : Int32) (m n : Message) :
    (Message.node v (some m)).sameBy own (.node w (some n)) = (v == w && m.sameBy own n) := by
  rw [Bool.eq_iff_iff]
  simp [Message.node, Message.sameBy, Message.kind, Message.fields, MessageKind.isRecord, Field.sameAllBy, Field.sameBy,
    Field.same]

theorem Field.sameBy_of_ne {f : Field} (hf : ∀ m, f ≠ .message (some m)) (g : Field) : f.sameBy own g = f.same g := by
  cases f with
  | message m =>
    cases m with
    | none => simp [Field.sameBy]
    | some m => exact absurd rfl (hf m)
  | _ => simp [Field.sameBy]

/-- a field that is no message has no message for its equal -/
theorem Field.ne_of_same {f g : Field} (hf : ∀ m, f ≠ .message (some m)) (hg : f.same g = true) :
    ∀ n, g ≠ .message (some n) := by
  rintro n rfl
  cases f with
  | message m =>
    cases m with
    | none => simp [Field.same] at hg
    | some m => exact hf m rfl
  | _ => simp [Field.same] at hg

theorem Field.sameness_of_ne {f : Field} (hf : ∀ m, f ≠ .message (some m)) : Sameness (Field.sameBy own) f := by
  have h : Sameness Field.same f := Tree.sameness.all.2.1 f
  refine ⟨?_, ?_, ?_⟩
  · rw [sameBy_of_ne hf]
    exact h.refl
  · intro g hg
    rw [sameBy_of_ne hf] at hg
    rw [sameBy_of_ne (ne_of_same hf hg)]
    exact h.symm hg
  · intro g g' hg hg'
    rw [sameBy_of_ne hf] at hg ⊢
    rw [sameBy_of_ne (ne_of_same hf hg)] at hg'
    exact h.trans hg hg'

theorem Field.sameAllBy_iff (fs gs : List Field) :
    Field.sameAllBy own fs gs = true ↔ List.Forall₂ (fun f g => f.sameBy own g = true) fs gs := by
  induction fs generalizing gs with
  | nil => cases gs <;> simp [Field.sameAllBy]
  | cons f fs ih => cases gs <;> simp [Field.sameAllBy, ih]

/-- **Equality by a comparison of records** that is one of equals is one of equals altogether. -/
theorem Tree.sameness_by (h : Message.Equates own) :
    Tree.Step (Sameness (Message.sameBy own)) (Sameness (Field.sameBy own)) (Sameness (Value.sameBy own)) where
  message kind fields pauses hfields := by
    by_cases hk : kind.isRecord = true
    · have hown : ∀ n, (Message.mk kind fields pauses).sameBy own n = own (.mk kind fields pauses) n :=
        Message.sameBy_record hk
      refine ⟨?_, ?_, ?_⟩
      · rw [hown]
        exact h.refl _ hk
      · intro n hn
        exact h.symm _ n hk (hown n ▸ hn)
      · intro n o hn ho
        rw [hown] at hn ⊢
        exact h.trans _ n o hk hn ho
    · refine .ofFields (.row Field.sameAllBy_iff hfields) fun l n hl => Message.sameBy_stock ?_ n
      rw [hl]
      exact hk
  plain f hf := Field.sameness_of_ne fun m hm => by
    subst hm
    cases hf
  item t v _ := Field.sameness_of_ne fun _ hm => by cases hm
  items way t vs _ := Field.sameness_of_ne fun _ hm => by cases hm
  map kt vt linked es _ := Field.sameness_of_ne fun _ hm => by cases hm
  root m _ := Field.sameness_of_ne fun _ hm => by cases hm
  nested m hm := hm.part (fun m => Field.message (some m)) fun m g => by
    cases g with
    | message n => cases n <;> simp [Field.sameBy, Field.same]
    | _ => simp [Field.sameBy, Field.same]
  null := .plain fun w => by cases w <;> simp [Value.sameBy]
  data d := .plain fun w => by cases w <;> simp [Value.sameBy, Datum.same_iff]
  inner m hm := hm.part Value.message fun m w => by cases w <;> simp [Value.sameBy]

theorem Message.type_eq_of_sameBy (h : Message.Equates own) {m n : Message} (hmn : m.sameBy own n = true) :
    m.type = n.type := by
  by_cases hk : m.kind.isRecord = true
  · rw [sameBy_record hk] at hmn
    exact h.type m n hk hmn
  · exact congrArg MessageKind.type ((sameBy_stock hk n).1 hmn).1

end By

theorem Field.sameAllBy_same {fs : List Field} (h : ∀ f ∈ fs, ∀ g, f.sameBy Message.same g = f.same g) (gs : List Field) :
    Field.sameAllBy Message.same fs gs = Field.sameAll fs gs := by
  induction fs generalizing gs with
  | nil => cases gs <;> simp [Field.sameAllBy, Field.sameAll]
  | cons f fs ih =>
    have hrest := ih fun f hf => h f (List.mem_cons_of_mem _ hf)
    cases gs <;> simp [Field.sameAllBy, Field.sameAll, h f List.mem_cons_self, hrest]

/-- with the comparison of records, this is equality -/
theorem Tree.sameBy_same : Tree.Step (fun m => ∀ n, m.sameBy Message.same n = m.same n)
    (fun f => ∀ g, f.sameBy Message.same g = f.same g) (fun v => ∀ w, v.sameBy Message.same w = v.same w) where
  message kind fields pauses hfields n := by
    by_cases hk : kind.isRecord = true
    · exact Message.sameBy_record (m := .mk kind fields pauses) hk n
    · cases n with
      | mk l gs ps =>
        rw [Message.sameBy, if_neg hk, Message.same, Field.sameAllBy_same hfields]
        rfl
  plain f hf := Field.sameBy_of_ne fun m hm => by
    subst hm
    cases hf
  item t v _ := Field.sameBy_of_ne fun _ hm => by cases hm
  items way t vs _ := Field.sameBy_of_ne fun _ hm => by cases hm
  map kt vt linked es _ := Field.sameBy_of_ne fun _ hm => by cases hm
  root m _ := Field.sameBy_of_ne fun _ hm => by cases hm
  nested m hm g := by
    cases g with
    | message n => cases n <;> simp [Field.sameBy, Field.same, hm]
    | _ => simp [Field.sameBy, Field.same]
  null w := by cases w <;> simp [Value.sameBy, Value.same]
  data d w := by
    rw [Bool.eq_iff_iff]
    cases w <;> simp [Value.sameBy, Value.same, Datum.same_iff]
  inner m hm w := by cases w <;> simp [Value.sameBy, Value.same, hm]

theorem Message.equates_same : Message.Equates Message.same where
  refl m _ := (Tree.sameness.all.1 m).refl
  symm m n _ h := by
    rw [Tree.sameBy_same.all.1]
    exact (Tree.sameness.all.1 m).symm h
  trans m n o _ h h' := by
    rw [Tree.sameBy_same.all.1] at h'
    exact (Tree.sameness.all.1 m).trans h h'
  type m n _ h := by
    cases m; cases n
    simp only [Message.same, Bool.and_eq_true, beq_iff_eq] at h
    exact congrArg MessageKind.type h.1

/-! ## Values -/

namespace Value

variable {own : Message → Message → Bool} {c : HashTerms} {v w : Value}

theorem itemType?_eq_of_sameBy (h : v.sameBy own w = true) : v.itemType? = w.itemType? := by
  cases v <;> cases w <;> simp only [sameBy, Bool.false_eq_true] at h
  case null.null => rfl
  case data.data d e => rw [(Datum.same_iff d e).1 h]
  case message.message => rfl

theorem feed_eq_of_sameBy (hown : Message.Equates own) (h : v.sameBy own w = true) : v.feed c = w.feed c := by
  have hvariant : v.variant = w.variant := variant_inj.2 (itemType?_eq_of_sameBy h)
  cases v <;> cases w <;> simp only [sameBy, Bool.false_eq_true] at h
  case null.null => rfl
  case data.data d e => rw [(Datum.same_iff d e).1 h]
  case message.message m n => rw [feed, feed, hvariant, Message.type_eq_of_sameBy hown h]

/-- what is fed tells values apart that hold no message -/
theorem sameBy_of_feed_eq (hc : Function.Injective c.uuid) (h : v.feed c = w.feed c) :
    v.sameBy own w = true ∨ ∃ m n, v = .message m ∧ w = .message n ∧ m.type = n.type := by
  obtain ⟨hvariant, hrest⟩ := List.cons.inj h
  have hkind : v.itemType? = w.itemType? := variant_inj.1 (HashInput.variant.inj hvariant)
  cases v <;> cases w <;> simp only [itemType?, reduceCtorEq, Option.some.injEq] at hkind
  case null.null => exact .inl rfl
  case data.data d e => exact .inl ((Datum.same_iff d e).2 (Datum.feed_injective hc hkind hrest))
  case data.message d m => exact absurd hkind d.itemType_ne_message
  case message.data m d => exact absurd hkind.symm d.itemType_ne_message
  case message.message m n => exact .inr ⟨m, n, rfl, rfl, fixed_injective (List.cons.inj hrest).1⟩

/-- **Equality of values is an equality, and hashing goes along with it.** Equality is compared variant by variant, and
what records are equal to is left to them, as long as they are fair about it; among leaves and nodes nothing is taken for
granted. Then values, and messages too, are equal to themselves, and their equality goes both ways and on; values of
different kinds are never equal, equal messages have the same direct type, and of equal values a hasher is fed the same.
What it is fed tells all values apart but messages of one type. With the comparison that records do have, which is a
fair one, this is the equality of values that maps go by. -/
theorem equality_hashed (c : HashTerms) :
    (∀ v w : Value, v.sameBy Message.same w = v.same w) ∧ Message.Equates Message.same ∧
    ∀ own, Message.Equates own →
      Equivalence (fun v w : Value => v.sameBy own w = true) ∧
      Equivalence (fun m n : Message => m.sameBy own n = true) ∧
      (∀ v w : Value, v.itemType? ≠ w.itemType? → v.sameBy own w = false) ∧
      (∀ m n : Message, m.sameBy own n = true → m.type = n.type) ∧
      (∀ v w : Value, v.sameBy own w = true → v.feed c = w.feed c) ∧
      (Function.Injective c.uuid → ∀ v w : Value, v.feed c = w.feed c →
        v.sameBy own w = true ∨ ∃ m n, v = .message m ∧ w = .message n ∧ m.type = n.type) := by
  refine ⟨Tree.sameBy_same.all.2.2, Message.equates_same, ?_⟩
  intro own hown
  obtain ⟨hmessage, -, hvalue⟩ := (Tree.sameness_by hown).all
  refine ⟨⟨fun v => (hvalue v).refl, (hvalue _).symm, (hvalue _).trans⟩,
    ⟨fun m => (hmessage m).refl, (hmessage _).symm, (hmessage _).trans⟩, ?_, ?_, ?_, ?_⟩
  · intro v w hvw
    rw [← Bool.not_eq_true]
    exact fun h => hvw (itemType?_eq_of_sameBy h)
  · intro m n h
    exact Message.type_eq_of_sameBy hown h
  · intro v w h
    exact feed_eq_of_sameBy hown h
  · intro hc v w h
    exact sameBy_of_feed_eq hc h

/-- two records are taken for equal if they are of one type -/
def sameKind (m n : Message) : Bool :=
  m.kind == n.kind

theorem equates_sameKind : Message.Equates sameKind where
  refl m _ := beq_self_eq_true m.kind
  symm m n hm h := by
    have hkind : m.kind = n.kind := beq_iff_eq.1 h
    rw [Message.sameBy_record (hkind ▸ hm)]
    exact beq_iff_eq.2 hkind.symm
  trans m n o hm h h' := by
    have hkind : m.kind = n.kind := beq_iff_eq.1 h
    rw [Message.sameBy_record (hkind ▸ hm)] at h'
    exact beq_iff_eq.2 (hkind.trans (beq_iff_eq.1 h'))
  type m n _ h := congrArg MessageKind.type (beq_iff_eq.1 h)

/-- memory with the lowest byte first, and identifiers fed by halves -/
def halvesTerms : HashTerms :=
  ⟨.little, fun v => [fixed v.most, fixed v.least]⟩

theorem halvesTerms_injective : Function.Injective halvesTerms.uuid := by
  rintro ⟨v, w⟩ ⟨v', w'⟩ h
  simp only [halvesTerms, List.cons.injEq, and_true] at h
  rw [fixed_injective h.1, fixed_injective h.2]

/-- a node that holds a record with these fields -/
def nodeOf (fields : List Field) : Value :=
  .message (.node 3 (some (.record 7 fields)))

/-- a NaN with a payload -/
def oddNaN : Field :=
  .data (.float ⟨0x7fc00001⟩)

theorem loose_nodes_hashed :
    Message.Equates sameKind ∧ Function.Injective halvesTerms.uuid ∧
    (nodeOf [oddNaN]).sameBy sameKind (nodeOf []) = true ∧ (nodeOf [oddNaN]).same (nodeOf []) = false ∧
    (message (.leaf 5 (some "a"))).sameBy sameKind (message (.leaf 5 none)) = false ∧
    (nodeOf [oddNaN]).feed halvesTerms = (nodeOf []).feed halvesTerms ∧
    (data (.double ⟨0⟩)).feed halvesTerms ≠ (data (.double ⟨0x8000000000000000⟩)).feed halvesTerms := by
  obtain ⟨-, -, -, -, hfeed, htold⟩ := (equality_hashed halvesTerms).2.2 sameKind equates_sameKind
  have hrecord : (Message.record 7 [oddNaN]).sameBy sameKind (.record 7 []) = true := by
    rw [Message.sameBy_record rfl]
    rfl
  have hsame : (nodeOf [oddNaN]).sameBy sameKind (nodeOf []) = true := by
    rw [nodeOf, nodeOf, sameBy, Message.sameBy_node, hrecord]
    rfl
  have hleaf : (message (.leaf 5 (some "a"))).sameBy sameKind (message (.leaf 5 none)) = false := by
    rw [sameBy, Message.sameBy_leaf]
    rfl
  refine ⟨equates_sameKind, halvesTerms_injective, hsame, by decide +kernel, hleaf, hfeed _ _ hsame, fun h => ?_⟩
  rcases htold halvesTerms_injective _ _ h with hzero | ⟨m, n, hm, -⟩
  · revert hzero
    decide +kernel
  · cases hm

end Value

end Courier
