import Courier.Proofs.Layout

/-!
Output seen as a row of segments.

What a session puts out consists of units of fixed width, which a byte order turns end for end, and of bytes that no
byte order touches. A `Segment` is one or the other, told without a byte order: a unit by its bytes as they lie in
memory. `spell` gives the bytes of a row of segments in a byte order.

Shorts, characters, headers, fixed numbers, floats and doubles are units, and so are lengths, counts, the sizes of
objects, and each element of an array or word of a bit set. Single bytes, truth values, varints, texts and what is in
an object are not.

`Proper`: the units that occur are the numbers of the fixed kinds.
`length_spell`: a row takes as many bytes in one order as in the other.
`Layout.Matches`: layouts that differ in the bytes they put and in nothing else.
`Spells`: the layouts of an act, one for each byte order, match one another and put out the same segments.
`Datum.spells`, `ItemType.spells_absent`, ...: those of the typed writes do.
-/

namespace Courier

/-- a stretch of output -/
inductive Segment where
  /-- bytes that no byte order touches -/
  | plain (bs : Bytes)
  /-- a unit of fixed width, as it lies in memory -/
  | unit (bs : Bytes)
  deriving DecidableEq

namespace Segment

/-- a number of fixed width -/
def of {α : Type} [Fixed α] (v : α) : Segment :=
  .unit (Bytes.digits (Fixed.size α) (Fixed.toNat v))

/-- segments as they occur: a unit is a number of one of the fixed kinds -/
inductive Proper : Segment → Prop
  | plain (bs : Bytes) : Proper (.plain bs)
  | short (v : Int16) : Proper (.of v)
  | char (v : UInt16) : Proper (.of v)
  | int (v : Int32) : Proper (.of v)
  | long (v : Int64) : Proper (.of v)
  | word (v : UInt64) : Proper (.of v)
  | float (v : Single) : Proper (.of v)
  | double (v : Double) : Proper (.of v)

/-- the bytes of a segment in a byte order: big order turns a unit end for end -/
def bytes (order : ByteOrder) : Segment → Bytes
  | plain bs => bs
  | unit bs =>
    match order with
    | .little => bs
    | .big => bs.reverse

/-- the bytes of a row of segments -/
def spell (order : ByteOrder) (segs : List Segment) : Bytes :=
  segs.flatMap (bytes order)

/-- segments behind the count of what they hold -/
def counted (n : Nat) (segs : List Segment) : List Segment :=
  of (Int32.ofNat n) :: segs

/-- an opaque object, its size in front -/
def object (out : Bytes) : List Segment :=
  counted out.length [plain out]

/-- the halves of an identifier -/
def uuid (v : Uuid) (segs : List Segment) : List Segment :=
  plain [0] :: plain (Varint.encode64 v.most.toInt64) :: plain (Varint.encode64 v.least.toInt64) :: segs

@[simp] theorem spell_nil (order : ByteOrder) : spell order [] = [] := rfl

@[simp] theorem spell_plain (order : ByteOrder) (bs : Bytes) (segs : List Segment) :
    spell order (plain bs :: segs) = bs ++ spell order segs := rfl

@[simp] theorem spell_of (order : ByteOrder) {α : Type} [Fixed α] (v : α) (segs : List Segment) :
    spell order (of v :: segs) = Fixed.bytes order.swap v ++ spell order segs := by
  cases order <;> rfl

theorem spell_append (order : ByteOrder) (segs more : List Segment) :
    spell order (segs ++ more) = spell order segs ++ spell order more :=
  List.flatMap_append

theorem spell_run (order : ByteOrder) {α : Type} [Fixed α] (vs : List α) :
    spell order (vs.map of) = Fixed.run order.swap vs := by
  rw [Fixed.run_eq_flatMap]
  induction vs with
  | nil => rfl
  | cons v vs ih => rw [List.map_cons, spell_of, ih, List.flatMap_cons]

theorem length_spell (o p : ByteOrder) (segs : List Segment) : (spell o segs).length = (spell p segs).length := by
  have hbytes : ∀ s : Segment, (bytes o s).length = (bytes p s).length := by
    intro s
    cases s with
    | plain bs => rfl
    | unit bs => cases o <;> cases p <;> simp [bytes]
  induction segs with
  | nil => rfl
  | cons s segs ih =>
    change (bytes o s ++ spell o segs).length = (bytes p s ++ spell p segs).length
    rw [List.length_append, List.length_append, hbytes, ih]

end Segment

open Segment

/-- what a datum is spelled with -/
def Datum.segments : Datum → List Segment
  | .byte v => [.plain [v]]
  | .short v => [.of v]
  | .int v => [.plain (Varint.encode32 v)]
  | .long v => [.plain (Varint.encode64 v)]
  | .float v => [.of v]
  | .double v => [.of v]
  | .char v => [.of v]
  | .boolean v => [.plain [if v then 1 else 0]]
  | .byteArray vs => counted vs.length [.plain vs]
  | .shortArray vs => counted vs.length (vs.map .of)
  | .intArray vs => counted vs.length (vs.map .of)
  | .longArray vs => counted vs.length (vs.map .of)
  | .floatArray vs => counted vs.length (vs.map .of)
  | .doubleArray vs => counted vs.length (vs.map .of)
  | .charArray vs => counted vs.length (vs.map .of)
  | .booleanArray vs => counted vs.length [.plain (boolBytes vs)]
  | .string s => counted (Utf8.encode s).length [.plain (Utf8.encode s)]
  | .bitSet s => counted s.words.length (s.words.map .of)
  | .uuid v => Segment.uuid v []
  | .extendedUuid v => Segment.uuid v.globalId [.plain (Varint.encode64 v.localId)]

/-- what an absent item is spelled with -/
def ItemType.absentSegments : ItemType → List Segment
  | .uuid | .extendedUuid => [.plain [1]]
  | .message => [.of nullMessageType]
  | _ => [.of nullLength]

/-- what a part of some bytes is spelled with -/
def Segment.part (bs : Bytes) (offset len : Nat) : List Segment :=
  match bs.slice offset (offset + len) with
  | some part => counted part.length [.plain part]
  | none => []

/-- layouts that ask for the same room, put as many bytes there and end in the same way, whatever the bytes are -/
inductive Layout.Matches : Layout → Layout → Prop
  | done : Matches .done .done
  | refuse (e : WireError) : Matches (.refuse e) (.refuse e)
  | reserve (n : Nat) {l k : Layout} (h : Matches l k) : Matches (.reserve n l) (.reserve n k)
  | put {room : Nat} {bs cs : Bytes} (fits : bs.length ≤ room) (fits' : cs.length ≤ room) (length : bs.length = cs.length)
    {l k : Layout} (h : Matches l k) : Matches (.put room bs fits l) (.put room cs fits' k)
  | object (e : Emission) : Matches (.object e) (.object e)

theorem Layout.Matches.refl (l : Layout) : l.Matches l := by
  induction l with
  | done => exact .done
  | refuse e => exact .refuse e
  | reserve room next ih => exact .reserve room ih
  | put room bs fits next ih => exact .put fits fits rfl ih
  | object e => exact .object e

/-- layouts, one for each byte order, that match one another and put out the same segments where they come to their
end -/
structure Spells (l : ByteOrder → Layout) (segs : List Segment) : Prop where
  proper : ∀ s ∈ segs, s.Proper
  uniform : ∀ o p, (l o).Matches (l p)
  spelled : ∀ order, (l order).result = .ok () → ((l order).output order).bytes = spell order segs

namespace Spells

variable {l : ByteOrder → Layout} {segs : List Segment}

theorem done : Spells (fun _ => .done) [] :=
  ⟨fun _ h => (by cases h), fun _ _ => .done, fun _ _ => rfl⟩

theorem refuse (e : WireError) {segs : List Segment} (hp : ∀ s ∈ segs, s.Proper) : Spells (fun _ => .refuse e) segs :=
  ⟨hp, fun _ _ => .refuse e, fun _ h => by cases h⟩

theorem reserve (n : Nat) (h : Spells l segs) : Spells (fun o => .reserve n (l o)) segs :=
  ⟨h.proper, fun o p => .reserve n (h.uniform o p), h.spelled⟩

theorem put {room : Nat} (bs : ByteOrder → Bytes) (fits : ∀ o, (bs o).length ≤ room) {front : List Segment}
    (hp : ∀ s ∈ front, s.Proper) (hb : ∀ o, bs o = spell o front) (h : Spells l segs) :
    Spells (fun o => .put room (bs o) (fits o) (l o)) (front ++ segs) := by
  refine ⟨List.forall_mem_append.2 ⟨hp, h.proper⟩, fun o p => .put _ _ ?_ (h.uniform o p), fun order hr => ?_⟩
  · rw [hb, hb, length_spell o p]
  · rw [spell_append, ← hb order, ← h.spelled order hr]
    rfl

/-- bytes that are the same in every order -/
theorem flat {room : Nat} {bs : Bytes} (fits : bs.length ≤ room) (h : Spells l segs) :
    Spells (fun o => .put room bs fits (l o)) (.plain bs :: segs) :=
  h.put (fun _ => bs) (fun _ => fits) (List.forall_mem_singleton.2 (.plain bs)) fun _ => by simp

theorem bytes (bs : Bytes) (h : Spells l segs) : Spells (fun o => .bytes bs (l o)) (.plain bs :: segs) :=
  h.flat (Nat.le_refl _)

theorem fixed {α : Type} [Fixed α] {v : α} (hv : (of v).Proper) (h : Spells l segs) :
    Spells (fun o => .fixed o v (l o)) (.of v :: segs) :=
  h.put (fun o => Fixed.bytes o.swap v) (fun _ => Nat.le_of_eq (Fixed.length_bytes ..))
    (List.forall_mem_singleton.2 hv) fun _ => by simp

theorem long (v : Int64) (h : Spells l segs) :
    Spells (fun o => .long v (l o)) (.plain (Varint.encode64 v) :: segs) :=
  h.flat (Varint.length_groups_le ..)

theorem count (n : Nat) (h : Spells l segs) : Spells (fun o => .count o n (l o)) (counted n segs) := by
  unfold Layout.count encodeLength
  by_cases hn : n ≤ 2147483647
  · simp only [if_pos hn]
    exact h.fixed (.int (Int32.ofNat n))
  · simp only [if_neg hn]
    exact .refuse _ (List.forall_mem_cons.2 ⟨.int _, h.proper⟩)

theorem array {α : Type} [Fixed α] {vs : List α} (hv : ∀ v : α, (of v).Proper) :
    Spells (fun o => .array o vs) (counted vs.length (vs.map .of)) := by
  have h := (done.put (fun o => Fixed.run o.swap vs) (fun _ => Nat.le_of_eq (Fixed.length_run ..))
    (List.forall_mem_map.2 fun v _ => hv v) fun o => (spell_run o vs).symm).count vs.length
  rwa [List.append_nil] at h

theorem byteArray (bs : Bytes) : Spells (fun o => .byteArray o bs) (counted bs.length [.plain bs]) :=
  (done.bytes bs).count bs.length

theorem uuid (v : Uuid) (h : Spells l segs) : Spells (fun o => .uuid v (l o)) (Segment.uuid v segs) :=
  ((h.long _).long _).bytes _

theorem object (e : Emission) : Spells (fun _ => .object e) (Segment.object e.pieces.flatten) :=
  ⟨List.forall_mem_cons.2 ⟨.int _, List.forall_mem_singleton.2 (.plain _)⟩, fun _ _ => .object e,
    fun order _ => by simp [Layout.output, Output.exactly, Segment.object, counted]⟩

end Spells

theorem Datum.spells (d : Datum) : Spells d.layout d.segments := by
  cases d with
  | byte v => exact Spells.done.bytes _
  | short v => exact Spells.done.fixed (.short v)
  | int v => exact Spells.done.flat (Varint.length_groups_le ..)
  | long v => exact Spells.done.long v
  | float v => exact Spells.done.fixed (.float v)
  | double v => exact Spells.done.fixed (.double v)
  | char v => exact Spells.done.fixed (.char v)
  | boolean v => exact Spells.done.bytes _
  | byteArray vs => exact .byteArray vs
  | shortArray vs => exact .array .short
  | intArray vs => exact .array .int
  | longArray vs => exact .array .long
  | floatArray vs => exact .array .float
  | doubleArray vs => exact .array .double
  | charArray vs => exact .array .char
  | booleanArray vs => exact (Spells.done.flat (Nat.le_of_eq (List.length_map ..))).count vs.length
  | string s => exact .byteArray _
  | bitSet s => exact .array .word
  | uuid v => exact Spells.done.uuid v
  | extendedUuid v => exact (Spells.done.long v.localId).uuid v.globalId

theorem ItemType.spells_absent (t : ItemType) : Spells (fun o => t.absentLayout o) t.absentSegments := by
  cases t with
  | uuid | extendedUuid => exact Spells.done.bytes _
  | message => exact Spells.done.fixed (.short _)
  | _ => exact Spells.done.fixed (.int _)

theorem Segment.spells_part (bs : Bytes) (offset len : Nat) :
    Spells (fun o => .part o bs offset len) (part bs offset len) := by
  unfold Layout.part Segment.part
  cases bs.slice offset (offset + len) with
  | some part => exact .byteArray part
  | none => exact .refuse _ fun _ h => by cases h

/-- the count of a list is spelled as that of any other run, whatever room is made ahead -/
theorem Segment.spells_counted (way : Listing) (t : ItemType) (n : Nat) :
    Spells (fun o => .counted o way t n) (counted n []) := by
  unfold Layout.counted
  split
  · exact (Spells.done.count n).reserve _
  · exact Spells.done.count n

end Courier
