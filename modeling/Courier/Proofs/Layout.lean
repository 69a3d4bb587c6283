import Courier.Proofs.Buffer
import Courier.Proofs.Words
import Courier.Writer.Code

/-!
What the acts of a write session come to that touch no level.

Whatever a session does between two changes of the levels is a `Layout`, written down as data. Its `output` is what it
puts out wherever it stands, and how much room it asks for; its `result` is how it ends where there is room enough.
Neither looks at the buffer.

`Layout.goes`: running a layout puts out its output and ends with its result where it fits, and is refused where it
does not; nothing that was there before is lost.
`lays_writeDatum`, `lays_writeAbsent`, ...: the typed writes are layouts.
-/

namespace Courier

/-- what an act puts out: its bytes, and the room it asks for, both counted from where it starts -/
@[ext] structure Output where
  bytes : Bytes
  peak : Nat
  length_le : bytes.length ≤ peak

namespace Output

def nothing : Output :=
  ⟨[], 0, Nat.le_refl 0⟩

/-- bytes that ask for just the room they take -/
def exactly (bs : Bytes) : Output :=
  ⟨bs, bs.length, Nat.le_refl _⟩

/-- one output behind another -/
instance : Append Output where
  append o p :=
    { bytes := o.bytes ++ p.bytes
      peak := max o.peak (o.bytes.length + p.peak)
      length_le := by
        have := p.length_le
        rw [List.length_append]
        omega }

@[simp] theorem bytes_append (o p : Output) : (o ++ p).bytes = o.bytes ++ p.bytes := rfl

@[simp] theorem peak_append (o p : Output) : (o ++ p).peak = max o.peak (o.bytes.length + p.peak) := rfl

@[simp] theorem bytes_nothing : nothing.bytes = [] := rfl

@[simp] theorem peak_nothing : nothing.peak = 0 := rfl

@[simp] theorem nothing_append (o : Output) : nothing ++ o = o := by
  ext1 <;> simp

@[simp] theorem append_nothing (o : Output) : o ++ nothing = o := by
  have := o.length_le
  ext1 <;> simp [this]

theorem append_assoc (o p q : Output) : o ++ p ++ q = o ++ (p ++ q) := by
  ext1
  · simp
  · simp only [peak_append, bytes_append, List.length_append]
    omega

end Output

namespace Layout

open Writer

/-- what is put out, as far as it comes -/
def output (order : ByteOrder) : Layout → Output
  | done | refuse _ => .nothing
  | reserve room next =>
    let o := next.output order
    ⟨o.bytes, max room o.peak, Nat.le_trans o.length_le (Nat.le_max_right ..)⟩
  | put room bs fits next => ⟨bs, room, fits⟩ ++ next.output order
  | object e =>
    let out := e.pieces.flatten
    .exactly (Fixed.bytes order.swap (Int32.ofNat out.length) ++ out)

/-- how it ends where there is room enough -/
def result : Layout → Except WireError Unit
  | done => .ok ()
  | refuse e => .error e
  | reserve _ next | put _ _ _ next => next.result
  | object e =>
    if e.complete then (encodeLength e.pieces.flatten.length).map fun _ => () else .error .packEncode

/-- bytes as they are -/
def bytes (bs : Bytes) (next : Layout) : Layout :=
  put bs.length bs (Nat.le_refl _) next

/-- a number of fixed width -/
def fixed {α : Type} [Fixed α] (order : ByteOrder) (v : α) (next : Layout) : Layout :=
  put (Fixed.size α) (Fixed.bytes order.swap v) (Nat.le_of_eq (Fixed.length_bytes ..)) next

def long (v : Int64) (next : Layout) : Layout :=
  put maxVarint64 (Varint.encode64 v) (Varint.length_groups_le ..) next

/-- a length or a count -/
def count (order : ByteOrder) (n : Nat) (next : Layout) : Layout :=
  match encodeLength n with
  | .ok len => fixed order len next
  | .error e => refuse e

/-- numbers of fixed width, their count in front -/
def array {α : Type} [Fixed α] (order : ByteOrder) (vs : List α) : Layout :=
  count order vs.length
    (put (vs.length * Fixed.size α) (Fixed.run order.swap vs) (Nat.le_of_eq (Fixed.length_run ..)) done)

/-- bytes with their count in front -/
def byteArray (order : ByteOrder) (bs : Bytes) : Layout :=
  count order bs.length (bytes bs done)

/-- the halves of an identifier -/
def uuid (v : Uuid) (next : Layout) : Layout :=
  bytes [0] (long v.most.toInt64 (long v.least.toInt64 next))

end Layout

namespace Writer

/-- how an act may end that puts out `o` and would end with `res`, and that leaves the levels alone -/
inductive Goes (w : Writer) (o : Output) : Except WireError Unit → EStateM.Result Fault Writer Unit → Prop
  | done {v : Writer} (fits : w.Fits o.peak) (keeps : Keeps w v) (levels : v.nesting = w.nesting)
      (failed : v.failed = w.failed) (position : v.position = w.position + o.bytes.length)
      (written : v.written = w.written ++ o.bytes) : Goes w o (.ok ()) (.ok () v)
  | refused {e : WireError} {v : Writer} (fits : w.Fits o.peak) (keeps : Keeps w v) (levels : v.nesting = w.nesting)
      (failed : v.failed = true) (position : v.position = w.position + o.bytes.length) :
      Goes w o (.error e) (.error (.error e) v)
  | crowded {res : Except WireError Unit} {e : WireError} {v : Writer} (fits : ¬ w.Fits o.peak) (keeps : Keeps w v)
      (levels : v.nesting = w.nesting) (failed : v.failed = true) : Goes w o res (.error (.error e) v)

/-- room is made, bytes are put, and the act goes on -/
theorem Goes.put {w : Writer} {room : Nat} {bs : Bytes} {o : Output} {res : Except WireError Unit}
    {next : Writing Unit} (hw : w.Inside) (h : bs.length ≤ room)
    (hn : ∀ v : Writer, v.Inside → v.order = w.order → Goes v o res (next v)) :
    Goes w (⟨bs, room, h⟩ ++ o) res ((do Writer.put room bs; next) w) := by
  rw [bind_eq, put_eq w h]
  by_cases hf : w.Fits room
  · have hroom := le_capacity_grow hf
    have hfit : (w.grow room).position + bs.length ≤ (w.grow room).capacity := by
      rw [position_grow]
      omega
    have hk : Keeps w ((w.grow room).append bs) := (keeps_grow hw room).trans (keeps_append hfit)
    have hp : ((w.grow room).append bs).position = w.position + bs.length := by
      change (w.grow room).position + bs.length = _
      rw [position_grow]
    have hwr : ((w.grow room).append bs).written = w.written ++ bs := by
      rw [written_append hfit, written_grow hw]
    have hlev : ((w.grow room).append bs).nesting = w.nesting := w.nesting_grow room
    have hfl : ((w.grow room).append bs).failed = w.failed := w.failed_grow room
    have hfits : w.Fits (max room (bs.length + o.peak)) ↔ ((w.grow room).append bs).Fits o.peak := by
      rw [hk.fits_iff, hp, Nat.add_sub_cancel_left]
      simp only [Fits] at hf ⊢
      omega
    rw [if_pos hf]
    have key := hn _ hk.inside hk.order
    generalize (w.grow room).append bs = v at *
    change Goes w _ res (next v)
    generalize next v = r at key
    cases key with
    | done fits keeps levels failed position written =>
      refine .done (hfits.2 fits) (hk.trans keeps) (levels.trans hlev) (failed.trans hfl) ?_ ?_
      · rw [position, hp, Output.bytes_append, List.length_append, Nat.add_assoc]
      · rw [written, hwr, Output.bytes_append, List.append_assoc]
    | refused fits keeps levels failed position =>
      refine .refused (hfits.2 fits) (hk.trans keeps) (levels.trans hlev) failed ?_
      rw [position, hp, Output.bytes_append, List.length_append, Nat.add_assoc]
    | crowded fits keeps levels failed =>
      exact .crowded (fun h => fits (hfits.1 h)) (hk.trans keeps) (levels.trans hlev) failed
  · rw [if_neg hf]
    refine .crowded (fun h => hf ?_) (Keeps.refl hw).mark rfl rfl
    exact Nat.le_trans (Nat.add_le_add_left (Nat.le_max_left ..) _) h

/-- room is made ahead, and the act goes on -/
theorem Goes.reserve {w : Writer} {room : Nat} {o : Output} {res : Except WireError Unit} {next : Writing Unit}
    (hw : w.Inside) (h : o.bytes.length ≤ max room o.peak)
    (hn : ∀ v : Writer, v.Inside → v.order = w.order → Goes v o res (next v)) :
    Goes w ⟨o.bytes, max room o.peak, h⟩ res ((do let _ ← Writer.reserve room; next) w) := by
  rw [bind_eq, reserve_eq]
  by_cases hf : w.Fits room
  · have hk := keeps_grow hw room
    have hfits : w.Fits (max room o.peak) ↔ (w.grow room).Fits o.peak := by
      rw [hk.fits_iff, position_grow, Nat.sub_self, Nat.zero_add]
      simp only [Fits] at hf ⊢
      omega
    have hp := w.position_grow room
    have hwr := written_grow hw room
    have hlev := w.nesting_grow room
    have hfl := w.failed_grow room
    rw [if_pos hf]
    have key := hn _ hk.inside hk.order
    generalize w.grow room = v at *
    change Goes w _ res (next v)
    generalize next v = r at key
    cases key with
    | done fits keeps levels failed position written =>
      exact .done (hfits.2 fits) (hk.trans keeps) (levels.trans hlev) (failed.trans hfl) (by rw [position, hp])
        (by rw [written, hwr])
    | refused fits keeps levels failed position =>
      exact .refused (hfits.2 fits) (hk.trans keeps) (levels.trans hlev) failed (by rw [position, hp])
    | crowded fits keeps levels failed =>
      exact .crowded (fun h => fits (hfits.1 h)) (hk.trans keeps) (levels.trans hlev) failed
  · rw [if_neg hf]
    refine .crowded (fun h => hf ?_) (Keeps.refl hw).mark rfl rfl
    exact Nat.le_trans (Nat.add_le_add_left (Nat.le_max_left ..) _) h

theorem Goes.pure {w : Writer} (hw : w.Inside) : Goes w .nothing (.ok ()) (.ok () w) :=
  .done (Nat.le_trans hw (Nat.le_max_left ..)) (Keeps.refl hw) rfl rfl rfl (by simp)

theorem Goes.refuse {w : Writer} (hw : w.Inside) (e : WireError) :
    Goes w .nothing (.error e) (Writer.refuse (α := Unit) e w) :=
  .refused (Nat.le_trans hw (Nat.le_max_left ..)) (Keeps.refl hw).mark rfl rfl rfl

/-! ## Opaque objects -/

theorem goes_putPieces (ps : List Bytes) {w : Writer} (hw : w.Inside) :
    Goes w (.exactly ps.flatten) (.ok ()) (putPieces ps w) := by
  induction ps generalizing w with
  | nil => exact .pure hw
  | cons p ps ih =>
    have h := Goes.put (o := .exactly ps.flatten) hw (Nat.le_refl p.length) fun v hv _ => ih hv
    have ho : (⟨p, p.length, Nat.le_refl _⟩ : Output) ++ .exactly ps.flatten = .exactly (p :: ps).flatten := by
      ext1 <;> simp [Output.exactly]
    rwa [ho] at h

/-- the position moved over bytes that are there already -/
theorem keeps_advance {w : Writer} {n : Nat} (h : w.position + n ≤ w.capacity) :
    Keeps w { w with frame := w.frame.setPosition (w.position + n) } :=
  ⟨rfl, rfl, Nat.le_add_right .., h, Nat.le_refl _, Nat.le_max_left .., rfl, id, rfl, fun _ _ => rfl⟩

/-- bytes filled in behind what was written before `w` -/
theorem keeps_fillIn {w v : Writer} {bs : Bytes} (h : Keeps w v) (hb : w.position + bs.length ≤ v.capacity) :
    Keeps w { v with scratch := v.scratch.overwrite w.position bs } where
  frame := h.frame
  order := h.order
  position_le := h.position_le
  inside := h.inside
  capacity_le := h.capacity_le
  capacity_le_max := h.capacity_le_max
  front := by rw [← h.front]; exact v.scratch.take_overwrite hb (Nat.le_refl _)
  failed := h.failed
  depth := h.depth
  above := h.above

/-- filling in the first bytes of what a session wrote -/
theorem written_fillIn {w v : Writer} {head out : Bytes} (bs : Bytes) (hw : w.Inside) (hv : v.Inside)
    (hl : bs.length = head.length) (h : v.written = w.written ++ head ++ out) :
    Writer.written { v with scratch := v.scratch.overwrite w.position bs } = w.written ++ bs ++ out := by
  have hwl := length_written hw
  have hvl := length_written hv
  have hp : v.position = w.position + bs.length + out.length := by
    rw [← hvl, h, List.length_append, List.length_append, hwl, hl]
  have hb : w.position + bs.length ≤ v.capacity := by
    have : v.position ≤ v.capacity := hv
    omega
  have hin : w.position ≤ v.scratch.bytes.length := by
    rw [Scratch.length_bytes]
    simp only [capacity] at hb
    omega
  have hfront : v.scratch.bytes.take w.position = w.written := by
    have := congrArg (List.take w.position) h
    rwa [written, List.take_take, Nat.min_eq_left (by omega), List.append_assoc, List.take_left' hwl] at this
  have hback : (v.scratch.bytes.drop (w.position + bs.length)).take out.length = out := by
    have := congrArg (List.drop (w.position + bs.length)) h
    rwa [written, List.drop_take, hp, Nat.add_sub_cancel_left, hl, List.drop_left' (by simp [hwl]), ← hl] at this
  change (v.scratch.overwrite w.position bs).bytes.take v.position = _
  have hlen : (v.scratch.bytes.take w.position ++ bs).length = w.position + bs.length := by
    rw [List.length_append, List.length_take, Nat.min_eq_left hin]
  rw [Scratch.bytes_overwrite_eq _ hb, hp, List.take_append, List.take_of_length_le (by omega), hlen,
    Nat.add_sub_cancel_left, hback, hfront]

/-- the size of an object, filled in at `start` -/
def fillSize (start : Nat) (v : Writer) : EStateM.Result Fault Writer Unit :=
  match encodeLength (v.position - start - lengthPrefixSize) with
  | .ok size => splice start (Fixed.bytes v.order.swap size) v
  | .error e => Writer.refuse e v

theorem writeEmission_eq (e : Emission) (w : Writer) :
    writeEmission e w = match reserve lengthPrefixSize w with
      | .error f v => .error f v
      | .ok start v =>
        match putPieces e.pieces { v with frame := v.frame.setPosition (v.position + lengthPrefixSize) } with
        | .error (.error _) v => .error (.error .packEncode) v
        | .error .panic v => .error .panic v
        | .ok () v => if e.complete then fillSize start v else Writer.refuse .packEncode v := by
  rw [writeEmission, bind_eq]
  cases reserve lengthPrefixSize w with
  | error f v => rfl
  | ok start v =>
    simp only [bind_eq, advance, recast]
    cases putPieces e.pieces { v with frame := v.frame.setPosition (v.position + lengthPrefixSize) } with
    | error f v => cases f <;> rfl
    | ok _ v =>
      cases e.complete with
      | false => rfl
      | true =>
        change ((get : Writing Writer) >>= fun u => Writer.ofExcept (encodeLength (u.position - start - lengthPrefixSize))
          >>= fun size => splice start (Fixed.bytes u.order.swap size)) v = fillSize start v
        rw [bind_eq, get_eq, fillSize]
        simp only [bind_eq, Writer.ofExcept]
        cases encodeLength (v.position - start - lengthPrefixSize) <;> rfl

/-- what an object puts out -/
def objectOutput (order : ByteOrder) (out : Bytes) : Output :=
  .exactly (Fixed.bytes order.swap (Int32.ofNat out.length) ++ out)

theorem length_objectOutput (order : ByteOrder) (out : Bytes) :
    (objectOutput order out).bytes.length = lengthPrefixSize + out.length := by
  rw [objectOutput, Output.exactly, List.length_append, Fixed.length_bytes]
  rfl

theorem peak_objectOutput (order : ByteOrder) (out : Bytes) :
    (objectOutput order out).peak = lengthPrefixSize + out.length :=
  length_objectOutput order out

/-- an object that is out has found the room it asks for -/
theorem object_fits {w v : Writer} {head out : Bytes} (hw : w.Inside) (hk : Keeps w v)
    (hh : head.length = lengthPrefixSize) (written : v.written = w.written ++ head ++ out) :
    v.position = w.position + (objectOutput w.order out).bytes.length ∧ w.Fits (objectOutput w.order out).peak := by
  have hp : v.position = w.position + (objectOutput w.order out).bytes.length := by
    rw [← length_written hk.inside, written, List.append_assoc, List.length_append, List.length_append, hh,
      length_written hw, length_objectOutput]
  have hc : v.position ≤ v.capacity := hk.inside
  rw [hp] at hc
  exact ⟨hp, Nat.le_trans hc hk.capacity_le_max⟩

/-- the size goes in front of what has been put out since `w` -/
theorem goes_fillSize {w v : Writer} {head out : Bytes} (hw : w.Inside) (hk : Keeps w v)
    (levels : v.nesting = w.nesting) (failed : v.failed = w.failed) (hh : head.length = lengthPrefixSize)
    (written : v.written = w.written ++ head ++ out) :
    Goes w (objectOutput w.order out) ((encodeLength out.length).map fun _ => ()) (fillSize w.position v) := by
  obtain ⟨hp, hfits⟩ := object_fits hw hk hh written
  have hlen := length_objectOutput w.order out
  rw [fillSize, show v.position - w.position - lengthPrefixSize = out.length by omega]
  by_cases hn : out.length ≤ 2147483647
  · have hb : w.position + (Fixed.bytes v.order.swap (Int32.ofNat out.length)).length ≤ v.capacity := by
      rw [Fixed.length_bytes]
      exact Nat.le_trans (by rw [hp, hlen]; simp [Fixed.size, lengthPrefixSize]) hk.inside
    have hwr := written_fillIn (Fixed.bytes v.order.swap (Int32.ofNat out.length)) hw hk.inside
      (by rw [Fixed.length_bytes, hh]; rfl) written
    rw [hk.order, List.append_assoc, ← hk.order] at hwr
    simp only [encodeLength, if_pos hn, splice, if_pos hb]
    refine .done hfits (keeps_fillIn hk hb) levels failed hp (hwr.trans ?_)
    rw [hk.order]
    rfl
  · simp only [encodeLength, if_neg hn]
    exact .refused hfits hk.mark levels rfl hp

theorem goes_writeEmission (e : Emission) {w : Writer} (hw : w.Inside) :
    Goes w ((Layout.object e).output w.order) (Layout.object e).result (writeEmission e w) := by
  change Goes w (objectOutput w.order e.pieces.flatten) _ _
  rw [writeEmission_eq, reserve_eq]
  by_cases hf : w.Fits lengthPrefixSize
  · have hroom : (w.grow lengthPrefixSize).position + lengthPrefixSize ≤ (w.grow lengthPrefixSize).capacity := by
      rw [position_grow]
      exact le_capacity_grow hf
    have hk := (keeps_grow hw lengthPrefixSize).trans (keeps_advance hroom)
    have hlev := w.nesting_grow lengthPrefixSize
    have hfl := w.failed_grow lengthPrefixSize
    have hp := w.position_grow lengthPrefixSize
    have hfront := written_grow hw lengthPrefixSize
    rw [if_pos hf]
    dsimp only
    generalize w.grow lengthPrefixSize = v₁ at *
    have hskip : (v₁.scratch.bytes.take (v₁.position + lengthPrefixSize))
        = w.written ++ (v₁.scratch.bytes.drop v₁.position).take lengthPrefixSize := by
      rw [List.take_add, ← hfront]
      rfl
    have hstale : ((v₁.scratch.bytes.drop v₁.position).take lengthPrefixSize).length = lengthPrefixSize := by
      rw [List.length_take, List.length_drop, Scratch.length_bytes]
      simp only [capacity] at hroom
      omega
    have key := goes_putPieces e.pieces hk.inside
    generalize putPieces e.pieces _ = r at key
    cases key with
    | done fits keeps levels failed position written =>
      have hwr := written.trans (congrArg (· ++ _) hskip)
      have hfill := goes_fillSize hw (hk.trans keeps) (levels.trans hlev) (failed.trans hfl) hstale hwr
      cases hc : e.complete with
      | true =>
        simp only [Layout.result, hc, if_true]
        exact hfill
      | false =>
        obtain ⟨hpos, hfits⟩ := object_fits hw (hk.trans keeps) hstale hwr
        simp only [Layout.result, hc, Bool.false_eq_true, if_false]
        exact .refused hfits (hk.trans keeps).mark (levels.trans hlev) rfl hpos
    | crowded fits keeps levels failed =>
      refine .crowded (fun h => fits ?_) (hk.trans keeps) (levels.trans hlev) failed
      rw [peak_objectOutput] at h
      rw [hk.fits_iff]
      change w.Fits (v₁.position + lengthPrefixSize - w.position + _)
      rwa [hp, Nat.add_sub_cancel_left]
  · rw [if_neg hf]
    refine .crowded (fun h => hf ?_) (Keeps.refl hw).mark rfl rfl
    rw [peak_objectOutput] at h
    exact Nat.le_trans (Nat.add_le_add_left (Nat.le_add_right ..) _) h

end Writer

/-- running a layout puts out its output and ends with its result, or is refused for want of room -/
theorem Layout.goes (l : Layout) {w : Writer} (hw : w.Inside) : w.Goes (l.output w.order) l.result (l.run w) := by
  induction l generalizing w with
  | done => exact .pure hw
  | refuse e => exact .refuse hw e
  | reserve room next ih => exact .reserve hw _ fun v hv ho => ho ▸ ih hv
  | put room bs fits next ih => exact .put hw fits fun v hv ho => ho ▸ ih hv
  | object e => exact Writer.goes_writeEmission e hw

/-! ## The typed writes -/

/-- the layout of a datum -/
def Datum.layout (order : ByteOrder) : Datum → Layout
  | .byte v => .bytes [v] .done
  | .short v => .fixed order v .done
  | .int v => .put maxVarint32 (Varint.encode32 v) (Varint.length_groups_le ..) .done
  | .long v => .long v .done
  | .float v => .fixed order v .done
  | .double v => .fixed order v .done
  | .char v => .fixed order v .done
  | .boolean v => .bytes [if v then 1 else 0] .done
  | .byteArray vs => .byteArray order vs
  | .shortArray vs => .array order vs
  | .intArray vs => .array order vs
  | .longArray vs => .array order vs
  | .floatArray vs => .array order vs
  | .doubleArray vs => .array order vs
  | .charArray vs => .array order vs
  | .booleanArray vs =>
    .count order vs.length (.put vs.length (boolBytes vs) (Nat.le_of_eq (List.length_map ..)) .done)
  | .string s => .byteArray order (Utf8.encode s)
  | .bitSet s => .array order s.words
  | .uuid v => .uuid v .done
  | .extendedUuid v => .uuid v.globalId (.long v.localId .done)

/-- the layout of what stands for an absent item -/
def ItemType.absentLayout (order : ByteOrder) : ItemType → Layout
  | .uuid | .extendedUuid => .bytes [1] .done
  | .message => .fixed order nullMessageType .done
  | _ => .fixed order nullLength .done

/-- the layout of a part of some bytes -/
def Layout.part (order : ByteOrder) (bs : Bytes) (offset len : Nat) : Layout :=
  match bs.slice offset (offset + len) with
  | some part => .byteArray order part
  | none => .refuse (.invalidLength "byte array range" (Int64.ofNat len).toInt)

/-- the layout of what stands in front of the items of a container -/
def Layout.counted (order : ByteOrder) (way : Listing) (t : ItemType) (n : Nat) : Layout :=
  if way = .list then .reserve (n * t.minEncodedLength + lengthPrefixSize) (.count order n .done)
  else .count order n .done

namespace Writer

/-- what stands in front of the items of a container -/
def writeCount (way : Listing) (t : ItemType) (n : Nat) : Writing Unit := do
  if way = .list then
    let _ ← reserve (n * t.minEncodedLength + lengthPrefixSize)
  putLength n

/-- an act is what a layout says, which may depend on the byte order -/
def Lays (act : Writing Unit) (l : ByteOrder → Layout) : Prop :=
  ∀ w, act w = (l w.order).run w

theorem Lays.put {room : Nat} {bs : Bytes} (h : bs.length ≤ room) {act : Writing Unit} {l : ByteOrder → Layout}
    (ha : Lays act l) : Lays (do put room bs; act) fun o => .put room bs h (l o) := by
  intro w
  rw [Layout.run, bind_eq, bind_eq, put_eq w h]
  by_cases hf : w.Fits room
  · rw [if_pos hf]
    have ho : ((w.grow room).append bs).order = w.order := by
      simp only [append, grow]
      split <;> rfl
    exact ho ▸ ha _
  · rw [if_neg hf]
    rfl

theorem Lays.reserve (n : Nat) {act : Writing Unit} {l : ByteOrder → Layout} (ha : Lays act l) :
    Lays (do let _ ← Writer.reserve n; act) fun o => .reserve n (l o) := by
  intro w
  rw [Layout.run, bind_eq, bind_eq, reserve_eq]
  by_cases hf : w.Fits n
  · rw [if_pos hf]
    have ho : (w.grow n).order = w.order := by
      unfold grow
      split <;> rfl
    exact ho ▸ ha _
  · rw [if_neg hf]

theorem Lays.fixed {α : Type} [Fixed α] (v : α) {act : Writing Unit} {l : ByteOrder → Layout} (ha : Lays act l) :
    Lays (do putFixed v; act) fun o => .fixed o v (l o) := by
  intro w
  exact Lays.put (Nat.le_of_eq (Fixed.length_bytes w.order.swap v)) ha w

theorem Lays.count (n : Nat) {act : Writing Unit} {l : ByteOrder → Layout} (ha : Lays act l) :
    Lays (do putLength n; act) fun o => .count o n (l o) := by
  intro w
  unfold putLength Layout.count
  cases encodeLength n with
  | ok len => exact Lays.fixed len ha w
  | error e => rfl

theorem Lays.done : Lays (pure ()) fun _ => .done :=
  fun _ => rfl

/-- an act by itself is an act with nothing behind it -/
theorem Lays.alone {act : Writing Unit} {l : ByteOrder → Layout} (h : Lays (do act; pure ()) l) : Lays act l := by
  simpa using h

theorem Lays.array {α : Type} [Fixed α] (vs : List α) : Lays (putArray vs) fun o => .array o vs := by
  have h : Lays (do let w ← get; Writer.put (vs.length * Fixed.size α) (Fixed.run w.order.swap vs)) fun o =>
      .put (vs.length * Fixed.size α) (Fixed.run o.swap vs) (Nat.le_of_eq (Fixed.length_run ..)) .done := by
    intro w
    exact (Lays.put (Nat.le_of_eq (Fixed.length_run w.order.swap vs)) Lays.done).alone w
  exact h.count vs.length

theorem Lays.byteArray (bs : Bytes) : Lays (writeByteArray bs) fun o => .byteArray o bs :=
  (Lays.put (Nat.le_refl _) Lays.done).alone.count bs.length

theorem Lays.uuid (v : Uuid) {act : Writing Unit} {l : ByteOrder → Layout} (ha : Lays act l) :
    Lays (do writeUuid v; act) fun o => .uuid v (l o) := by
  unfold writeUuid
  simp only [bind_assoc]
  exact Lays.put (Nat.le_refl _) (Lays.put (Varint.length_groups_le ..) (Lays.put (Varint.length_groups_le ..) ha))

theorem lays_writeDatum (d : Datum) : Lays (writeDatum d) d.layout := by
  cases d with
  | byte v => exact (Lays.put (Nat.le_refl _) Lays.done).alone
  | short v => exact (Lays.fixed v Lays.done).alone
  | int v => exact (Lays.put (Varint.length_groups_le ..) Lays.done).alone
  | long v => exact (Lays.put (Varint.length_groups_le ..) Lays.done).alone
  | float v => exact (Lays.fixed v Lays.done).alone
  | double v => exact (Lays.fixed v Lays.done).alone
  | char v => exact (Lays.fixed v Lays.done).alone
  | boolean v => exact (Lays.put (Nat.le_refl _) Lays.done).alone
  | byteArray vs => exact .byteArray vs
  | shortArray vs => exact .array vs
  | intArray vs => exact .array vs
  | longArray vs => exact .array vs
  | floatArray vs => exact .array vs
  | doubleArray vs => exact .array vs
  | charArray vs => exact .array vs
  | booleanArray vs => exact (Lays.put (Nat.le_of_eq (List.length_map ..)) Lays.done).alone.count vs.length
  | string s => exact .byteArray _
  | bitSet s => exact .array _
  | uuid v => exact (Lays.uuid v Lays.done).alone
  | extendedUuid v => exact Lays.uuid v.globalId (Lays.put (Varint.length_groups_le ..) Lays.done).alone

theorem lays_writeAbsent (t : ItemType) : Lays (writeAbsent t) fun o => t.absentLayout o := by
  cases t with
  | uuid | extendedUuid => exact (Lays.put (Nat.le_refl _) Lays.done).alone
  | _ => exact (Lays.fixed _ Lays.done).alone

theorem lays_writeByteArrayPart (bs : Bytes) (offset len : Nat) :
    Lays (writeByteArrayPart bs offset len) fun o => .part o bs offset len := by
  intro w
  unfold writeByteArrayPart Layout.part
  cases bs.slice offset (offset + len) with
  | some part => exact Lays.byteArray part w
  | none => rfl

theorem lays_writeCount (way : Listing) (t : ItemType) (n : Nat) :
    Lays (writeCount way t n) fun o => .counted o way t n := by
  have h : Lays (putLength n) fun o => .count o n .done := (Lays.count n Lays.done).alone
  unfold writeCount Layout.counted
  cases way with
  | list => simpa using h.reserve (n * t.minEncodedLength + lengthPrefixSize)
  | array | collection => simpa using h

end Writer

end Courier
