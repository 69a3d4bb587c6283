import Courier.Proofs.Groups
import Courier.Proofs.Resume

/-!
What a message leaves behind that has come to its end.

Levels are `Shallow` where nothing is in progress below the one at hand. A call that starts on such levels and comes to
its end leaves such levels again, and the room it asked for on the way was hardly more than what it put out: that is
`Tidy`, together with the least number of bytes put out.

`Message.tidy`, `Value.tidy`: every call is tidy, and an item takes the least number of bytes of its kind.
`Dispatch.root_clear`: the outermost message leaves all levels clear.
-/

namespace Courier

open Writer Dispatch

/-- nothing is in progress below the level at hand -/
def Levels.Shallow (s : Levels) : Prop :=
  ∀ i, s.depth < i → s.level i = .blank

theorem Levels.shallow_fresh : Levels.fresh.Shallow :=
  fun _ _ => rfl

theorem Levels.Shallow.update {s : Levels} (h : s.Shallow) (l : Level) : (s.update l).Shallow :=
  fun i hi => (s.level_update_of_ne l (Nat.ne_of_gt hi)).trans (h i hi)

theorem Levels.Shallow.forward {s : Levels} (h : s.Shallow) : s.forward.Shallow :=
  fun i hi => h i (Nat.lt_of_succ_lt hi)

/-- the next level down is clear -/
theorem Levels.Shallow.headerWritten {s : Levels} (h : s.Shallow) : s.forward.headerWritten = false :=
  congrArg Level.headerWritten (h _ (Nat.lt_succ_self _))

/-- more room than the bytes that were put out by no more than the slack of a varint -/
def Output.Snug (o : Output) : Prop :=
  o.peak ≤ o.bytes.length + (maxVarint64 - 1)

theorem Output.Snug.append {o p : Output} (ho : o.Snug) (hp : p.Snug) : (o ++ p).Snug := by
  simp only [Snug, peak_append, bytes_append, List.length_append] at *
  omega

theorem Output.snug_exactly (bs : Bytes) : (Output.exactly bs).Snug :=
  Nat.le_add_right ..

namespace Layout

/-- room is asked for hardly beyond what is put, and never ahead -/
def Tight : Layout → Prop
  | done | refuse _ | object _ => True
  | reserve .. => False
  | put room bs _ next => room ≤ bs.length + (maxVarint64 - 1) ∧ next.Tight

theorem Tight.snug {l : Layout} (h : l.Tight) (order : ByteOrder) : (l.output order).Snug := by
  induction l with
  | done | refuse => exact Nat.zero_le _
  | reserve => cases h
  | put room bs fits next ih => exact Output.Snug.append h.1 (ih h.2)
  | object e => exact Output.snug_exactly _

theorem tight_bytes (bs : Bytes) {next : Layout} (h : next.Tight) : (bytes bs next).Tight :=
  ⟨Nat.le_add_right .., h⟩

theorem tight_fixed {α : Type} [Fixed α] (order : ByteOrder) (v : α) {next : Layout} (h : next.Tight) :
    (fixed order v next).Tight :=
  ⟨by rw [Fixed.length_bytes]; exact Nat.le_add_right .., h⟩

theorem tight_long (v : Int64) {next : Layout} (h : next.Tight) : (long v next).Tight := by
  have := Varint.length_groups_pos 9 (Varint.bias64 v)
  refine ⟨?_, h⟩
  simp only [Varint.encode64, maxVarint64]
  omega

theorem tight_count (order : ByteOrder) (n : Nat) {next : Layout} (h : next.Tight) : (count order n next).Tight := by
  unfold count
  cases encodeLength n with
  | ok len => exact tight_fixed order len h
  | error e => trivial

theorem tight_array {α : Type} [Fixed α] (order : ByteOrder) (vs : List α) : (array order vs).Tight :=
  tight_count order _ ⟨by rw [Fixed.length_run]; exact Nat.le_add_right .., trivial⟩

theorem tight_byteArray (order : ByteOrder) (bs : Bytes) : (byteArray order bs).Tight :=
  tight_count order _ (tight_bytes bs trivial)

theorem tight_uuid (v : Uuid) {next : Layout} (h : next.Tight) : (uuid v next).Tight :=
  tight_bytes _ (tight_long _ (tight_long _ h))

/-- a count that is not refused takes four bytes -/
theorem length_count (order : ByteOrder) (n : Nat) {next : Layout} (h : (count order n next).result = .ok ()) :
    lengthPrefixSize ≤ ((count order n next).output order).bytes.length := by
  unfold count at h ⊢
  cases hn : encodeLength n with
  | ok len => simp [fixed, output, Fixed.size, lengthPrefixSize]
  | error e => simp [hn, result] at h

/-- the room made ahead for a list is taken by its items -/
theorem snug_counted {order : ByteOrder} {way : Listing} {t : ItemType} {n : Nat} {o : Output}
    (h : (counted order way t n).result = .ok ()) (ho : o.Snug) (hn : n * t.minEncodedLength ≤ o.bytes.length) :
    ((counted order way t n).output order ++ o).Snug := by
  have ht : (count order n .done).Tight := tight_count order n trivial
  have hc := ht.snug order
  unfold counted at h ⊢
  by_cases hw : way = .list
  · rw [if_pos hw] at h ⊢
    have hl := length_count order n h
    simp only [output, Output.Snug, Output.peak_append, Output.bytes_append, List.length_append] at *
    omega
  · rw [if_neg hw]
    exact hc.append ho

end Layout

theorem Datum.tight_layout (order : ByteOrder) (d : Datum) : (d.layout order).Tight := by
  cases d with
  | byte | boolean => exact Layout.tight_bytes _ trivial
  | short | float | double | char => exact Layout.tight_fixed _ _ trivial
  | int v => exact ⟨Nat.le_trans (by decide) (Nat.le_add_left ..), trivial⟩
  | long v => exact Layout.tight_long _ trivial
  | byteArray | string => exact Layout.tight_byteArray _ _
  | shortArray | intArray | longArray | floatArray | doubleArray | charArray | bitSet => exact Layout.tight_array _ _
  | booleanArray vs =>
    exact Layout.tight_count order _ ⟨by rw [boolBytes, List.length_map]; exact Nat.le_add_right .., trivial⟩
  | uuid v => exact Layout.tight_uuid _ trivial
  | extendedUuid v => exact Layout.tight_uuid _ (Layout.tight_long _ trivial)

theorem Datum.minEncodedLength_le (order : ByteOrder) (d : Datum) (h : (d.layout order).result = .ok ()) :
    d.itemType.minEncodedLength ≤ ((d.layout order).output order).bytes.length := by
  cases d with
  | byteArray | shortArray | intArray | longArray | floatArray | doubleArray | charArray | booleanArray | string
  | bitSet => exact Layout.length_count order _ h
  | int v =>
    have := Varint.length_groups_pos 4 (Varint.bias32 v)
    simp only [layout, Layout.output, Output.bytes_append, List.length_append, Varint.encode32]
    exact Nat.le_trans this (Nat.le_add_right ..)
  | long v =>
    have := Varint.length_groups_pos 9 (Varint.bias64 v)
    simp only [layout, Layout.long, Layout.output, Output.bytes_append, List.length_append, Varint.encode64]
    exact Nat.le_trans this (Nat.le_add_right ..)
  | _ => simp [layout, Layout.output, Layout.bytes, Layout.fixed, Layout.uuid, itemType, ItemType.minEncodedLength, Fixed.size]

theorem ItemType.tight_absentLayout (order : ByteOrder) (t : ItemType) : (t.absentLayout order).Tight := by
  cases t with
  | uuid | extendedUuid => exact Layout.tight_bytes _ trivial
  | _ => exact Layout.tight_fixed _ _ trivial

theorem ItemType.minEncodedLength_pos (t : ItemType) : 0 < t.minEncodedLength := by
  cases t <;> decide

theorem ItemType.minEncodedLength_le (order : ByteOrder) {t : ItemType} (h : t.isNullable = true) :
    t.minEncodedLength ≤ ((t.absentLayout order).output order).bytes.length := by
  cases t with
  | byte | short | int | long | float | double | char | boolean => cases h
  | _ => simp [absentLayout, Layout.output, Layout.bytes, Layout.fixed, minEncodedLength, Fixed.size]

namespace Dispatch

variable {α β : Type}

/-- a call from the levels `s` that comes to its end puts out `least` bytes or more, asks for hardly more room than that,
and leaves nothing in progress below, if there was nothing -/
def Tidy (least : Nat) (s : Levels) (d : Dispatch α) : Prop :=
  s.Shallow → d.result = .ok true → d.levels.Shallow ∧ d.out.Snug ∧ least ≤ d.out.bytes.length

namespace Tidy

variable {n k : Nat} {s : Levels} {d : Dispatch α}

theorem stay (left : α) (result : Except Fault Bool) (s : Levels) : Tidy 0 s (.stay left result s) :=
  fun hs _ => ⟨hs, Nat.zero_le _, Nat.zero_le _⟩

/-- a change of the level at hand -/
theorem update (left : α) (s : Levels) (l : Level) : Tidy 0 s (.stay left (.ok true) (s.update l)) :=
  fun hs _ => ⟨hs.update l, Nat.zero_le _, Nat.zero_le _⟩

theorem ofLayout (left : α) {order : ByteOrder} {l : Layout} (s : Levels) (ht : l.Tight)
    (hl : l.result = .ok () → n ≤ (l.output order).bytes.length) : Tidy n s (.ofLayout left order l s) := by
  intro hs hr
  unfold Dispatch.ofLayout at hr ⊢
  cases hres : l.result with
  | ok => exact ⟨hs, ht.snug order, hl hres⟩
  | error e => simp [hres] at hr

theorem mono (h : Tidy n s d) (hk : k ≤ n) : Tidy k s d :=
  fun hs hr => ⟨(h hs hr).1, (h hs hr).2.1, Nat.le_trans hk (h hs hr).2.2⟩

theorem behind (h : Tidy n s d) (hd : d.result = .ok true) {e : Dispatch β} (he : Tidy k d.levels e) :
    Tidy (n + k) s (e.behind d.out d.failed) := by
  intro hs hr
  obtain ⟨hl, ho, hn⟩ := h hs hd
  obtain ⟨hl', ho', hk⟩ := he hl hr
  refine ⟨hl', ho.append ho', ?_⟩
  change n + k ≤ (d.out.bytes ++ e.out.bytes).length
  rw [List.length_append]
  omega

theorem bind (h : Tidy n s d) {next : α → Levels → Dispatch β} {stop : α → β} (hn : ∀ a t, Tidy k t (next a t)) :
    Tidy (n + k) s (d.bind next stop) := by
  intro hs hr
  obtain ⟨hd, -⟩ := bind_done hr
  rw [bind_of_done hd] at hr ⊢
  exact h.behind hd (hn d.left d.levels) hs hr

theorem leave (h : Tidy n s.forward d) (hd : Sound s.forward d) : Tidy n s d.leave := by
  intro hs hr
  have hdep : d.levels.depth = s.depth + 1 := hd.depth
  have hdone : d.result = .ok true := (result_leave (by omega)).symm.trans hr
  obtain ⟨hl, ho, hn⟩ := h hs.forward hdone
  rw [levels_leave (by omega) hdone, out_leave]
  refine ⟨fun i hi => ?_, ho, hn⟩
  rw [Levels.depth_retreat] at hi
  by_cases hi' : i = d.levels.depth
  · rw [hi']
    exact d.levels.level_update_self _
  · exact (d.levels.level_update_of_ne _ hi').trans (hl i (by omega))

theorem settle (h : Tidy n s d) : Tidy n s d.settle := by
  intro hs hr
  unfold Dispatch.settle at hr ⊢
  split at hr
  · rename_i hd
    obtain ⟨hl, ho, hn⟩ := h hs hd
    split at hr
    · rename_i h0
      simp only [h0, if_true]
      exact ⟨hl.update .blank, ho, hn⟩
    · cases hr
  · rename_i hd
    simp [hd] at hr
  · rename_i hd
    simp [hd] at hr
  · rename_i hd
    simp [hd] at hr

theorem whole (h : Tidy n s d) (type : Int16) : Tidy n s (d.whole type) := by
  intro hs hr
  have hd := result_of_whole hr
  simp only [Dispatch.whole, hd]
  exact h hs hd

theorem rounds {d : Dispatch (Grant × α)} (h : Tidy n s d) {m : Nat} {pass : Grant → Levels → Dispatch (Grant × α)}
    (hp : ∀ g t, Tidy 0 t (pass g t)) (k : Nat) : Tidy n s (d.rounds m pass k) := by
  induction k generalizing d with
  | zero =>
    unfold Dispatch.rounds
    split
    · split
      · exact fun _ h => by cases h
      · exact h
    · exact h
  | succ k ih =>
    unfold Dispatch.rounds
    split
    · rename_i hd
      split
      · exact ih (h.behind hd (hp _ _))
      · exact h
    · exact h

end Tidy

theorem tidy_fields {order : ByteOrder} {fs : List Field} (h : ∀ f ∈ fs, ∀ s, Tidy 0 s (f.dispatch order s)) (k : Nat)
    (grant : Grant) (s : Levels) : Tidy 0 s (Field.dispatchAll order k grant fs s) := by
  induction fs generalizing k grant s with
  | nil => exact .stay _ _ _
  | cons f fs ih =>
    have hrest := ih fun f hf => h f (List.mem_cons_of_mem _ hf)
    rw [Field.dispatchAll]
    split
    · cases spend grant with
      | none => exact .stay _ _ _
      | some grant =>
        apply (h f List.mem_cons_self s).bind (n := 0) (k := 0)
        intro f t
        exact fun hs => hrest (k + 1) grant t.increment (hs.update _)
    · exact hrest (k + 1) grant s

theorem tidy_values {order : ByteOrder} {vs : List Value} (t : ItemType)
    (h : ∀ v ∈ vs, ∀ s, Tidy t.minEncodedLength s (v.dispatch order t s)) (s : Levels) :
    Tidy (vs.length * t.minEncodedLength) s (Value.dispatchAll order t vs s) := by
  induction vs generalizing s with
  | nil => rw [List.length_nil, Nat.zero_mul]; exact .stay _ _ _
  | cons v vs ih =>
    rw [Value.dispatchAll, List.length_cons, Nat.succ_mul, Nat.add_comm]
    exact (h v List.mem_cons_self s).bind fun _ u => ih (fun v hv => h v (List.mem_cons_of_mem _ hv)) u

theorem tidy_entries {order : ByteOrder} {es : List (Value × Value)}
    (h : ∀ e ∈ es, (∀ t s, Tidy t.minEncodedLength s (e.1.dispatch order t s)) ∧
      ∀ t s, Tidy t.minEncodedLength s (e.2.dispatch order t s))
    (kt vt : ItemType) (s : Levels) : Tidy (2 * es.length) s (Value.dispatchEntries order kt vt es s) := by
  induction es generalizing s with
  | nil => exact .stay _ _ _
  | cons e es ih =>
    obtain ⟨hk, hv⟩ := h e List.mem_cons_self
    rw [Value.dispatchEntries, List.length_cons, Nat.mul_succ, Nat.add_comm]
    refine Tidy.mono ((hk kt s).bind fun _ u => (hv vt u).bind fun _ u' =>
      ih (fun e he => h e (List.mem_cons_of_mem _ he)) u') ?_
    have := kt.minEncodedLength_pos
    have := vt.minEncodedLength_pos
    omega

theorem tidy_plain (order : ByteOrder) {f : Field} (h : f.isPlain = true) (s : Levels) :
    Tidy 0 s (f.dispatch order s) := by
  cases f with
  | data d => rw [Field.dispatch]; exact .ofLayout _ s (d.tight_layout order) fun _ => Nat.zero_le _
  | absent t => rw [Field.dispatch]; exact .ofLayout _ s (t.tight_absentLayout order) fun _ => Nat.zero_le _
  | fixedInt v | fixedLong v =>
    rw [Field.dispatch]
    exact .ofLayout _ s (Layout.tight_fixed order v trivial) fun _ => Nat.zero_le _
  | range bs offset len =>
    rw [Field.dispatch]
    refine .ofLayout _ s ?_ fun _ => Nat.zero_le _
    unfold Layout.part
    cases bs.slice offset (offset + len) with
    | none => trivial
    | some part => exact Layout.tight_byteArray order part
  | raw bs => rw [Field.dispatch]; exact .ofLayout _ s (Layout.tight_bytes bs trivial) fun _ => Nat.zero_le _
  | object shape p => rw [Field.dispatch]; exact .ofLayout _ s trivial fun _ => Nat.zero_le _
  | nothing => rw [Field.dispatch]; exact .ofLayout _ s (Layout.tight_fixed order _ trivial) fun _ => Nat.zero_le _
  | message m =>
    cases m with
    | none => rw [Field.dispatch]; exact .ofLayout _ s (Layout.tight_fixed order _ trivial) fun _ => Nat.zero_le _
    | some m => cases h
  | note | stall | fail => exact .stay _ _ _
  | advance | markHeader => exact .update _ _ _
  | _ => cases h

/-- where the header is not out yet, a message puts out at least that -/
theorem tidy_message {order : ByteOrder} (kind : MessageKind) {fields : List Field} (pauses : List Nat)
    (h : ∀ f ∈ fields, ∀ s, Tidy 0 s (f.dispatch order s)) (s : Levels) :
    Tidy (if s.headerWritten then 0 else directTypeSize) s ((Message.mk kind fields pauses).dispatch order s) := by
  have hp := fun grant t => tidy_fields h 0 grant t
  rw [Message.dispatch]
  split
  · dsimp only
    rw [behind_nothing]
    exact (hp _ s).rounds hp _
  · cases spend pauses.head? with
    | none => exact fun _ h => by cases h
    | some grant =>
      have hhead : Tidy directTypeSize s
          (⟨.ok true, (Layout.fixed order kind.type .done).output order, s.markHeader, false, ()⟩ : Dispatch Unit) := by
        intro hs _
        have ht : (Layout.fixed order kind.type .done).Tight := Layout.tight_fixed order kind.type trivial
        refine ⟨hs.update _, ht.snug order, ?_⟩
        simp [Layout.fixed, Layout.output, directTypeSize, Fixed.size]
      exact (hhead.behind rfl (hp grant s.markHeader)).rounds hp _

theorem tidy_step (order : ByteOrder) :
    Tree.Step
      (fun m => m.resumable = true → ∀ s, Tidy (if s.headerWritten then 0 else directTypeSize) s (m.dispatch order s))
      (fun f => f.resumable = true → ∀ s, Tidy 0 s (f.dispatch order s))
      fun v => v.resumable = true → ∀ t s, Tidy t.minEncodedLength s (v.dispatch order t s) where
  message kind _ pauses h hr s := by
    rw [Message.resumable, Field.resumableAll_iff] at hr
    exact tidy_message kind pauses (fun f hf => h f hf (hr f hf)) s
  plain _ h _ s := tidy_plain order h s
  item t v h hr s := by
    rw [Field.dispatch]
    exact (h hr t s).mono (Nat.zero_le _)
  items way t vs h hr s := by
    rw [Field.resumable, Value.resumableAll_iff] at hr
    intro hs hres
    rw [Field.dispatch] at hres ⊢
    obtain ⟨hc, hvs⟩ := bind_done (d := ofLayout () order _ s) (n := fun _ => Value.dispatchAll order t vs) hres
    rw [bind_of_done hc]
    obtain ⟨hres, hlev, hout⟩ := ofLayout_done hc
    rw [hlev] at hvs
    obtain ⟨hl, ho, hn⟩ := tidy_values t (fun v hv => h v hv (hr v hv) t) s hs hvs
    refine ⟨?_, ?_, Nat.zero_le _⟩
    · simpa only [behind, map, hlev] using hl
    · simpa only [behind, map, hlev, hout] using Layout.snug_counted hres ho hn
  map kt vt _ es h hr s := by
    rw [Field.resumable, Value.resumableEntries_iff] at hr
    rw [Field.dispatch]
    have hc : Tidy 0 s (.ofLayout () order (.count order es.length .done) s) :=
      .ofLayout () s (Layout.tight_count order _ trivial) fun _ => Nat.zero_le _
    exact (hc.bind fun _ u => tidy_entries (fun e he => ⟨(h e he).1 (hr e he).1, (h e he).2 (hr e he).2⟩) kt vt u).mono
      (Nat.zero_le _)
  nested m h hr s := by
    rw [Field.dispatch]
    exact ((h hr s.forward).mono (Nat.zero_le _)).leave (m.sound order s.forward)
  root m h hr := by cases hr
  null _ t s := by
    rw [Value.dispatch]
    split
    · rename_i ht
      exact .ofLayout () s (t.tight_absentLayout order) fun _ => ItemType.minEncodedLength_le order ht
    · exact .ofLayout () s trivial fun h => by cases h
  data d _ t s := by
    rw [Value.dispatch]
    split
    · rename_i ht
      exact .ofLayout () s (d.tight_layout order) fun hr => ht ▸ d.minEncodedLength_le order hr
    · exact .ofLayout () s trivial fun h => by cases h
  inner m h hr t s := by
    rw [Value.dispatch]
    split
    · rename_i ht
      intro hs
      -- the level below is clear, so the message begins with its header
      have hm := h hr s.forward
      rw [hs.headerWritten] at hm
      rw [ht]
      exact (hm.leave (m.sound order s.forward)).whole m.type hs
    · exact .ofLayout () s trivial fun h => by cases h

end Dispatch

open Dispatch

theorem Message.tidy {m : Message} (hm : m.resumable = true) (order : ByteOrder) (s : Levels) :
    Tidy (if s.headerWritten then 0 else directTypeSize) s (m.dispatch order s) :=
  (tidy_step order).all.1 m hm s

theorem Field.tidy {f : Field} (hf : f.resumable = true) (order : ByteOrder) (s : Levels) :
    Tidy 0 s (f.dispatch order s) :=
  (tidy_step order).all.2.1 f hf s

theorem Value.tidy {v : Value} (hv : v.resumable = true) (order : ByteOrder) (t : ItemType) (s : Levels) :
    Tidy t.minEncodedLength s (v.dispatch order t s) :=
  (tidy_step order).all.2.2 v hv t s

/-- a call on the outermost message that leaves nothing below its level leaves nothing at all -/
theorem Dispatch.settle_fresh {α : Type} {d : Dispatch α} (hr : d.settle.result = .ok true) (hl : d.levels.Shallow) :
    d.settle.levels = .fresh := by
  obtain ⟨-, hd, hw⟩ := settle_done hr
  rw [hw]
  ext i
  · by_cases hi : i = 0
    · rw [hi, ← hd]
      exact d.levels.level_update_self _
    · exact hl.update .blank i (by rw [Levels.depth_update]; omega)
  · exact hd

/-- the outermost message leaves all levels clear, where all below it were -/
theorem Dispatch.root_clear {order : ByteOrder} {m : Message} (hm : m.resumable = true) {s : Levels} (hs : s.Shallow)
    (hr : (root order m s).result = .ok true) : (root order m s).levels = .fresh :=
  settle_fresh hr (m.tidy hm order s hs (settle_done hr).1).1

end Courier
