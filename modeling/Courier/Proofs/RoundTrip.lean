import Courier.Proofs.LevelsCleared
import Courier.Proofs.Retrieve
import Courier.Proofs.Session

/-!
What was written is read back.

`ReadsBack` ties a call to a read: the bytes that the call puts out, if it comes to its end, are just those that the
read takes, whatever comes behind them, and the read gives what it should. Reads follow messages only so deep, but no
message lies as deep as it has bytes. `roundTrip_step` is the induction.

`readsBack_values`, `readsBack_entries`: items in a row.
`readsBack_mapping`: a map.
`readsBack_plain`, `readsBack_items`, `readsBack_map`: fields.
`heads_message`: a message, once its fields are read back.
`Bench.read_written`: the main result.
-/

namespace Courier

open Writer Reader Dispatch

variable {c : Terms}

namespace Dispatch

variable {α β γ δ : Type}

/-- what a call puts out that comes to its end is read back, whatever comes behind it, by a read that follows messages
as deep as there are bytes -/
def ReadsBack (c : Terms) (d : Dispatch α) (read : (Place → Reading (Option Message)) → Reading β)
    (Q : β → Prop) : Prop :=
  d.result = .ok true → ∀ j, d.out.bytes.length < j → Gives c (read (follow j)) d.out.bytes Q

namespace ReadsBack

variable {d : Dispatch α} {read : (Place → Reading (Option Message)) → Reading β} {P Q : β → Prop}

theorem ofLayout {left : α} {l : Layout} {s : Levels}
    (h : l.result = .ok () → ∀ j, 0 < j → Gives c (read (follow j)) (l.output c.order).bytes Q) :
    ReadsBack c (.ofLayout left c.order l s) read Q := by
  intro hr j hj
  obtain ⟨hl, -, ho⟩ := ofLayout_done hr
  rw [ho]
  exact h hl j (Nat.zero_lt_of_lt hj)

theorem map {f : β → γ} {R : γ → Prop} (h : ReadsBack c d read P) (hf : ∀ a, P a → R (f a)) :
    ReadsBack c d (fun messageAt => do return f (← read messageAt)) R :=
  fun hr j hj => (h hr j hj).map hf

theorem bind {next : α → Levels → Dispatch δ} {stop : α → δ}
    {g : β → (Place → Reading (Option Message)) → Reading γ} {R : γ → Prop} (h : ReadsBack c d read P)
    (hn : d.result = .ok true → ∀ b, P b → ReadsBack c (next d.left d.levels) (g b) R) :
    ReadsBack c (d.bind next stop) (fun messageAt => do g (← read messageAt) messageAt) R := by
  intro hr j hj
  obtain ⟨hd, he⟩ := bind_done hr
  rw [bind_of_done hd] at hj ⊢
  change (d.out.bytes ++ (next d.left d.levels).out.bytes).length < j at hj
  rw [List.length_append] at hj
  exact (h hd j (by omega)).bind fun b hb => hn hd b hb he j (by omega)

end ReadsBack

/-- a message on a clear level puts out its header, and fields that are read back -/
def Heads (c : Terms) (m : Message) : Prop :=
  ∀ s : Levels, s.Shallow → s.current = .blank → (m.dispatch c.order s).result = .ok true →
    Headed c m (m.dispatch c.order s).out.bytes

theorem readsBack_nested {m : Message} (h : Heads c m) (ht : m.type ≠ nullMessageType) {s : Levels} (hs : s.Shallow) :
    ReadsBack c (m.dispatch c.order s.forward).leave (fun messageAt => messageAt .nested)
      fun o => ∃ n, o = some n ∧ m.Agrees c.factory n := by
  intro hr j hj
  have hd : (m.dispatch c.order s.forward).levels.depth = s.depth + 1 := (m.sound c.order s.forward).depth
  have hdone := (result_leave (by omega)).symm.trans hr
  rw [out_leave] at hj ⊢
  exact (h s.forward hs.forward (hs _ (Nat.lt_succ_self _)) hdone).nested ht hj

/-! ## Items -/

theorem readsBack_null (c : Terms) (t : ItemType) (s : Levels) :
    ReadsBack c (Value.null.dispatch c.order t s) (fun messageAt => itemWith messageAt t)
      fun w => Value.null.Agrees c.factory w := by
  rw [Value.dispatch]
  by_cases hn : t.isNullable = true
  · rw [if_pos hn]
    refine .ofLayout ?_
    intro _ j hj
    by_cases hm : t = .message
    · subst hm
      have h := gives_noMessage c j .nested hj
      rw [← Layout.bytes_fixed_done] at h
      exact gives_itemMessage h (fun _ h => by cases h) fun _ => rfl
    · exact gives_itemDatum hm (gives_absentDatum hn hm) (fun _ h => by cases h) fun _ => rfl
  · rw [if_neg hn]
    exact fun hr => by cases hr

theorem readsBack_data {d : Datum} (hd : d.count ≤ c.maxLength) (t : ItemType) (s : Levels) :
    ReadsBack c ((Value.data d).dispatch c.order t s) (fun messageAt => itemWith messageAt t)
      fun w => (Value.data d).Agrees c.factory w := by
  rw [Value.dispatch]
  by_cases ht : d.itemType = t
  · subst ht
    rw [if_pos rfl]
    refine .ofLayout fun hr j hj => gives_itemDatum d.itemType_ne_message (gives_datum hd hr) ?_ fun h => by cases h
    intro e he
    rw [Option.some.inj he]
    rfl
  · rw [if_neg ht]
    exact fun hr => by cases hr

theorem readsBack_inner {m : Message} (h : Heads c m) (hm : m.type ≠ nullMessageType) (t : ItemType) {s : Levels}
    (hs : s.Shallow) :
    ReadsBack c ((Value.message m).dispatch c.order t s) (fun messageAt => itemWith messageAt t)
      fun w => (Value.message m).Agrees c.factory w := by
  rw [Value.dispatch]
  by_cases ht : t = .message
  · subst ht
    rw [if_pos rfl]
    intro hr j hj
    have hd := result_of_whole hr
    rw [out_whole] at hj ⊢
    refine gives_itemMessage (readsBack_nested h hm hs hd j hj) ?_ ?_
    · rintro n ⟨_, h, ha⟩
      rw [Option.some.inj h]
      exact ha
    · rintro ⟨_, h, -⟩
      cases h
  · rw [if_neg ht]
    exact fun hr => by cases hr

/-- values in a row -/
theorem readsBack_values {vs : List Value} (t : ItemType) (hr : ∀ v ∈ vs, v.resumable = true)
    (h : ∀ v ∈ vs, ∀ s : Levels, s.Shallow →
      ReadsBack c (v.dispatch c.order t s) (fun messageAt => itemWith messageAt t) fun w => v.Agrees c.factory w)
    {s : Levels} (hs : s.Shallow) :
    ReadsBack c (Value.dispatchAll c.order t vs s) (fun messageAt => itemsWith messageAt t vs.length)
      fun ws => Value.AgreesAll c.factory vs ws := by
  induction vs generalizing s with
  | nil => exact fun _ _ _ => .pure trivial
  | cons v vs ih =>
    refine (h v List.mem_cons_self s hs).bind (g := fun w messageAt => do
      return w :: (← itemsWith messageAt t vs.length)) fun hd w hw => ?_
    have hl := (v.tidy (hr v List.mem_cons_self) c.order t s hs hd).1
    exact (ih (fun v hv => hr v (List.mem_cons_of_mem _ hv)) (fun v hv => h v (List.mem_cons_of_mem _ hv)) hl).map
      fun ws hws => ⟨hw, hws⟩

/-- entries in a row, put into a map -/
theorem readsBack_entries {es : List (Value × Value)} (kt vt : ItemType)
    (hr : ∀ e ∈ es, e.1.resumable = true ∧ e.2.resumable = true)
    (h : ∀ e ∈ es, ∀ s : Levels, s.Shallow →
      ReadsBack c (e.1.dispatch c.order kt s) (fun messageAt => itemWith messageAt kt)
          (fun w => e.1.Agrees c.factory w) ∧
        ReadsBack c (e.2.dispatch c.order vt s) (fun messageAt => itemWith messageAt vt) fun w => e.2.Agrees c.factory w)
    {s : Levels} (hs : s.Shallow) (m : ValueMap) :
    ReadsBack c (Value.dispatchEntries c.order kt vt es s)
      (fun messageAt => entriesWith messageAt kt vt es.length m)
      fun n => ∃ gs, Value.AgreesEntries c.factory es gs ∧ n = gs.foldl (fun m e => (m.insert e.1 e.2).2) m := by
  induction es generalizing s m with
  | nil => exact fun _ _ _ => .pure ⟨[], trivial, rfl⟩
  | cons e es ih =>
    have hre := hr e List.mem_cons_self
    refine (h e List.mem_cons_self s hs).1.bind (g := fun k messageAt => do
      let v ← itemWith messageAt vt
      entriesWith messageAt kt vt es.length (m.insert k v).2) fun hd k hk => ?_
    have hl := (e.1.tidy hre.1 c.order kt s hs hd).1
    refine (h e List.mem_cons_self _ hl).2.bind (g := fun v messageAt =>
      entriesWith messageAt kt vt es.length (m.insert k v).2) fun hd' v hv => ?_
    have hl' := (e.2.tidy hre.2 c.order vt _ hl hd').1
    intro hres j hj
    refine (ih (fun e he => hr e (List.mem_cons_of_mem _ he)) (fun e he => h e (List.mem_cons_of_mem _ he)) hl' _
      hres j hj).mono ?_
    rintro n ⟨gs, hgs, rfl⟩
    exact ⟨(k, v) :: gs, ⟨⟨hk, hv⟩, hgs⟩, rfl⟩

/-! ## Fields -/

/-- a field that holds neither a message nor a value -/
theorem readsBack_plain {f : Field} (hf : f.isPlain = true) {k : FieldKind}
    (hk : f.Expected c.factory c.maxLength k) (s : Levels) :
    ReadsBack c (f.dispatch c.order s) (fun messageAt => fieldWith messageAt k) fun g => f.Agrees c.factory g := by
  cases f with
  | data d =>
    cases k with
    | data t =>
      obtain ⟨rfl, hd⟩ := hk
      rw [Field.dispatch]
      exact .ofLayout fun hr _ _ => (gives_datum hd hr).bind_nil fun o ho => by rw [ho]; exact .pure rfl
    | _ => cases hk
  | absent t =>
    cases k with
    | data u =>
      obtain ⟨rfl, hn, hm⟩ := hk
      rw [Field.dispatch]
      exact .ofLayout fun _ _ _ => (gives_absentDatum hn hm).bind_nil fun o ho => by rw [ho]; exact .pure rfl
    | _ => cases hk
  | fixedInt v =>
    cases k with
    | fixedInt =>
      rw [Field.dispatch]
      refine .ofLayout ?_
      intro _ _ _
      rw [Layout.bytes_fixed_done]
      exact (gives_fixed c v).map fun a ha => by rw [ha]; rfl
    | _ => cases hk
  | fixedLong v =>
    cases k with
    | fixedLong =>
      rw [Field.dispatch]
      refine .ofLayout ?_
      intro _ _ _
      rw [Layout.bytes_fixed_done]
      exact (gives_fixed c v).map fun a ha => by rw [ha]; rfl
    | _ => cases hk
  | range bs offset len =>
    cases k with
    | data t =>
      obtain ⟨rfl, hl⟩ := hk
      rw [Field.dispatch]
      refine .ofLayout ?_
      intro hr _ _
      unfold Layout.part at hr ⊢
      cases hp : bs.slice offset (offset + len) with
      | none => simp [hp, Layout.result] at hr
      | some part =>
        obtain rfl := Bytes.eq_of_slice hp
        simp only [hp] at hr ⊢
        have hd : ((Datum.byteArray ((bs.drop offset).take len)).layout c.order).result = .ok () := hr
        have hread := gives_datum (d := .byteArray ((bs.drop offset).take len))
          (Nat.le_trans (List.length_take_le ..) hl) hd
        exact hread.bind_nil fun o ho => by rw [ho]; exact .pure rfl
    | _ => cases hk
  | raw bs =>
    cases k with
    | raw n =>
      obtain ⟨rfl, hn⟩ := hk
      rw [Field.dispatch]
      refine .ofLayout ?_
      intro _ _ _
      have hread : Gives c (readInto bs.length) bs (· = bs) := by
        rw [readInto, if_pos hn]
        exact gives_upTo c bs
      exact hread.bind fun a ha => .pure (by rw [ha]; rfl)
    | _ => cases hk
  | object shape p =>
    cases k with
    | object shape' =>
      obtain ⟨rfl, hl, hd⟩ := hk
      rw [Field.dispatch]
      refine .ofLayout ?_
      intro hr _ _
      obtain ⟨hn, hb⟩ := Layout.object_done hr
      rw [hb]
      exact (gives_objectWith hl hn hd).map fun a ha => by rw [ha]; rfl
    | _ => cases hk
  | nothing =>
    rw [Field.dispatch]
    refine .ofLayout ?_
    intro _ j _
    rw [Layout.bytes_fixed_done]
    cases k with
    | items way t =>
      have hread : Gives c (listingWith (follow j) (listingName way) t) _ (· = none) :=
        (gives_absent c _ _).bind_nil fun o ho => by rw [ho]; exact .pure rfl
      exact hread.bind_nil fun o ho => by rw [ho]; exact .pure rfl
    | map kt vt linked =>
      have hread : Gives c (mapWith (follow j) kt vt linked) _ (· = none) :=
        (gives_absent c _ _).bind_nil fun o ho => by rw [ho]; exact .pure rfl
      exact hread.bind_nil fun o ho => by rw [ho]; exact .pure rfl
    | _ => cases hk
  | message m =>
    cases m with
    | some m => cases hf
    | none =>
      cases k with
      | message =>
        rw [Field.dispatch]
        refine .ofLayout ?_
        intro _ j hj
        rw [Layout.bytes_fixed_done]
        exact (gives_noMessage c j .nested hj).map fun o ho => by rw [ho]; rfl
      | _ => cases hk
  | note | advance | markHeader | stall | fail => cases k <;> cases hk
  | item | items | map | root => cases hf

/-- a count, and behind it items that take so much room at least -/
theorem readsBack_counted {β : Type} {kind : String} {size n : Nat} {l : Layout} {s : Levels} {e : Levels → Dispatch Unit}
    {next : Option Nat → (Place → Reading (Option Message)) → Reading β} {Q : β → Prop}
    (hl : l.result = .ok () →
      n ≤ 2147483647 ∧ (l.output c.order).bytes = Fixed.bytes c.order.swap (Int32.ofNat n))
    (hmax : n ≤ c.maxLength) (hroom : (e s).result = .ok true → n * size ≤ (e s).out.bytes.length)
    (he : ReadsBack c (e s) (next (some n)) Q) :
    ReadsBack c ((ofLayout () c.order l s).bind (fun _ => e) id)
      (fun messageAt => do next (← readLength kind size) messageAt) Q := by
  intro hr j hj
  obtain ⟨hc, hres⟩ := bind_done hr
  obtain ⟨hcount, hlev, hout⟩ := ofLayout_done hc
  obtain ⟨hlen, hbytes⟩ := hl hcount
  have hb : ((ofLayout () c.order l s).bind (fun _ => e) id).out.bytes =
      Fixed.bytes c.order.swap (Int32.ofNat n) ++ (e s).out.bytes := by
    rw [bind_of_done hc, hlev]
    exact congrArg (· ++ _) ((congrArg Output.bytes hout).trans hbytes)
  rw [hlev] at hres
  rw [hb] at hj ⊢
  rw [List.length_append] at hj
  exact (he hres j (by omega)).length hmax hlen (hroom hres)

theorem readsBack_items (way : Listing) (t : ItemType) {vs : List Value} {k : FieldKind}
    (hk : (Field.items way t vs).Expected c.factory c.maxLength k)
    (h : ∀ v ∈ vs, ∀ s : Levels, s.Shallow →
      ReadsBack c (v.dispatch c.order t s) (fun messageAt => itemWith messageAt t) fun w => v.Agrees c.factory w)
    {s : Levels} (hs : s.Shallow) :
    ReadsBack c ((Field.items way t vs).dispatch c.order s) (fun messageAt => fieldWith messageAt k)
      fun g => (Field.items way t vs).Agrees c.factory g := by
  cases k with
  | items way' u =>
    obtain ⟨rfl, hmax, hexp⟩ := hk
    have hres : ∀ v ∈ vs, v.resumable = true := fun v hv =>
      Value.resumable_of_expected ((Value.expectedAll_iff vs).1 hexp v hv)
    have hroom : (Value.dispatchAll c.order u vs s).result = .ok true →
        vs.length * 1 ≤ (Value.dispatchAll c.order u vs s).out.bytes.length := fun hr =>
      Nat.le_trans (Nat.mul_le_mul_left _ u.minEncodedLength_pos)
        (tidy_values u (fun v hv s => v.tidy (hres v hv) c.order u s) s hs hr).2.2
    have hlist : ReadsBack c ((ofLayout () c.order (.counted c.order way u vs.length) s).bind
        (fun _ => Value.dispatchAll c.order u vs) id)
        (fun messageAt => listingWith messageAt (listingName way') u)
        fun o => ∃ ws, o = some ws ∧ Value.AgreesAll c.factory vs ws :=
      readsBack_counted Layout.counted_done hmax hroom
        ((readsBack_values u hres h hs).map fun ws hws => ⟨ws, rfl, hws⟩)
    rw [Field.dispatch]
    intro hr j hj
    apply (hlist hr j hj).bind_nil
    rintro o ⟨ws, rfl, hws⟩
    exact .pure ⟨rfl, hws⟩
  | _ => cases hk

/-- a map: the count of its entries, and the entries -/
theorem readsBack_mapping (kt vt : ItemType) (linked : Bool) {es : List (Value × Value)} (hmax : es.length ≤ c.maxLength)
    (hres : ∀ e ∈ es, e.1.resumable = true ∧ e.2.resumable = true)
    (h : ∀ e ∈ es, ∀ s : Levels, s.Shallow →
      ReadsBack c (e.1.dispatch c.order kt s) (fun messageAt => itemWith messageAt kt)
          (fun w => e.1.Agrees c.factory w) ∧
        ReadsBack c (e.2.dispatch c.order vt s) (fun messageAt => itemWith messageAt vt) fun w => e.2.Agrees c.factory w)
    {s : Levels} (hs : s.Shallow) :
    ReadsBack c ((ofLayout () c.order (.count c.order es.length .done) s).bind
      (fun _ => Value.dispatchEntries c.order kt vt es) id)
      (fun messageAt => mapWith messageAt kt vt linked)
      fun o => ∃ gs, Value.AgreesEntries c.factory es gs ∧ o = some (ValueMap.ofEntries linked gs) := by
  have hroom : (Value.dispatchEntries c.order kt vt es s).result = .ok true →
      es.length * 2 ≤ (Value.dispatchEntries c.order kt vt es s).out.bytes.length := fun hr =>
    Nat.le_trans (Nat.le_of_eq (Nat.mul_comm ..))
      (tidy_entries (fun e he => ⟨e.1.tidy (hres e he).1 c.order, e.2.tidy (hres e he).2 c.order⟩) kt vt s hs hr).2.2
  refine readsBack_counted (fun hr => ?_) hmax hroom ?_
  · obtain ⟨hn, -, hb⟩ := Layout.count_done hr
    exact ⟨hn, hb.trans (List.append_nil _)⟩
  · refine (readsBack_entries kt vt hres h hs (.empty linked)).map ?_
    rintro n ⟨gs, hgs, rfl⟩
    exact ⟨gs, hgs, rfl⟩

theorem readsBack_map (kt vt : ItemType) (linked : Bool) {es : List (Value × Value)} {k : FieldKind}
    (hk : (Field.map kt vt linked es).Expected c.factory c.maxLength k)
    (h : ∀ e ∈ es, ∀ s : Levels, s.Shallow →
      ReadsBack c (e.1.dispatch c.order kt s) (fun messageAt => itemWith messageAt kt)
          (fun w => e.1.Agrees c.factory w) ∧
        ReadsBack c (e.2.dispatch c.order vt s) (fun messageAt => itemWith messageAt vt) fun w => e.2.Agrees c.factory w)
    {s : Levels} (hs : s.Shallow) :
    ReadsBack c ((Field.map kt vt linked es).dispatch c.order s) (fun messageAt => fieldWith messageAt k)
      fun g => (Field.map kt vt linked es).Agrees c.factory g := by
  cases k with
  | map ku vu linked' =>
    obtain ⟨rfl, rfl, hmax, hexp⟩ := hk
    have hres : ∀ e ∈ es, e.1.resumable = true ∧ e.2.resumable = true := fun e he =>
      have := (Value.expectedEntries_iff es).1 hexp e he
      ⟨Value.resumable_of_expected this.1, Value.resumable_of_expected this.2⟩
    rw [Field.dispatch]
    intro hr j hj
    apply (readsBack_mapping ku vu linked' hmax hres h hs hr j hj).bind_nil
    rintro o ⟨gs, hgs, rfl⟩
    exact .pure ⟨rfl, rfl, gs, hgs, rfl⟩
  | _ => cases hk

/-- fields in a row, from the first that the cursor has not passed -/
theorem readsBack_fields {fs : List Field} {ks : List FieldKind}
    (hks : Field.ExpectedAll c.factory c.maxLength fs ks)
    (h : ∀ f ∈ fs, ∀ k, f.Expected c.factory c.maxLength k → ∀ s : Levels, s.Shallow →
      ReadsBack c (f.dispatch c.order s) (fun messageAt => fieldWith messageAt k) fun g => f.Agrees c.factory g)
    (grant : Grant) {k : Nat} {s : Levels} (hs : s.Shallow) (hcur : s.cursor = k) :
    ReadsBack c (Field.dispatchAll c.order k grant fs s) (fun messageAt => fieldsWith messageAt ks)
      fun gs => Field.AgreesAll c.factory fs gs := by
  induction fs generalizing ks k grant s with
  | nil =>
    cases ks with
    | nil => exact fun _ _ _ => .pure trivial
    | cons kind ks => cases hks
  | cons f fs ih =>
    cases ks with
    | nil => cases hks
    | cons kind ks =>
      -- a resumable field leaves the cursor alone, so the increment behind it names the next field
      have hf := Field.resumable_of_expected hks.1
      rw [Field.dispatchAll, if_pos hcur]
      cases spend grant with
      | none => exact fun h => by cases h
      | some grant =>
        refine (h f List.mem_cons_self kind hks.1 s hs).bind (g := fun g messageAt => do
          return g :: (← fieldsWith messageAt ks)) fun hd g hg => ?_
        have hl : (f.dispatch c.order s).levels.Shallow := (f.tidy hf c.order s hs hd).1
        have hcur' : (f.dispatch c.order s).levels.increment.cursor = k + 1 := by
          rw [Levels.cursor_increment, (spares_field c.order hf s).cursor, hcur]
        exact (ih hks.2 (fun f hf => h f (List.mem_cons_of_mem _ hf)) grant (hl.update _) hcur').map
          fun gs hgs => ⟨hg, hgs⟩

theorem heads_message (kind : MessageKind) {fields : List Field} (pauses : List Nat)
    (he : (Message.mk kind fields pauses).Expected c.factory c.maxLength)
    (h : ∀ f ∈ fields, ∀ k, f.Expected c.factory c.maxLength k → ∀ s : Levels, s.Shallow →
      ReadsBack c (f.dispatch c.order s) (fun messageAt => fieldWith messageAt k) fun g => f.Agrees c.factory g) :
    Heads c (.mk kind fields pauses) := by
  intro s hs hcur hr
  obtain ⟨-, b, hb, hks⟩ := he
  have hres : ∀ f ∈ fields, f.resumable = true := by
    intro f hf
    obtain ⟨k, hk⟩ := Field.expected_of_mem hks hf
    exact Field.resumable_of_expected hk
  have hbare := dispatch_resumable c.order kind pauses hres s
  -- a blank level has no header yet, so the call begins with one
  have hw : s.headerWritten = false := congrArg Level.headerWritten hcur
  rw [if_neg (by simp [hw])] at hbare
  cases hg : spend pauses.head? with
  | none =>
    rw [hg] at hbare
    have hr' := congrArg Dispatch.result hbare
    cases hr.symm.trans hr'
  | some grant =>
    rw [hg] at hbare
    have hr' : (Field.dispatchAll c.order 0 grant fields s.markHeader).result = .ok true :=
      (congrArg Dispatch.result hbare).symm.trans hr
    have hout : ((Message.mk kind fields pauses).dispatch c.order s).out.bytes =
        ((Layout.fixed c.order kind.type .done).output c.order).bytes ++
          (Field.dispatchAll c.order 0 grant fields s.markHeader).out.bytes :=
      congrArg (fun d : Dispatch Unit => d.out.bytes) hbare
    rw [Layout.bytes_fixed_done] at hout
    have hmark : s.markHeader.cursor = 0 := (Levels.cursor_markHeader s).trans (congrArg Level.cursor hcur)
    refine ⟨b, _, hb, hout, fun j hj => ?_⟩
    have hback := readsBack_fields hks h grant (hs.update _) hmark hr' j hj
    exact hback.map fun gs hgs => ⟨congrArg (Option.map _) hb, hgs⟩

theorem roundTrip_step (c : Terms) :
    Tree.Step (fun m => m.Expected c.factory c.maxLength → Heads c m)
      (fun f => ∀ k, f.Expected c.factory c.maxLength k → ∀ s : Levels, s.Shallow →
        ReadsBack c (f.dispatch c.order s) (fun messageAt => fieldWith messageAt k) fun g => f.Agrees c.factory g)
      fun v => v.Expected c.factory c.maxLength → ∀ t, ∀ s : Levels, s.Shallow →
        ReadsBack c (v.dispatch c.order t s) (fun messageAt => itemWith messageAt t) fun w => v.Agrees c.factory w where
  message kind _ pauses h he := heads_message kind pauses he h
  plain _ hf _ hk s _ := readsBack_plain hf hk s
  item t v h k hk s hs := by
    cases k with
    | item u =>
      obtain ⟨rfl, hv⟩ := hk
      rw [Field.dispatch]
      exact (h hv u s hs).map fun w hw => ⟨rfl, hw⟩
    | _ => cases hk
  items way t vs h k hk s hs := by
    refine readsBack_items way t hk (fun v hv => h v hv ?_ t) hs
    cases k with
    | items way u => exact (Value.expectedAll_iff vs).1 hk.2.2 v hv
    | _ => cases hk
  map kt vt linked es h k hk s hs := by
    have he : ∀ e ∈ es, e.1.Expected c.factory c.maxLength ∧ e.2.Expected c.factory c.maxLength := by
      cases k with
      | map ku vu linked => exact (Value.expectedEntries_iff es).1 hk.2.2.2
      | _ => cases hk
    exact readsBack_map kt vt linked hk
      (fun e hm s hs => ⟨(h e hm).1 (he e hm).1 kt s hs, (h e hm).2 (he e hm).2 vt s hs⟩) hs
  nested m h k hk s hs := by
    cases k with
    | message =>
      rw [Field.dispatch]
      apply (readsBack_nested (h hk) (Message.type_ne_of_expected hk) hs).map
      rintro o ⟨n, rfl, hn⟩
      exact hn
    | _ => cases hk
  root m h k hk := by cases k <;> cases hk
  null _ t s _ := readsBack_null c t s
  data _ hd t s _ := readsBack_data hd t s
  inner m h he t s hs := readsBack_inner (h he) (Message.type_ne_of_expected he) t hs

end Dispatch

namespace Bench

/-- a read session that opens on a frame as it was built -/
theorem openRead_ofBytes {b : Bench} {bs : Bytes} (hb : b.handler.nesting.view = .fresh) (hf : b.frame = .ofBytes bs) :
    ∃ r, b.openRead = .ok r ∧ r.depth = 0 ∧ r.position = 0 ∧
      Shows ⟨b.handler.factory, b.handler.config.byteOrder, b.handler.config.maxLength⟩ r bs := by
  have hs := (Nesting.suspendedDepth_eq_none_iff _).2 hb
  have hfin : b.frame.isFinalized = true := by rw [hf]; rfl
  have hopen : b.openRead = .ok ⟨b.frame, b.handler.nesting, b.handler.factory, b.handler.config.byteOrder,
      b.handler.config.maxLength⟩ := by
    simp only [openRead, hfin, hs]
    rfl
  have hwin : b.frame.readable = bs := by
    rw [hf, Frame.readable, Frame.available, if_pos ⟨Nat.zero_le _, Nat.le_refl _⟩]
    simp [Frame.ofBytes, Frame.ofCells, Frame.data]
  refine ⟨_, hopen, congrArg Levels.depth hb, by rw [Reader.position, hf]; rfl, rfl, fun i => ?_, ?_, ?_, hwin⟩
  · exact congrFun (congrArg Levels.level hb) i
  · rw [Reader.position, hf]
    exact Nat.zero_le _
  · rw [hf]
    exact Nat.le_refl _

/-- **Messages round-trip.** Where a session on a clear handler writes a message to its end and is closed, what it wrote
is read back from any frame that begins with it, by a clear handler of the same byte order whose factory and largest
length expect the message: as a message that agrees with it, and up to where it ends, with all levels clear. -/
theorem read_written {b c d : Bench} {m : Message} {n : Nat} {rest : Bytes} (hb : b.handler.nesting.view = .fresh)
    (hwrite : (b.openWrite.1.writeRoot m).result = .ok true)
    (hclose : b.openWrite.2.closeWrite (b.openWrite.1.writeRoot m).writer = some (n, c))
    (hd : d.handler.nesting.view = .fresh) (horder : d.handler.config.byteOrder = b.handler.config.byteOrder)
    (hm : m.Expected d.handler.factory d.handler.config.maxLength) (hframe : d.frame = .ofBytes (c.frame.data ++ rest)) :
    ∃ r m' s, d.openRead = .ok r ∧ r.readRoot = .ok (some m') s ∧ m.Agrees d.handler.factory m' ∧
      s.position = c.frame.data.length ∧ s.nesting.view = .fresh := by
  obtain ⟨c', hclose', hdata, -, hres⟩ := closeWrite_writeRoot hwrite
  obtain rfl : c' = c := by
    rw [hclose'] at hclose
    exact (Prod.mk.inj (Option.some.inj hclose)).2
  rw [hb, ← horder] at hdata hres
  obtain ⟨hdone, -, -⟩ := settle_done hres
  have hhead := (roundTrip_step ⟨d.handler.factory, d.handler.config.byteOrder, d.handler.config.maxLength⟩).all.1 m hm
    .fresh Levels.shallow_fresh rfl hdone
  rw [← out_settle] at hhead
  rw [hdata] at hframe ⊢
  obtain ⟨r, hopen, hdep, hpos, hshow⟩ := openRead_ofBytes hd hframe
  obtain ⟨m', s, hread, hmoved, hag⟩ := hhead.root (Message.type_ne_of_expected hm) hshow hdep
  refine ⟨r, m', s, hopen, hread, hag, ?_, ?_⟩
  · rw [Reader.position, hmoved.frame, hpos, Nat.zero_add]
    rfl
  · exact Levels.ext (funext hmoved.clear) (hmoved.depth.trans hdep)

/-- a node that holds a record: a text, no identifier, messages and none in a list, a map that names a key twice, and a
document -/
def crowdedNode : Message :=
  .node 7 (some (.record 5 [.data (.string "hé"), .absent .uuid, .items .list .message [.message (.leaf 1 none), .null],
    .map .int .string true [(.data (.int 1), .data (.string "a")), (.data (.int 1), .null)],
    .object .any (.array [.int 300, .nil])]))

def crowdedFactory : Factory :=
  .ofList [(1, .leaf), (2, .node),
    (5, .record 5 [.data .string, .data .uuid, .items .collection .message, .map .int .string false, .object .any])]

/-- a bench with a clear handler -/
def crowdedBench (frame : Frame) : Bench :=
  ⟨⟨crowdedFactory, .standard, .ofCapacity 1, .ofMax 0⟩, .ofMax 0, frame⟩

theorem crowded_node_read_back :
    ∃ n c r m' s,
      (crowdedBench .empty).openWrite.2.closeWrite ((crowdedBench .empty).openWrite.1.writeRoot crowdedNode).writer =
          some (n, c) ∧
        (crowdedBench (.ofBytes (c.frame.data ++ [7, 9]))).openRead = .ok r ∧ r.readRoot = .ok (some m') s ∧
        crowdedNode.Agrees crowdedFactory m' ∧ s.position = n ∧ s.nesting.view = .fresh := by
  have hwrite : ((crowdedBench .empty).openWrite.1.writeRoot crowdedNode).result = .ok true := by decide +kernel
  have hm : crowdedNode.Expected crowdedFactory Config.standard.maxLength := by
    have hleaf : (Message.leaf 1 none).Expected crowdedFactory Config.standard.maxLength :=
      ⟨by decide, .leaf, rfl, ⟨rfl, by decide⟩, ⟨rfl, rfl, by decide⟩, trivial⟩
    have hpack : ((Pack.decoder .any).run (Pack.array [.int 300, .nil]).emission.pieces.flatten).1 =
        some (.array [.int 300, .nil]) := rfl
    refine ⟨by decide, .node, rfl, ⟨rfl, by decide⟩, ⟨by decide, _, rfl, ?_⟩, trivial⟩
    refine ⟨⟨rfl, by decide +kernel⟩, ⟨rfl, rfl, by decide⟩, ⟨rfl, by decide, hleaf, trivial, trivial⟩, ?_,
      ⟨rfl, by decide +kernel, hpack⟩, trivial⟩
    have htext : (Datum.string "a").count ≤ Config.standard.maxLength := by decide +kernel
    exact ⟨rfl, rfl, by decide, ⟨Nat.zero_le _, htext⟩, ⟨Nat.zero_le _, trivial⟩, trivial⟩
  obtain ⟨c, hclose, hdata, -⟩ := closeWrite_writeRoot hwrite
  obtain ⟨r, m', s, hopen, hread, hag, hpos, hfresh⟩ :=
    read_written (d := crowdedBench (.ofBytes (c.frame.data ++ [7, 9]))) (Nesting.view_ofCapacity 1) hwrite hclose
      (Nesting.view_ofCapacity 1) rfl hm rfl
  exact ⟨_, c, r, m', s, hclose, hopen, hread, hag, by rw [hpos, hdata], hfresh⟩

end Bench

end Courier
