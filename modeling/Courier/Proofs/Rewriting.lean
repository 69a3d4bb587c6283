import Courier.Proofs.Bound
import Courier.Proofs.Maps
import Courier.Proofs.ReadYields

/-!
What was read from any bytes can be written again, in no more of them, and is then read back as it is.

A call `Echoes` something if it comes to its end, puts out no more than so many bytes, and is read back as just that
thing. It is shown of whatever a read answers, along the read itself: an item, items in a row, the entries of a linked
map, the fields of a message, a message. Each of them echoes within the bytes that were taken for it. Where a map names
a key twice the value that came first is lost with the bytes it took, so the entries that are left echo within what was
taken for all of them: `Affords` adds up what each entry is given.

Not every kind of field can be read so: a buffer may be filled with fewer bytes than it has room for, a document may
have been packed in another way, and a hashed map may show its entries in another order. `FieldKind.plain` are the kinds
that can, and a factory is `Plain` if its messages are made of them.

`yields_field`: the main result, for fields of every plain kind.
-/

namespace Courier

open Writer Reader Dispatch

/-- whether what is read by a field of that kind is written again as it was read -/
def FieldKind.plain : FieldKind → Bool
  | .data t => t ≠ .message
  | .map _ _ linked => linked
  | .item _ | .fixedInt | .fixedLong | .items .. | .message => true
  | _ => false

/-- a factory of messages that carry the type they are made for, and are read by fields of plain kinds -/
def Factory.Plain (factory : Factory) : Prop :=
  ∀ type b, factory type = some b → b.kind.type = type ∧ ∀ k ∈ b.schema, k.plain = true

theorem Factory.plain_stock : (Factory.ofList [(1, .leaf), (2, .node)]).Plain := by
  intro type b h
  unfold Factory.ofList at h
  obtain ⟨e, he, rfl⟩ := Option.map_eq_some_iff.1 h
  have htype : e.1 = type := by
    have hp := List.find?_some (p := fun e : Int16 × Blueprint => e.1 == type) he
    exact beq_iff_eq.1 hp
  have hmem := List.mem_of_find?_eq_some he
  fin_cases hmem <;> exact ⟨htype, by decide⟩

variable {c : Terms}

namespace Dispatch

variable {α β γ δ : Type}

/-- a call that comes to its end, puts out no more than `n` bytes, and is read back as `b` -/
structure Echoes (c : Terms) (n : Nat) (d : Dispatch α) (read : (Place → Reading (Option Message)) → Reading β)
    (b : β) : Prop where
  result : d.result = .ok true
  length_le : d.out.bytes.length ≤ n
  back : ReadsBack c d read (· = b)

namespace Echoes

variable {n k : Nat} {d : Dispatch α} {read : (Place → Reading (Option Message)) → Reading β} {b : β}

theorem mono (h : Echoes c n d read b) (hk : n ≤ k) : Echoes c k d read b :=
  ⟨h.result, h.length_le.trans hk, h.back⟩

/-- an answer made of what is read back -/
theorem map (h : Echoes c n d read b) (g : β → γ) : Echoes c n d (fun messageAt => do return g (← read messageAt)) (g b) :=
  ⟨h.result, h.length_le, h.back.map fun _ ha => congrArg g ha⟩

theorem bind {next : α → Levels → Dispatch δ} {stop : α → δ} {g : β → (Place → Reading (Option Message)) → Reading γ}
    {x : γ} (h : Echoes c n d read b) (hn : Echoes c k (next d.left d.levels) (g b) x) :
    Echoes c (n + k) (d.bind next stop) (fun messageAt => do g (← read messageAt) messageAt) x where
  result := by
    rw [bind_of_done h.result]
    exact hn.result
  length_le := by
    rw [bind_of_done h.result]
    change (d.out.bytes ++ (next d.left d.levels).out.bytes).length ≤ n + k
    rw [List.length_append]
    exact Nat.add_le_add h.length_le hn.length_le
  back := by
    refine h.back.bind fun _ a ha => ?_
    rw [ha]
    exact hn.back

theorem ofLayout {left : α} {l : Layout} {s : Levels} (h : l.Slim c.order n)
    (hback : ReadsBack c (.ofLayout left c.order l s) read (· = b)) : Echoes c n (.ofLayout left c.order l s) read b := by
  have hr : (Dispatch.ofLayout left c.order l s).result = .ok true := by
    rw [Dispatch.ofLayout, h.result]
  refine ⟨hr, ?_, hback⟩
  rw [(ofLayout_done hr).2.2]
  exact h.length_le

/-- the same call with something else left of it -/
theorem left (h : Echoes c n d read b) (f : α → δ) : Echoes c n (d.map f) read b :=
  ⟨h.result, h.length_le, h.back⟩

/-- a read that goes on without taking bytes -/
theorem followed {g : β → Reading γ} {x : γ} (h : Echoes c n d read b) (hg : Gives c (g b) [] (· = x)) :
    Echoes c n d (fun messageAt => do g (← read messageAt)) x := by
  refine ⟨h.result, h.length_le, fun hr j hj => (h.back hr j hj).bind_nil fun a ha => ?_⟩
  rw [ha]
  exact hg

theorem whole (h : Echoes c n d read b) (type : Int16) : Echoes c n (d.whole type) read b := by
  have hr := h.result
  unfold Dispatch.whole
  rw [hr]
  exact ⟨h.result, h.length_le, h.back⟩

end Echoes

/-- a count, and behind it what echoes -/
theorem echoes_counted {kind : String} {size n k : Nat} {l : Layout} {s : Levels} {e : Levels → Dispatch Unit}
    {next : Option Nat → (Place → Reading (Option Message)) → Reading β} {b : β} (hs : l.Slim c.order lengthPrefixSize)
    (hl : l.result = .ok () → n ≤ 2147483647 ∧ (l.output c.order).bytes = Fixed.bytes c.order.swap (Int32.ofNat n))
    (hmax : n ≤ c.maxLength) (hroom : (e s).result = .ok true → n * size ≤ (e s).out.bytes.length)
    (he : Echoes c k (e s) (next (some n)) b) :
    Echoes c (lengthPrefixSize + k) ((Dispatch.ofLayout () c.order l s).bind (fun _ => e) id)
      (fun messageAt => do next (← readLength kind size) messageAt) b := by
  have hr : (Dispatch.ofLayout () c.order l s).result = .ok true := by
    rw [Dispatch.ofLayout, hs.result]
  obtain ⟨-, hlev, hout⟩ := ofLayout_done hr
  refine ⟨?_, ?_, readsBack_counted hl hmax hroom he.back⟩
  · rw [bind_of_done hr, hlev]
    exact he.result
  · rw [bind_of_done hr, hlev]
    change ((Dispatch.ofLayout () c.order l s).out.bytes ++ (e s).out.bytes).length ≤ _
    rw [List.length_append, hout]
    exact Nat.add_le_add hs.length_le he.length_le

end Dispatch

/-! ## Items -/

/-- a value that echoes within `n` bytes as an item of the kind `t` -/
structure Value.Echo (c : Terms) (t : ItemType) (v : Value) (n : Nat) : Prop where
  resumable : v.resumable = true
  echoes : ∀ s : Levels, s.Shallow →
    Echoes c n (v.dispatch c.order t s) (fun messageAt => itemWith messageAt t) v

/-- a message that echoes within `n` bytes one level down -/
structure Message.Echo (c : Terms) (m : Message) (n : Nat) : Prop where
  resumable : m.resumable = true
  echoes : ∀ s : Levels, s.Shallow →
    Echoes c n (m.dispatch c.order s.forward).leave (fun messageAt => messageAt .nested) (some m)

namespace Value.Echo

theorem null {t : ItemType} {n : Nat} (ht : t.isNullable = true) (h : (t.absentLayout c.order).Slim c.order n) :
    Value.null.Echo c t n := by
  refine ⟨rfl, fun s hs => ?_⟩
  have hback := readsBack_null c t s
  rw [Value.dispatch, if_pos ht] at hback ⊢
  exact .ofLayout h fun hr j hj => (hback hr j hj).mono fun w hw => hw

theorem data {d : Datum} {n : Nat} (hd : d.count ≤ c.maxLength) (h : (d.layout c.order).Slim c.order n) :
    (Value.data d).Echo c d.itemType n := by
  refine ⟨rfl, fun s hs => ?_⟩
  have hback := readsBack_data hd d.itemType s
  rw [Value.dispatch, if_pos rfl] at hback ⊢
  exact .ofLayout h fun hr j hj => (hback hr j hj).mono fun w hw => hw

theorem message {m : Message} {n : Nat} (h : m.Echo c n) : (Value.message m).Echo c .message n := by
  refine ⟨h.resumable, fun s hs => ?_⟩
  have he := (h.echoes s hs).whole m.type
  rw [Value.dispatch, if_pos rfl]
  refine ⟨he.result, he.length_le, fun hr j hj => gives_itemMessage (he.back hr j hj) ?_ fun h => by cases h⟩
  intro n hn
  rw [Option.some.inj hn]

end Value.Echo

/-- a message or none, with the header taken at least -/
def EchoesPlace (c : Terms) (o : Option Message) (n : Nat) : Prop :=
  directTypeSize ≤ n ∧ ∀ m, o = some m → m.Echo c n

variable {messageAt : Place → Reading (Option Message)}

theorem yields_item (hm : Yields c (messageAt .nested) (EchoesPlace c)) (t : ItemType) :
    Yields c (itemWith messageAt t) fun v n => v.Echo c t n := by
  unfold itemWith
  split
  · rename_i ht
    subst ht
    refine hm.bind ?_
    rintro o n ⟨hn, ho⟩
    cases o with
    | none => exact .pure (Value.Echo.null rfl (Layout.slim_done.fixed.mono hn))
    | some m => exact .pure (Value.Echo.message (ho m rfl))
  · rename_i ht
    refine (yields_datum t).bind fun o n ho => ?_
    cases o with
    | none =>
      obtain ⟨hnull, hslim⟩ := ho ht
      exact .pure (Value.Echo.null hnull hslim)
    | some d =>
      obtain ⟨rfl, hd, hslim⟩ := ho
      exact .pure (Value.Echo.data hd hslim)

/-- items in a row that echo within `n` bytes -/
structure Value.EchoAll (c : Terms) (t : ItemType) (vs : List Value) (n : Nat) : Prop where
  resumable : ∀ v ∈ vs, v.resumable = true
  echoes : ∀ s : Levels, s.Shallow →
    Echoes c n (Value.dispatchAll c.order t vs s) (fun messageAt => itemsWith messageAt t vs.length) vs

theorem Value.Echo.cons {t : ItemType} {v : Value} {vs : List Value} {n k : Nat} (h : v.Echo c t n)
    (hs : Value.EchoAll c t vs k) : Value.EchoAll c t (v :: vs) (n + k) where
  resumable := List.forall_mem_cons.2 ⟨h.resumable, hs.resumable⟩
  echoes s hsh := by
    have he := h.echoes s hsh
    have hl := (v.tidy h.resumable c.order t s hsh he.result).1
    exact he.bind (g := fun w messageAt => do return w :: (← itemsWith messageAt t vs.length))
      ((hs.echoes _ hl).map (v :: ·))

theorem yields_items (hm : Yields c (messageAt .nested) (EchoesPlace c)) (t : ItemType) (count : Nat) :
    Yields c (itemsWith messageAt t count) fun vs n => vs.length = count ∧ Value.EchoAll c t vs n := by
  induction count with
  | zero => exact .pure ⟨rfl, List.forall_mem_nil _, fun s _ => ⟨rfl, Nat.le_refl _, fun _ _ _ => .pure rfl⟩⟩
  | succ count ih =>
    refine (yields_item hm t).bind fun v n hv => ih.map fun vs k hvs => ?_
    exact ⟨congrArg Nat.succ hvs.1, hv.cons hvs.2⟩

/-! ## Entries -/

/-- entries of which each echoes within bytes of its own, `n` in all -/
inductive Value.Affords (c : Terms) (kt vt : ItemType) : List (Value × Value) → Nat → Prop
  | nil (n : Nat) : Affords c kt vt [] n
  | cons {e : Value × Value} {es : List (Value × Value)} {a b n m : Nat} (hk : e.1.Echo c kt a) (hv : e.2.Echo c vt b)
    (h : Affords c kt vt es n) (hm : a + b + n ≤ m) : Affords c kt vt (e :: es) m

namespace Value.Affords

variable {kt vt : ItemType} {es : List (Value × Value)} {k v : Value} {a b n m : Nat}

theorem mono (h : Affords c kt vt es n) (hm : n ≤ m) : Affords c kt vt es m := by
  cases h with
  | nil => exact .nil m
  | cons hk hv h hn => exact .cons hk hv h (hn.trans hm)

theorem resumable (h : Affords c kt vt es n) : ∀ e ∈ es, e.1.resumable = true ∧ e.2.resumable = true := by
  induction h with
  | nil => exact List.forall_mem_nil _
  | cons hk hv _ _ ih => exact List.forall_mem_cons.2 ⟨⟨hk.resumable, hv.resumable⟩, ih⟩

/-- one entry more, behind the others -/
theorem concat (h : Affords c kt vt es n) (hk : k.Echo c kt a) (hv : v.Echo c vt b) :
    Affords c kt vt (es ++ [(k, v)]) (n + (a + b)) := by
  induction h with
  | nil n => exact .cons hk hv (.nil 0) (by omega)
  | cons hk' hv' _ hm ih => exact .cons hk' hv' ih (by omega)

/-- another value under one of the keys, which gives back what the old one took -/
theorem renew (h : Affords c kt vt es n) (hd : Value.Distinct es) (hv : v.Echo c vt b) :
    Affords c kt vt (es.map (ValueMap.renew Value.same k v)) (n + b) := by
  induction h with
  | nil n => exact .nil _
  | @cons e es a' b' n m hk' hv' h hm ih =>
    obtain ⟨he, hd⟩ := List.pairwise_cons.1 hd
    rw [List.map_cons]
    cases hs : k.same e.1 with
    | true =>
      -- none of the other keys is this one, since they differ from one another
      have hrest : es.map (ValueMap.renew Value.same k v) = es := by
        refine (List.map_congr_left fun f hf => ?_).trans (List.map_id es)
        have hkf : k.same f.1 = false := by
          rw [← Bool.not_eq_true]
          intro hkf
          have hfe := Value.same_trans (Value.same_symm hkf) hs
          rw [he f hf] at hfe
          cases hfe
        rw [ValueMap.renew, hkf]
        rfl
      rw [hrest, ValueMap.renew, if_pos hs]
      exact .cons hk' hv h (by omega)
    | false =>
      rw [ValueMap.renew, hs]
      exact .cons hk' hv' (ih hd) (by omega)

/-- an insertion takes no more than its key and its value -/
theorem insert {x : ValueMap} (h : Affords c kt vt x.entries n) (hd : Value.Distinct x.entries) (hk : k.Echo c kt a)
    (hv : v.Echo c vt b) : Affords c kt vt (x.insert k v).2.entries (n + (a + b)) := by
  cases hget : x.get? k with
  | none =>
    rw [ValueMap.entries_insert_of_none hget]
    exact h.concat hk hv
  | some w =>
    rw [ValueMap.entries_insert_of_some hget]
    exact (h.renew hd hv).mono (by omega)

theorem echoes (h : Affords c kt vt es n) (x : ValueMap) {s : Levels} (hs : s.Shallow) :
    Echoes c n (Value.dispatchEntries c.order kt vt es s) (fun messageAt => entriesWith messageAt kt vt es.length x)
      (es.foldl (fun x e => (x.insert e.1 e.2).2) x) := by
  induction h generalizing x s with
  | nil n => exact ⟨rfl, Nat.zero_le _, fun _ _ _ => .pure rfl⟩
  | @cons e es a b n m hk hv h hm ih =>
    have hek := hk.echoes s hs
    have hl := (e.1.tidy hk.resumable c.order kt s hs hek.result).1
    have hev := hv.echoes _ hl
    have hl' := (e.2.tidy hv.resumable c.order vt _ hl hev.result).1
    refine Echoes.mono (hek.bind (g := fun k messageAt => do
      let v ← itemWith messageAt vt
      entriesWith messageAt kt vt es.length (x.insert k v).2) ?_) (n := a + (b + n)) (by omega)
    exact hev.bind (g := fun v messageAt => entriesWith messageAt kt vt es.length (x.insert e.1 v).2) (ih _ hl')

end Value.Affords

theorem size_insert_le (x : ValueMap) (k v : Value) : (x.insert k v).2.size ≤ x.size + 1 := by
  rw [← ValueMap.length_entries, ← ValueMap.length_entries]
  cases hget : x.get? k with
  | none => rw [ValueMap.entries_insert_of_none hget, List.length_append]; rfl
  | some w => rw [ValueMap.entries_insert_of_some hget, List.length_map]; exact Nat.le_succ _

theorem yields_entries (hm : Yields c (messageAt .nested) (EchoesPlace c)) (kt vt : ItemType) (count : Nat)
    {x : ValueMap} {n : Nat} (hd : Value.Distinct x.entries) (h : Value.Affords c kt vt x.entries n) :
    Yields c (entriesWith messageAt kt vt count x) fun y k =>
      Value.Distinct y.entries ∧ Value.Affords c kt vt y.entries (n + k) ∧ y.size ≤ x.size + count := by
  induction count generalizing x n with
  | zero => exact .pure ⟨hd, h, Nat.le_refl _⟩
  | succ count ih =>
    refine (yields_item hm kt).bind fun k a hk => (yields_item hm vt).bind fun v b hv => ?_
    refine (ih (ValueMap.distinct_insert hd k v) (h.insert hd hk hv)).mono fun y j ⟨hdy, hy, hsize⟩ => ⟨hdy, ?_, ?_⟩
    · exact hy.mono (by omega)
    · have := size_insert_le x k v
      omega

/-! ## Fields -/

/-- a field that echoes within `n` bytes as one of the kind `k` -/
structure Field.Echo (c : Terms) (k : FieldKind) (f : Field) (n : Nat) : Prop where
  resumable : f.resumable = true
  echoes : ∀ s : Levels, s.Shallow → Echoes c n (f.dispatch c.order s) (fun messageAt => fieldWith messageAt k) f

/-- a field that holds neither a message nor a value -/
theorem Field.Echo.of_plain {f : Field} {k : FieldKind} {l : Layout} {n : Nat} (hf : f.isPlain = true)
    (hk : f.Expected c.factory c.maxLength k) (hd : ∀ s, f.dispatch c.order s = .ofLayout f c.order l s)
    (hag : ∀ g, f.Agrees c.factory g → g = f) (h : l.Slim c.order n) : f.Echo c k n := by
  refine ⟨Field.resumable_of_expected hk, fun s hs => ?_⟩
  have hback := readsBack_plain hf hk s
  rw [hd] at hback ⊢
  exact .ofLayout h fun hr j hj => (hback hr j hj).mono hag

theorem Field.Echo.nothing {k : FieldKind} (hk : Field.nothing.Expected c.factory c.maxLength k) {n : Nat}
    (hn : lengthPrefixSize ≤ n) : Field.nothing.Echo c k n :=
  .of_plain rfl hk (fun _ => by rw [Field.dispatch]) (fun _ h => h) (Layout.slim_done.fixed.mono hn)

theorem Layout.slim_counted {order : ByteOrder} {way : Listing} {t : ItemType} {n : Nat} (hn : n ≤ 2147483647) :
    (Layout.counted order way t n).Slim order lengthPrefixSize := by
  have hcount : (Layout.count order n .done).Slim order lengthPrefixSize := slim_done.count hn
  unfold Layout.counted
  split
  · exact ⟨hcount.result, hcount.length_le⟩
  · exact hcount

theorem Field.Echo.items {way : Listing} {t : ItemType} {vs : List Value} {n k : Nat} (h : Value.EchoAll c t vs n)
    (hmax : vs.length ≤ c.maxLength) (hlen : vs.length ≤ 2147483647) (hk : lengthPrefixSize + n ≤ k) :
    (Field.items way t vs).Echo c (.items way t) k := by
  refine ⟨(Value.resumableAll_iff vs).2 h.resumable, fun s hs => ?_⟩
  have hroom : (Value.dispatchAll c.order t vs s).result = .ok true →
      vs.length * 1 ≤ (Value.dispatchAll c.order t vs s).out.bytes.length := fun hr =>
    Nat.le_trans (Nat.mul_le_mul_left _ t.minEncodedLength_pos)
      (tidy_values t (fun v hv s => v.tidy (h.resumable v hv) c.order t s) s hs hr).2.2
  have hlist : Echoes c (lengthPrefixSize + n) ((Dispatch.ofLayout () c.order (.counted c.order way t vs.length) s).bind
      (fun _ => Value.dispatchAll c.order t vs) id)
      (fun messageAt => listingWith messageAt (listingName way) t) (some vs) :=
    echoes_counted (Layout.slim_counted hlen) Layout.counted_done hmax hroom ((h.echoes s hs).map some)
  rw [Field.dispatch]
  exact ((hlist.mono hk).left _).followed (.pure rfl)

theorem Field.Echo.map {kt vt : ItemType} {es : List (Value × Value)} {n k : Nat} (h : Value.Affords c kt vt es n)
    (hd : Value.Distinct es) (hmax : es.length ≤ c.maxLength) (hlen : es.length ≤ 2147483647)
    (hk : lengthPrefixSize + n ≤ k) : (Field.map kt vt true es).Echo c (.map kt vt true) k := by
  refine ⟨(Value.resumableEntries_iff es).2 h.resumable, fun s hs => ?_⟩
  have hroom : (Value.dispatchEntries c.order kt vt es s).result = .ok true →
      es.length * 2 ≤ (Value.dispatchEntries c.order kt vt es s).out.bytes.length := fun hr =>
    Nat.le_trans (Nat.le_of_eq (Nat.mul_comm ..))
      (tidy_entries (fun e he => ⟨e.1.tidy (h.resumable e he).1 c.order, e.2.tidy (h.resumable e he).2 c.order⟩)
        kt vt s hs hr).2.2
  have hmap : Echoes c (lengthPrefixSize + n) ((Dispatch.ofLayout () c.order (.count c.order es.length .done) s).bind
      (fun _ => Value.dispatchEntries c.order kt vt es) id)
      (fun messageAt => mapWith messageAt kt vt true) (some (.ofEntries true es)) := by
    refine echoes_counted (Layout.slim_done.count hlen) (fun hr => ?_) hmax hroom ((h.echoes (.empty true) hs).map some)
    obtain ⟨hn, -, hb⟩ := Layout.count_done hr
    exact ⟨hn, hb.trans (List.append_nil _)⟩
  have hes : (ValueMap.ofEntries true es).entries = es := (ValueMap.collapses_ofEntries true es).eq_of_distinct hd
  rw [Field.dispatch]
  refine ((hmap.mono hk).left _).followed (.pure ?_)
  rw [hes]

theorem yields_listing (hm : Yields c (messageAt .nested) (EchoesPlace c)) (kind : String) (t : ItemType) :
    Yields c (listingWith messageAt kind t) fun o n => match o with
      | none => n = lengthPrefixSize
      | some vs => vs.length ≤ c.maxLength ∧ vs.length ≤ 2147483647 ∧
          ∃ k, lengthPrefixSize + k ≤ n ∧ Value.EchoAll c t vs k := by
  refine yields_counted (.pure rfl) fun len hmax hlen => (yields_items hm t len).map ?_
  rintro vs k ⟨rfl, hvs⟩
  exact ⟨hmax, hlen, k, Nat.le_refl _, hvs⟩

theorem yields_mapping (hm : Yields c (messageAt .nested) (EchoesPlace c)) (kt vt : ItemType) :
    Yields c (mapWith messageAt kt vt true) fun o n => match o with
      | none => n = lengthPrefixSize
      | some x => x.size ≤ c.maxLength ∧ x.size ≤ 2147483647 ∧ Value.Distinct x.entries ∧
          ∃ k, lengthPrefixSize + k ≤ n ∧ Value.Affords c kt vt x.entries k := by
  refine yields_counted (.pure rfl) fun len hmax hlen => ?_
  refine (yields_entries hm kt vt len (x := .empty true) List.Pairwise.nil (.nil 0)).map fun x k ⟨hd, h, hsize⟩ => ?_
  have hle : x.size ≤ len := hsize.trans_eq (Nat.zero_add len)
  exact ⟨hle.trans hmax, hle.trans hlen, hd, 0 + k, by omega, h⟩

/-- **A field of a plain kind echoes** within the bytes that were taken for it, if messages do. -/
theorem yields_fieldWith (hm : Yields c (messageAt .nested) (EchoesPlace c)) {k : FieldKind} (hk : k.plain = true) :
    Yields c (fieldWith messageAt k) fun f n => f.Echo c k n := by
  cases k with
  | data t =>
    have ht : t ≠ .message := of_decide_eq_true hk
    refine (yields_datum t).bind fun o n ho => ?_
    cases o with
    | none =>
      obtain ⟨hnull, hslim⟩ := ho ht
      exact .pure (.of_plain rfl ⟨rfl, hnull, ht⟩ (fun _ => by rw [Field.dispatch]) (fun _ h => h) hslim)
    | some d =>
      obtain ⟨rfl, hd, hslim⟩ := ho
      exact .pure (.of_plain rfl ⟨rfl, hd⟩ (fun _ => by rw [Field.dispatch]) (fun _ h => h) hslim)
  | item t =>
    refine (yields_item hm t).map fun v n hv => ⟨hv.resumable, fun s hs => ?_⟩
    rw [Field.dispatch]
    exact ((hv.echoes s hs).map (Field.item t)).left _
  | fixedInt =>
    refine (yields_fixed Int32).map ?_
    rintro v n rfl
    exact .of_plain rfl trivial (fun _ => by rw [Field.dispatch]) (fun _ h => h) Layout.slim_done.fixed
  | fixedLong =>
    refine (yields_fixed Int64).map ?_
    rintro v n rfl
    exact .of_plain rfl trivial (fun _ => by rw [Field.dispatch]) (fun _ h => h) Layout.slim_done.fixed
  | items way t =>
    refine (yields_listing hm (listingName way) t).bind fun o n ho => ?_
    cases o with
    | none => exact .pure (.nothing (k := .items way t) trivial (Nat.le_of_eq ho.symm))
    | some vs =>
      obtain ⟨hmax, hlen, k, hk, h⟩ := ho
      exact .pure (.items h hmax hlen hk)
  | map kt vt linked =>
    obtain rfl : linked = true := hk
    refine (yields_mapping hm kt vt).bind fun o n ho => ?_
    cases o with
    | none => exact .pure (.nothing (k := .map kt vt true) trivial (Nat.le_of_eq ho.symm))
    | some x =>
      obtain ⟨hmax, hlen, hd, k, hk, h⟩ := ho
      rw [← ValueMap.length_entries] at hmax hlen
      exact .pure (.map h hd hmax hlen hk)
  | message =>
    refine hm.map ?_
    rintro o n ⟨hn, ho⟩
    cases o with
    | none =>
      exact .of_plain rfl trivial (fun _ => by rw [Field.dispatch]) (fun _ h => h) (Layout.slim_done.fixed.mono hn)
    | some m =>
      refine ⟨(ho m rfl).resumable, fun s hs => ?_⟩
      rw [Field.dispatch]
      exact (((ho m rfl).echoes s hs).map Field.message).left _
  | raw | object | root | rootSummary | probe | fail => cases hk

/-- fields in a row that echo within `n` bytes -/
structure Field.EchoAll (c : Terms) (ks : List FieldKind) (fs : List Field) (n : Nat) : Prop where
  resumable : ∀ f ∈ fs, f.resumable = true
  echoes : ∀ (i : Nat) (s : Levels), s.Shallow → s.cursor = i →
    Echoes c n (Field.dispatchAll c.order i none fs s) (fun messageAt => fieldsWith messageAt ks) fs

theorem Field.Echo.cons {k : FieldKind} {ks : List FieldKind} {f : Field} {fs : List Field} {n m : Nat}
    (h : f.Echo c k n) (hs : Field.EchoAll c ks fs m) : Field.EchoAll c (k :: ks) (f :: fs) (n + m) where
  resumable := List.forall_mem_cons.2 ⟨h.resumable, hs.resumable⟩
  echoes i s hsh hcur := by
    have he := h.echoes s hsh
    have hl := (f.tidy h.resumable c.order s hsh he.result).1
    have hcur' : (f.dispatch c.order s).levels.increment.cursor = i + 1 := by
      rw [Levels.cursor_increment, (spares_field c.order h.resumable s).cursor, hcur]
    rw [Field.dispatchAll, if_pos hcur]
    exact he.bind (g := fun f messageAt => do return f :: (← fieldsWith messageAt ks))
      (((hs.echoes (i + 1) _ (hl.update _) hcur').map (f :: ·)).left _)

theorem yields_fields (hm : Yields c (messageAt .nested) (EchoesPlace c)) {ks : List FieldKind}
    (hks : ∀ k ∈ ks, k.plain = true) : Yields c (fieldsWith messageAt ks) fun fs n => Field.EchoAll c ks fs n := by
  induction ks with
  | nil => exact .pure ⟨List.forall_mem_nil _, fun i s _ _ => ⟨rfl, Nat.zero_le _, fun _ _ _ => .pure rfl⟩⟩
  | cons k ks ih =>
    refine (yields_fieldWith hm (hks k List.mem_cons_self)).bind fun f n hf =>
      (ih fun k hk => hks k (List.mem_cons_of_mem _ hk)).map fun fs m hfs => hf.cons hfs

/-! ## Messages -/

/-- a message echoes if its fields do: its header takes two bytes more -/
theorem Message.Echo.of_fields {b : Blueprint} {fs : List Field} {n : Nat} (ht : b.kind.type ≠ nullMessageType)
    (hb : c.factory b.kind.type = some b) (h : Field.EchoAll c b.schema fs n) :
    (Message.mk b.kind fs []).Echo c (directTypeSize + n) := by
  refine ⟨(Field.resumableAll_iff fs).2 h.resumable, fun s hs => ?_⟩
  have hbare := dispatch_resumable c.order b.kind [] h.resumable s.forward
  rw [if_neg (by rw [hs.headerWritten]; exact Bool.false_ne_true)] at hbare
  have hcur : s.forward.markHeader.cursor = 0 :=
    (Levels.cursor_markHeader _).trans (congrArg Level.cursor (hs _ (Nat.lt_succ_self _)))
  have he := h.echoes 0 s.forward.markHeader (hs.forward.update _) hcur
  have hres : ((Message.mk b.kind fs []).dispatch c.order s.forward).result = .ok true :=
    (congrArg Dispatch.result hbare).trans he.result
  have hout : ((Message.mk b.kind fs []).dispatch c.order s.forward).out.bytes =
      Fixed.bytes c.order.swap b.kind.type ++ (Field.dispatchAll c.order 0 none fs s.forward.markHeader).out.bytes := by
    rw [← Layout.bytes_fixed_done]
    exact congrArg (fun d : Dispatch Unit => d.out.bytes) hbare
  have hdepth : ((Message.mk b.kind fs []).dispatch c.order s.forward).levels.depth ≠ 0 :=
    (Message.sound c.order _ s.forward).depth_ne_zero
  refine ⟨(result_leave hdepth).trans hres, ?_, fun hr j hj => ?_⟩
  · rw [out_leave, hout, List.length_append, Fixed.length_bytes]
    exact Nat.add_le_add_left he.length_le _
  · rw [out_leave, hout] at hj ⊢
    rw [List.length_append, Fixed.length_bytes] at hj
    obtain ⟨j, rfl⟩ := Nat.exists_eq_succ_of_ne_zero (Nat.ne_zero_of_lt hj)
    have hlt : (Field.dispatchAll c.order 0 none fs s.forward.markHeader).out.bytes.length < j := by
      have hsize : Fixed.size Int16 = 2 := rfl
      omega
    have hbody : Gives c (bodyWith (follow j) b) _ (· = Message.mk b.kind fs []) :=
      (he.back he.result j hlt).map fun gs hgs => by rw [hgs]
    apply (gives_blueprint ht hb).bind
    rintro _ rfl
    exact hbody.below.map fun m hm => congrArg some hm

/-- **A message echoes** within the bytes that were taken for it, however deep it is followed. -/
theorem yields_follow (hfac : c.factory.Plain) (j : Nat) : Yields c (follow j .nested) (EchoesPlace c) := by
  induction j with
  | zero => exact .panic
  | succ j ih =>
    refine yields_blueprint.bind ?_
    rintro o n ⟨rfl, ho⟩
    cases o with
    | none => exact .pure ⟨Nat.le_refl _, fun _ h => by cases h⟩
    | some b =>
      obtain ⟨type, ht, hb⟩ := ho b rfl
      obtain ⟨rfl, hks⟩ := hfac type b hb
      have hbody : Yields c (bodyWith (follow j) b) fun m k => m.Echo c (directTypeSize + k) :=
        (yields_fields ih hks).map fun fs k hfs => .of_fields ht hb hfs
      refine hbody.below.map fun m k hm => ⟨Nat.le_add_right .., fun m' h => ?_⟩
      obtain rfl := Option.some.inj h
      exact hm

/-- **Whatever is read by a field of a plain kind echoes** within the bytes that were taken for it. -/
theorem yields_field (hfac : c.factory.Plain) {k : FieldKind} (hk : k.plain = true) :
    Yields c (readField k) fun f n => f.Echo c k n := by
  have hnested : Yields c (readAt .nested) (EchoesPlace c) := fun r => yields_follow hfac r.nestingBound r
  exact yields_fieldWith hnested hk

end Courier
