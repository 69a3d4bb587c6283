import Courier.Proofs.Tree

/-!
Equality of values is an equality.

Messages, fields and values are compared by functions of their own, which leave out how often a message pauses and the
order in which a map that is not linked shows its entries. `Sameness` says of such a function that, as far as one thing
goes, everything is equal to itself, and equality goes both ways and on. Documents are compared part by part, so there
it is plain equality; for the others it is an induction over messages, fields and values.

`Value.same_refl`, `Value.same_symm`, `Value.same_trans`: the main results.
-/

namespace Courier

/-! ## Documents -/

mutual

theorem Pack.same_iff : ∀ p q : Pack, p.same q = true ↔ p = q
  | .array xs, q => by cases q <;> simp [Pack.same, Pack.sameAll_iff xs]
  | .map es, q => by cases q <;> simp [Pack.same, Pack.sameEntries_iff es]
  | .nil, q | .bool _, q | .int _, q | .float32 _, q | .float64 _, q | .str _, q | .bin _, q | .unwritable, q => by
    cases q <;> simp [Pack.same]
termination_by structural p => p

theorem Pack.sameAll_iff : ∀ xs ys : List Pack, Pack.sameAll xs ys = true ↔ xs = ys
  | [], ys => by cases ys <;> simp [Pack.sameAll]
  | x :: xs, ys => by cases ys <;> simp [Pack.sameAll, Pack.same_iff x, Pack.sameAll_iff xs]
termination_by structural xs => xs

theorem Pack.sameEntries_iff : ∀ es fs : List (Pack × Pack), Pack.sameEntries es fs = true ↔ es = fs
  | [], fs => by cases fs <;> simp [Pack.sameEntries]
  | (k, v) :: es, [] => by simp [Pack.sameEntries]
  | (k, v) :: es, (l, w) :: fs => by
    simp [Pack.sameEntries, Pack.same_iff k, Pack.same_iff v, Pack.sameEntries_iff es]
termination_by structural es => es

end

/-! ## What a comparison should be -/

/-- a comparison that is one of equals, as far as `a` goes -/
structure Sameness {α : Type} (same : α → α → Bool) (a : α) : Prop where
  refl : same a a = true
  symm : ∀ {b}, same a b = true → same b a = true
  trans : ∀ {b c}, same a b = true → same b c = true → same a c = true

namespace Sameness

variable {α : Type} {same : α → α → Bool}

/-- a comparison in a row, one by one -/
theorem row {sameAll : List α → List α → Bool}
    (hiff : ∀ as bs, sameAll as bs = true ↔ List.Forall₂ (fun a b => same a b = true) as bs) {as : List α}
    (h : ∀ a ∈ as, Sameness same a) : Sameness sameAll as where
  refl := by
    rw [hiff, List.forall₂_same]
    exact fun a ha => (h a ha).refl
  symm := by
    intro bs hab
    rw [hiff] at hab ⊢
    induction hab with
    | nil => exact .nil
    | cons hd _ ih =>
      exact .cons ((h _ List.mem_cons_self).symm hd) (ih fun a ha => h a (List.mem_cons_of_mem _ ha))
  trans := by
    intro bs cs hab hbc
    rw [hiff] at hab hbc ⊢
    induction hab generalizing cs with
    | nil => exact hbc
    | cons hd _ ih =>
      cases hbc with
      | cons hd' hbc =>
        exact .cons ((h _ List.mem_cons_self).trans hd hd') (ih (fun a ha => h a (List.mem_cons_of_mem _ ha)) hbc)

/-- a comparison in any order: each of the ones is among the others, and the other way round -/
theorem heap {sameAll : List α → List α → Bool}
    (hiff : ∀ as bs, sameAll as bs = true ↔
      (∀ a ∈ as, ∃ b ∈ bs, same a b = true) ∧ ∀ b ∈ bs, ∃ a ∈ as, same a b = true) {as : List α}
    (h : ∀ a ∈ as, Sameness same a) : Sameness sameAll as where
  refl := by
    rw [hiff]
    exact ⟨fun a ha => ⟨a, ha, (h a ha).refl⟩, fun a ha => ⟨a, ha, (h a ha).refl⟩⟩
  symm := by
    intro bs hab
    rw [hiff] at hab ⊢
    refine ⟨fun b hb => ?_, fun a ha => ?_⟩
    · obtain ⟨a, ha, hs⟩ := hab.2 b hb
      exact ⟨a, ha, (h a ha).symm hs⟩
    · obtain ⟨b, hb, hs⟩ := hab.1 a ha
      exact ⟨b, hb, (h a ha).symm hs⟩
  trans := by
    intro bs cs hab hbc
    rw [hiff] at hab hbc ⊢
    refine ⟨fun a ha => ?_, fun c hc => ?_⟩
    · obtain ⟨b, hb, hs⟩ := hab.1 a ha
      obtain ⟨c, hc, hs'⟩ := hbc.1 b hb
      exact ⟨c, hc, (h a ha).trans hs hs'⟩
    · obtain ⟨b, hb, hs'⟩ := hbc.2 c hc
      obtain ⟨a, ha, hs⟩ := hab.2 b hb
      exact ⟨a, ha, (h a ha).trans hs hs'⟩

end Sameness

/-! ## Comparisons in a row -/

theorem Field.sameAll_iff (fs gs : List Field) :
    Field.sameAll fs gs = true ↔ List.Forall₂ (fun f g => f.same g = true) fs gs := by
  induction fs generalizing gs with
  | nil => cases gs <;> simp [Field.sameAll]
  | cons f fs ih => cases gs <;> simp [Field.sameAll, ih]

theorem Value.sameAll_iff (vs ws : List Value) :
    Value.sameAll vs ws = true ↔ List.Forall₂ (fun v w => v.same w = true) vs ws := by
  induction vs generalizing ws with
  | nil => cases ws <;> simp [Value.sameAll]
  | cons v vs ih => cases ws <;> simp [Value.sameAll, ih]

/-- equality of entries: that of their keys and of their values -/
def Value.samePair (e f : Value × Value) : Bool :=
  e.1.same f.1 && e.2.same f.2

theorem Value.sameEntries_iff (es fs : List (Value × Value)) :
    Value.sameEntries es fs = true ↔ List.Forall₂ (fun e f => Value.samePair e f = true) es fs := by
  induction es generalizing fs with
  | nil => cases fs <;> simp [Value.sameEntries]
  | cons e es ih => cases fs <;> simp [Value.sameEntries, Value.samePair, ih]

theorem Value.entriesAmong_iff (es fs : List (Value × Value)) :
    Value.entriesAmong es fs = true ↔ ∀ e ∈ es, ∃ f ∈ fs, Value.samePair e f = true := by
  induction es with
  | nil => simp [Value.entriesAmong]
  | cons e es ih =>
    rw [Value.entriesAmong, Bool.and_eq_true, List.any_eq_true, ih, List.forall_mem_cons]
    rfl

theorem Value.holdsEntry_iff (es : List (Value × Value)) (f : Value × Value) :
    Value.holdsEntry es f.1 f.2 = true ↔ ∃ e ∈ es, Value.samePair e f = true := by
  induction es with
  | nil => simp [Value.holdsEntry]
  | cons e es ih =>
    rw [Value.holdsEntry, Bool.or_eq_true, ih, List.exists_mem_cons_iff]
    rfl

/-- equality of the entries of maps -/
def Value.sameContents (linked : Bool) (es fs : List (Value × Value)) : Bool :=
  if linked then Value.sameEntries es fs
  else Value.entriesAmong es fs && fs.all fun (k, v) => Value.holdsEntry es k v

theorem Value.sameContents_false_iff (es fs : List (Value × Value)) :
    Value.sameContents false es fs = true ↔
      (∀ e ∈ es, ∃ f ∈ fs, Value.samePair e f = true) ∧ ∀ f ∈ fs, ∃ e ∈ es, Value.samePair e f = true := by
  rw [Value.sameContents, if_neg Bool.false_ne_true, Bool.and_eq_true, Value.entriesAmong_iff, List.all_eq_true]
  exact and_congr_right fun _ => forall₂_congr fun f _ => Value.holdsEntry_iff es f

theorem Value.sameness_contents (linked : Bool) {es : List (Value × Value)}
    (h : ∀ e ∈ es, Sameness Value.same e.1 ∧ Sameness Value.same e.2) : Sameness (Value.sameContents linked) es := by
  have hpair : ∀ e ∈ es, Sameness Value.samePair e := by
    intro e he
    obtain ⟨hk, hv⟩ := h e he
    refine ⟨?_, fun hef => ?_, fun hef hfg => ?_⟩
    · rw [Value.samePair, hk.refl, hv.refl]
      rfl
    · obtain ⟨h₁, h₂⟩ := Bool.and_eq_true_iff.1 hef
      exact Bool.and_eq_true_iff.2 ⟨hk.symm h₁, hv.symm h₂⟩
    · obtain ⟨h₁, h₂⟩ := Bool.and_eq_true_iff.1 hef
      obtain ⟨h₃, h₄⟩ := Bool.and_eq_true_iff.1 hfg
      exact Bool.and_eq_true_iff.2 ⟨hk.trans h₁ h₃, hv.trans h₂ h₄⟩
  cases linked with
  | true => exact .row Value.sameEntries_iff hpair
  | false => exact .heap Value.sameContents_false_iff hpair

/-! ## Fields -/

theorem Field.same_plain {f : Field} (hf : f.isPlain = true) (g : Field) : f.same g = true ↔ f = g := by
  cases f with
  | message m =>
    cases m with
    | none =>
      cases g with
      | message n => cases n <;> simp [Field.same]
      | _ => simp [Field.same]
    | some m => cases hf
  | item | items | map | root => cases hf
  | object s p => cases g <;> simp [Field.same, Pack.same_iff]
  | _ => cases g <;> simp [Field.same, and_assoc]

/-- a whole of which some part is compared by a comparison of its own -/
theorem Sameness.part {α β : Type} {same : α → α → Bool} {sameWhole : β → β → Bool} {a : α} (h : Sameness same a)
    (mk : α → β) (hinv : ∀ a g, sameWhole (mk a) g = true ↔ ∃ b, mk b = g ∧ same a b = true) :
    Sameness sameWhole (mk a) where
  refl := (hinv a _).2 ⟨a, rfl, h.refl⟩
  symm := by
    intro g hg
    obtain ⟨b, rfl, hab⟩ := (hinv a g).1 hg
    exact (hinv b _).2 ⟨a, rfl, h.symm hab⟩
  trans := by
    intro g g' hg hg'
    obtain ⟨b, rfl, hab⟩ := (hinv a g).1 hg
    obtain ⟨c, rfl, hbc⟩ := (hinv b g').1 hg'
    exact (hinv a _).2 ⟨c, rfl, h.trans hab hbc⟩

/-- what is equal to nothing but itself -/
theorem Sameness.plain {α : Type} {same : α → α → Bool} {a : α} (h : ∀ b, same a b = true ↔ a = b) : Sameness same a where
  refl := (h a).2 rfl
  symm := by
    intro b hb
    obtain rfl := (h b).1 hb
    exact hb
  trans := by
    intro b c hb hc
    obtain rfl := (h b).1 hb
    exact hc

/-- messages that are compared by their kinds and by their fields -/
theorem Sameness.ofFields {sameAll : List Field → List Field → Bool} {same : Message → Message → Bool} {m : Message}
    (h : Sameness sameAll m.fields)
    (hinv : ∀ l n, l.kind = m.kind → (same l n = true ↔ l.kind = n.kind ∧ sameAll l.fields n.fields = true)) :
    Sameness same m where
  refl := (hinv m m rfl).2 ⟨rfl, h.refl⟩
  symm := by
    intro n hn
    obtain ⟨hkind, hfields⟩ := (hinv m n rfl).1 hn
    exact (hinv n m hkind.symm).2 ⟨hkind.symm, h.symm hfields⟩
  trans := by
    intro n o hn ho
    obtain ⟨hkind, hfields⟩ := (hinv m n rfl).1 hn
    obtain ⟨hkind', hfields'⟩ := (hinv n o hkind.symm).1 ho
    exact (hinv m o rfl).2 ⟨hkind.trans hkind', h.trans hfields hfields'⟩

theorem Tree.sameness : Tree.Step (Sameness Message.same) (Sameness Field.same) (Sameness Value.same) where
  message kind fields pauses h :=
    .ofFields (.row Field.sameAll_iff h) fun m n _ => by
      cases m; cases n
      simp [Message.same, Message.kind, Message.fields]
  plain f hf := .plain (Field.same_plain hf)
  item t v h := h.part (Field.item t) fun v g => by cases g <;> simp [Field.same, and_assoc]
  items way t vs h := by
    have hrow : Sameness Value.sameAll vs := .row Value.sameAll_iff h
    exact hrow.part (Field.items way t) fun vs g => by cases g <;> simp [Field.same, and_assoc]
  map kt vt linked es h := by
    refine (Value.sameness_contents linked h).part (Field.map kt vt linked) fun es g => ?_
    cases g with
    | map a b l fs => simp [Field.same, Value.sameContents, and_assoc]
    | _ => simp [Field.same]
  nested m h := h.part (fun m => Field.message (some m)) fun m g => by
    cases g with
    | message n => cases n <;> simp [Field.same]
    | _ => simp [Field.same]
  root m h := h.part Field.root fun m g => by cases g <;> simp [Field.same]
  null := .plain fun w => by cases w <;> simp [Value.same]
  data d := .plain fun w => by cases w <;> simp [Value.same]
  inner m h := h.part Value.message fun m w => by cases w <;> simp [Value.same]

namespace Value

theorem same_refl (v : Value) : v.same v = true :=
  (Tree.sameness.all.2.2 v).refl

theorem same_symm {v w : Value} (h : v.same w = true) : w.same v = true :=
  (Tree.sameness.all.2.2 v).symm h

theorem same_trans {v w x : Value} (h : v.same w = true) (k : w.same x = true) : v.same x = true :=
  (Tree.sameness.all.2.2 v).trans h k

end Value

end Courier
