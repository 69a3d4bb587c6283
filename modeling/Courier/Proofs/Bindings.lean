import Courier.Proofs.Maps

/-!
Equality of maps.

Two maps are compared by a look from one side: they are of the same size, and each entry of the one is looked up in the
other. That this is as good from the other side is a matter of counting. No map has a key twice, so the keys of the one,
taken up to equality, are as many as its entries; they are all keys of the other, which has no more of them.

How values are compared is left open, as long as it is a comparison of equals; `Value.sameUnder` makes one of any
comparison of messages that is. `Built eqv linked es m` says that `m` has come about by insertions of `es` in order. A
hashed map may show its entries in any order, and in another one after each insertion. What it answers to a look depends
on `es` alone: `latest es k`.

`Built.get?`, `Built.size`: what such a map answers.
`same_iff`: maps are equal if they answer any look alike.
`equality_of_built`: the main result.
-/

namespace Courier

namespace Value

section Compared

variable {eqv : Value → Value → Bool}

/-- entries that name the same keys, with equal values as the last ones under each -/
structure SameBindings (eqv : Value → Value → Bool) (es fs : List (Value × Value)) : Prop where
  keys : ∀ k : Value, (∃ e ∈ es, eqv k e.1 = true) ↔ ∃ f ∈ fs, eqv k f.1 = true
  values : ∀ k v w, latest es k eqv = some v → latest fs k eqv = some w → eqv v w = true

theorem latest_eq_none_iff (es : List (Value × Value)) (k : Value) :
    latest es k eqv = none ↔ ¬ ∃ e ∈ es, eqv k e.1 = true := by
  rw [latest, List.findSome?_eq_none_iff, not_exists]
  simp only [List.mem_reverse, not_and, ValueMap.pick, ite_eq_right_iff, reduceCtorEq, imp_false]

theorem sameBindings_iff (es fs : List (Value × Value)) :
    SameBindings eqv es fs ↔ ∀ k, Option.Rel (fun v w => eqv v w = true) (latest es k eqv) (latest fs k eqv) := by
  constructor
  · intro h k
    have hnone : latest es k eqv = none ↔ latest fs k eqv = none := by
      rw [latest_eq_none_iff, latest_eq_none_iff, h.keys]
    have hvalues := h.values k
    cases hes : latest es k eqv with
    | none =>
      rw [hnone.1 hes]
      exact .none
    | some v =>
      cases hfs : latest fs k eqv with
      | none => exact absurd (hnone.2 hfs) (by simp [hes])
      | some w => exact .some (hvalues v w hes hfs)
  · intro h
    constructor
    · intro k
      rw [← not_iff_not, ← latest_eq_none_iff, ← latest_eq_none_iff]
      have hk := h k
      generalize latest es k eqv = v at hk
      generalize latest fs k eqv = w at hk
      cases hk <;> simp
    · intro k v w hv hw
      have hk := h k
      rw [hv, hw] at hk
      cases hk with
      | some hs => exact hs

variable (heqv : Equivalence fun v w => eqv v w = true)

include heqv

/-- values up to equality -/
def setoid : Setoid Value where
  r v w := eqv v w = true
  iseqv := heqv

theorem eqv_congr {k l : Value} (h : eqv k l = true) (x : Value) : eqv k x = eqv l x := by
  rw [Bool.eq_iff_iff]
  exact ⟨heqv.trans (heqv.symm h), heqv.trans h⟩

theorem pick_congr {k l : Value} (h : eqv k l = true) : ValueMap.pick eqv k = ValueMap.pick eqv l := by
  funext e
  rw [ValueMap.pick, ValueMap.pick, eqv_congr heqv h]

theorem SameBindings.refl (es : List (Value × Value)) : SameBindings eqv es es where
  keys _ := Iff.rfl
  values k v w hv hw := by
    obtain rfl := Option.some.inj (hv.symm.trans hw)
    exact heqv.refl v

theorem SameBindings.symm {es fs : List (Value × Value)} (h : SameBindings eqv es fs) : SameBindings eqv fs es where
  keys k := (h.keys k).symm
  values k v w hv hw := heqv.symm (h.values k w v hw hv)

theorem SameBindings.trans {es fs gs : List (Value × Value)} (h : SameBindings eqv es fs)
    (h' : SameBindings eqv fs gs) : SameBindings eqv es gs where
  keys k := (h.keys k).trans (h'.keys k)
  values k v x hv hx := by
    cases hw : latest fs k eqv with
    | some w => exact heqv.trans (h.values k v w hv hw) (h'.values k w x hw hx)
    | none =>
      -- the key is named on both sides of `fs`, so it is named there
      have hes : ¬ latest es k eqv = none := by simp [hv]
      rw [latest_eq_none_iff, h.keys, ← latest_eq_none_iff] at hes
      exact absurd hw hes

end Compared

/-- a comparison of messages that is one of equals makes one of values -/
theorem equivalence_sameUnder {eqm : Message → Message → Bool} (h : Equivalence fun m n => eqm m n = true) :
    Equivalence fun v w => sameUnder eqm v w = true where
  refl v := by
    cases v with
    | null => rfl
    | data d => exact beq_self_eq_true d
    | message m => exact h.refl m
  symm {v w} hvw := by
    cases v <;> cases w <;> simp only [sameUnder, Bool.false_eq_true, beq_iff_eq] at hvw ⊢
    · exact hvw.symm
    · exact h.symm hvw
  trans {v w x} hvw hwx := by
    cases v <;> cases w <;> simp only [sameUnder, Bool.false_eq_true, beq_iff_eq] at hvw
    · exact hwx
    · exact hvw ▸ hwx
    · cases x <;> simp only [sameUnder, Bool.false_eq_true] at hwx ⊢
      exact h.trans hvw hwx

/-- the comparison of values is the one that compares messages as they are compared -/
theorem sameUnder_same : sameUnder Message.same = Value.same := by
  funext v w
  cases v <;> cases w <;> simp [sameUnder, same]

end Value

namespace ValueMap

open Value

variable {eqv : Value → Value → Bool} {m n : ValueMap}

/-! ## Maps that have come about by insertions -/

/-- a map that has come about by insertions in order; a hashed one may have its entries in another order after each -/
inductive Built (eqv : Value → Value → Bool) : Bool → List (Value × Value) → ValueMap → Prop
  | empty (linked : Bool) : Built eqv linked [] (.empty linked)
  | insert {linked : Bool} {es : List (Value × Value)} {m : ValueMap} (before : Built eqv linked es m) (k v : Value) :
    Built eqv linked (es ++ [(k, v)]) (m.insert k v eqv).2
  | shuffle {es : List (Value × Value)} {m n : ValueMap} (before : Built eqv false es m) (hashed : n.linked = false)
    (entries : n.entries.Perm m.entries) : Built eqv false es n

namespace Built

variable {linked : Bool} {es fs : List (Value × Value)}

theorem ofEntries (linked : Bool) (es : List (Value × Value)) : Built eqv linked es (.ofEntries linked es eqv) := by
  induction es using List.reverseRecOn with
  | nil => exact .empty linked
  | append_singleton es e ih =>
    rw [ValueMap.ofEntries, List.foldl_concat]
    exact ih.insert e.1 e.2

theorem linked_eq (h : Built eqv linked es m) : m.linked = linked := by
  induction h with
  | empty linked => rfl
  | insert before k v ih => rw [linked_insert, ih]
  | shuffle before hashed entries ih => exact hashed

end Built

/-! ## Looks -/

section Compared

variable (heqv : Equivalence fun v w => eqv v w = true)

include heqv

theorem get?_congr (m : ValueMap) {k l : Value} (h : eqv k l = true) : m.get? k eqv = m.get? l eqv := by
  rw [get?, get?, pick_congr heqv h]

theorem get?_eq_some_iff (hm : Distinct m.entries eqv) (k v : Value) :
    m.get? k eqv = some v ↔ ∃ e ∈ m.entries, eqv k e.1 = true ∧ e.2 = v := by
  constructor
  · intro h
    rw [get?_eq_findSome?] at h
    obtain ⟨e, he, hpick⟩ := List.exists_of_findSome?_eq_some h
    unfold pick at hpick
    split at hpick
    · exact ⟨e, he, ‹_›, Option.some.inj hpick⟩
    · cases hpick
  · rintro ⟨e, he, hk, rfl⟩
    rw [m.get?_congr heqv hk, get?_of_mem heqv hm he]

/-- what an entry holds for `l` once a value has been put under `k` -/
theorem pick_renew (k v l : Value) (e : Value × Value) :
    pick eqv l (renew eqv k v e) = if eqv l k then (pick eqv l e).map fun _ => v else pick eqv l e := by
  unfold renew pick
  cases hl : eqv l k with
  | true =>
    rw [← eqv_congr heqv hl]
    cases he : eqv l e.1 <;> simp [he]
  | false =>
    cases hk : eqv k e.1 with
    | false => rfl
    | true =>
      have he : eqv l e.1 = false := by
        rw [← Bool.not_eq_true]
        exact fun he => absurd (heqv.trans he (heqv.symm hk)) (by simp [hl])
      simp [he]

/-- a look after an insertion -/
theorem get?_insert (m : ValueMap) (k v l : Value) :
    (m.insert k v eqv).2.get? l eqv = if eqv l k then some v else m.get? l eqv := by
  cases hget : m.get? k eqv with
  | none =>
    rw [get?_eq_findSome?, entries_insert_of_none hget, List.findSome?_append, ← get?_eq_findSome?]
    cases hl : eqv l k with
    | true =>
      rw [m.get?_congr heqv hl, hget]
      simp [pick, hl]
    | false => simp [pick, hl]
  | some w =>
    rw [get?_eq_findSome?, entries_insert_of_some hget, List.findSome?_map]
    cases hl : eqv l k with
    | true =>
      have hpick : pick eqv l ∘ renew eqv k v = Option.map (fun _ => v) ∘ pick eqv l :=
        funext fun e => (pick_renew heqv k v l e).trans (if_pos hl)
      rw [hpick, ← List.map_findSome?, ← get?_eq_findSome?, m.get?_congr heqv hl, hget]
      rfl
    | false =>
      have hpick : pick eqv l ∘ renew eqv k v = pick eqv l :=
        funext fun e => (pick_renew heqv k v l e).trans (if_neg (by simp [hl]))
      rw [hpick, ← get?_eq_findSome?]
      rfl

theorem distinct_perm (h : n.entries.Perm m.entries) : Distinct n.entries eqv ↔ Distinct m.entries eqv :=
  h.pairwise_iff (eqv_false_symm heqv)

/-- looks do not tell in which order the entries stand -/
theorem get?_of_perm (hm : Distinct m.entries eqv) (h : n.entries.Perm m.entries) (k : Value) :
    n.get? k eqv = m.get? k eqv := by
  ext v
  rw [get?_eq_some_iff heqv ((distinct_perm heqv h).2 hm), get?_eq_some_iff heqv hm]
  simp only [h.mem_iff]

namespace Built

variable {linked : Bool} {es fs : List (Value × Value)}

theorem distinct (h : Built eqv linked es m) : Distinct m.entries eqv := by
  induction h with
  | empty linked => exact List.Pairwise.nil
  | insert before k v ih => exact distinct_insert ih k v
  | shuffle before hashed entries ih => exact (distinct_perm heqv entries).2 ih

/-- **A look finds the value that was inserted last under a key**, whatever the kind of map. -/
theorem get? (h : Built eqv linked es m) (k : Value) : m.get? k eqv = latest es k eqv := by
  induction h with
  | empty linked => rfl
  | insert before l v ih => rw [get?_insert heqv, latest_concat, ih]
  | shuffle before hashed entries ih => rw [get?_of_perm heqv (before.distinct heqv) entries, ih]

theorem keys (h : Built eqv linked es m) : (m.entries.map Prod.fst).Perm (firsts (es.map Prod.fst) eqv) := by
  induction h with
  | empty linked => exact .refl _
  | @insert linked es m before k v ih =>
    have hany : (m.entries.map Prod.fst).any (eqv k) = (es.map Prod.fst).any (eqv k) :=
      ih.any_eq.trans (any_firsts heqv _ k)
    rw [keys_insert, List.map_append, List.map_singleton, firsts_concat, hany]
    split
    · exact ih
    · exact ih.append_right _
  | shuffle before hashed entries ih => exact (entries.map Prod.fst).trans ih

/-- a map has as many entries as there are keys -/
theorem size (h : Built eqv linked es m) : m.size = (firsts (es.map Prod.fst) eqv).length := by
  rw [← (h.keys heqv).length_eq, List.length_map, length_entries]

end Built

/-! ## Equality -/

/-- the keys of a map, up to equality -/
def keyClasses (m : ValueMap) : List (Quotient (setoid heqv)) :=
  m.entries.map fun e => Quotient.mk (setoid heqv) e.1

theorem length_keyClasses (m : ValueMap) : (m.keyClasses heqv).length = m.size := by
  rw [keyClasses, List.length_map, length_entries]

theorem nodup_keyClasses (hm : Distinct m.entries eqv) : (m.keyClasses heqv).Nodup := by
  refine List.pairwise_map.2 (hm.imp fun {e f} hef heq => ?_)
  have hs : eqv e.1 f.1 = true := Quotient.exact (s := setoid heqv) heq
  rw [heqv.symm hs] at hef
  cases hef

theorem mem_keyClasses_iff (m : ValueMap) (k : Value) :
    Quotient.mk (setoid heqv) k ∈ m.keyClasses heqv ↔ m.get? k eqv ≠ none := by
  rw [Ne, get?_eq_none_iff, not_forall₂, keyClasses, List.mem_map]
  constructor
  · rintro ⟨e, he, heq⟩
    have hs : eqv e.1 k = true := Quotient.exact (s := setoid heqv) heq
    exact ⟨e, he, by simp [heqv.symm hs]⟩
  · rintro ⟨e, he, hk⟩
    rw [Bool.not_eq_false] at hk
    exact ⟨e, he, Quotient.sound (s := setoid heqv) (heqv.symm hk)⟩

omit heqv in
theorem same_eq_true_iff (m n : ValueMap) : m.same n eqv = true ↔
    m.size = n.size ∧ ∀ e ∈ m.entries, ∃ w, n.get? e.1 eqv = some w ∧ eqv w e.2 = true := by
  rw [same, Bool.and_eq_true, beq_iff_eq, List.all_eq_true]
  refine and_congr_right fun _ => forall₂_congr fun e _ => ?_
  cases h : n.get? e.1 eqv <;> simp [h]

/-- **Maps are equal if they answer any look alike.** -/
theorem same_iff (hm : Distinct m.entries eqv) (hn : Distinct n.entries eqv) :
    m.same n eqv = true ↔ ∀ k, Option.Rel (fun v w => eqv v w = true) (m.get? k eqv) (n.get? k eqv) := by
  rw [same_eq_true_iff]
  constructor
  · rintro ⟨hsize, hall⟩ k
    have hsub : m.keyClasses heqv ⊆ n.keyClasses heqv := by
      intro q hq
      obtain ⟨e, he, rfl⟩ := List.mem_map.1 hq
      obtain ⟨w, hw, -⟩ := hall e he
      rw [mem_keyClasses_iff, hw]
      exact Option.some_ne_none w
    -- as many keys on either side, so those of the one are all that the other has
    have hperm : (m.keyClasses heqv).Perm (n.keyClasses heqv) :=
      ((nodup_keyClasses heqv hm).subperm hsub).perm_of_length_le
        (Nat.le_of_eq (by rw [length_keyClasses, length_keyClasses, hsize]))
    cases hmk : m.get? k eqv with
    | none =>
      have hnk : n.get? k eqv = none := by
        by_contra hnk
        exact absurd hmk
          ((mem_keyClasses_iff heqv m k).1 (hperm.mem_iff.2 ((mem_keyClasses_iff heqv n k).2 hnk)))
      rw [hnk]
      exact .none
    | some v =>
      obtain ⟨e, he, hk, rfl⟩ := (get?_eq_some_iff heqv hm k v).1 hmk
      obtain ⟨w, hw, hs⟩ := hall e he
      rw [n.get?_congr heqv hk, hw]
      exact .some (heqv.symm hs)
  · intro h
    have hperm : (m.keyClasses heqv).Perm (n.keyClasses heqv) := by
      rw [List.perm_ext_iff_of_nodup (nodup_keyClasses heqv hm) (nodup_keyClasses heqv hn)]
      intro q
      induction q using Quotient.inductionOn with
      | h k =>
        rw [mem_keyClasses_iff, mem_keyClasses_iff]
        have hk := h k
        generalize m.get? k eqv = v at hk
        generalize n.get? k eqv = w at hk
        cases hk <;> simp
    refine ⟨by rw [← length_keyClasses heqv, hperm.length_eq, length_keyClasses], fun e he => ?_⟩
    have hk := h e.1
    rw [get?_of_mem heqv hm he] at hk
    generalize n.get? e.1 eqv = w at hk
    cases hk with
    | some hs => exact ⟨_, rfl, heqv.symm hs⟩

theorem Built.same_iff {a b : Bool} {es fs : List (Value × Value)} (hm : Built eqv a es m) (hn : Built eqv b fs n) :
    m.same n eqv = true ↔ SameBindings eqv es fs := by
  rw [ValueMap.same_iff heqv (hm.distinct heqv) (hn.distinct heqv), sameBindings_iff]
  simp only [hm.get? heqv, hn.get? heqv]

end Compared

/-- **Equality of maps**, under any comparison of messages that is one of equals; with the comparison of messages as it
is, these are the maps and the equality as they are. However many entries are inserted into a linked map or a hashed one,
and into another, the two are equal just if the entries name the same keys, with equal values as the last ones under
each; it makes no difference which of the two is asked. So a map is equal to itself, and equality goes both ways and on.
A linked map and a hashed one of the same insertions answer every look alike and are of the same size, and an insertion
answers what a look would have answered before it. -/
theorem equality_of_built {eqm : Message → Message → Bool} (heqm : Equivalence fun m n => eqm m n = true) :
    Value.sameUnder Message.same = Value.same ∧
      (∀ linked es, Built (sameUnder eqm) linked es (.ofEntries linked es (sameUnder eqm))) ∧
      (∀ {a b : Bool} {es fs : List (Value × Value)} {m n : ValueMap}, Built (sameUnder eqm) a es m →
        Built (sameUnder eqm) b fs n →
        (m.same n (sameUnder eqm) = true ↔ SameBindings (sameUnder eqm) es fs) ∧
          (n.same m (sameUnder eqm) = true ↔ SameBindings (sameUnder eqm) es fs)) ∧
      (∀ {a : Bool} {es : List (Value × Value)} {m : ValueMap}, Built (sameUnder eqm) a es m →
        m.same m (sameUnder eqm) = true) ∧
      (∀ {a b : Bool} {es fs : List (Value × Value)} {m n : ValueMap}, Built (sameUnder eqm) a es m →
        Built (sameUnder eqm) b fs n → m.same n (sameUnder eqm) = true → n.same m (sameUnder eqm) = true) ∧
      (∀ {a b c : Bool} {es fs gs : List (Value × Value)} {m n o : ValueMap}, Built (sameUnder eqm) a es m →
        Built (sameUnder eqm) b fs n → Built (sameUnder eqm) c gs o → m.same n (sameUnder eqm) = true →
        n.same o (sameUnder eqm) = true → m.same o (sameUnder eqm) = true) ∧
      (∀ {es : List (Value × Value)} {m n : ValueMap}, Built (sameUnder eqm) true es m →
        Built (sameUnder eqm) false es n →
        m.linked = true ∧ n.linked = false ∧ (∀ k, m.get? k (sameUnder eqm) = n.get? k (sameUnder eqm)) ∧
          m.size = n.size) ∧
      ∀ (m : ValueMap) (k v : Value), (m.insert k v (sameUnder eqm)).1 = m.get? k (sameUnder eqm) := by
  have heqv := equivalence_sameUnder heqm
  refine ⟨sameUnder_same, .ofEntries, fun hm hn => ⟨hm.same_iff heqv hn, ?_⟩,
    fun hm => (hm.same_iff heqv hm).2 (.refl heqv _), fun hm hn h => ?_, fun hm hn ho h h' => ?_,
    fun hm hn => ⟨hm.linked_eq, hn.linked_eq, fun k => ?_, ?_⟩, fst_insert⟩
  · rw [hn.same_iff heqv hm]
    exact ⟨.symm heqv, .symm heqv⟩
  · exact (hn.same_iff heqv hm).2 (((hm.same_iff heqv hn).1 h).symm heqv)
  · exact (hm.same_iff heqv ho).2 (((hm.same_iff heqv hn).1 h).trans heqv ((hn.same_iff heqv ho).1 h'))
  · rw [hm.get? heqv, hn.get? heqv]
  · rw [hm.size heqv, hn.size heqv]

/-- a comparison that asks messages for their direct type only -/
def sameType (m n : Message) : Bool :=
  m.type == n.type

/-- entries under a leaf, under a float that is no number, and under another leaf -/
def renamedEntries : List (Value × Value) :=
  [(.message (.leaf 1 (some "a")), .data (.int 1)), (.data (.float ⟨0x7fc00001⟩), .null),
    (.message (.leaf 2 none), .data (.int 2))]

/-- the same keys the other way round, as far as direct types go, with the values that came last -/
def turnedEntries : List (Value × Value) :=
  [(.data (.float ⟨0x7fc00001⟩), .null), (.message (.leaf 3 none), .data (.int 2))]

/-- a linked map and a hashed one, which takes all leaves for one key -/
theorem turned_entries_equal : ∃ n,
    Built (sameUnder sameType) true renamedEntries (.ofEntries true renamedEntries (sameUnder sameType)) ∧
      Built (sameUnder sameType) false turnedEntries n ∧ n.entries = turnedEntries.reverse ∧ n.size = 2 ∧
      (ofEntries true renamedEntries (sameUnder sameType)).same n (sameUnder sameType) = true ∧
      n.same (.ofEntries true renamedEntries (sameUnder sameType)) (sameUnder sameType) = true ∧
      SameBindings (sameUnder sameType) renamedEntries turnedEntries := by
  have heqm : Equivalence fun m n => sameType m n = true := by
    simp only [sameType, beq_iff_eq]
    exact ⟨fun _ => rfl, Eq.symm, Eq.trans⟩
  obtain ⟨-, hofEntries, hequal, -⟩ := equality_of_built heqm
  have hentries : (ofEntries false turnedEntries (sameUnder sameType)).entries = turnedEntries := by rfl
  have hturned : Built (sameUnder sameType) false turnedEntries ⟨false, turnedEntries.reverse.toArray⟩ := by
    refine (hofEntries false turnedEntries).shuffle rfl ?_
    rw [hentries]
    exact List.reverse_perm turnedEntries
  have hsame : (ofEntries true renamedEntries (sameUnder sameType)).same ⟨false, turnedEntries.reverse.toArray⟩
      (sameUnder sameType) = true := by decide +kernel
  obtain ⟨hforth, hback⟩ := hequal (hofEntries true renamedEntries) hturned
  exact ⟨_, hofEntries true renamedEntries, hturned, rfl, rfl, hsame, hback.2 (hforth.1 hsame), hforth.1 hsame⟩

end ValueMap

end Courier
