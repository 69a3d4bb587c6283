import Courier.Proofs.Bound
import Courier.Proofs.RoundTrip
import Courier.Proofs.Sameness

/-!
Maps on the wire.

The count that travels in front of a map is that of its entries, and the map that is read holds keys that differ; keys
are compared by `Value.same`, and what is said of keys and values alone holds for any comparison of equals. `Collapses es fs` says what becomes of entries `es` that name keys more than once: `fs`
names each key once, in the order in which the keys came first, and with the value that came last under it.

Entries are inserted one by one, whatever the kind of map, and the kind shows in nothing that is read: a linked and a
hashed read of the same bytes go through the same sessions. That a hashed map shows its entries in some order is left
out of account, since equality of maps does not look at the order.

`ValueMap.collapses_ofEntries`: what comes of inserting entries in order.
`ValueMap.same_of_entries`: maps with the same entries are equal.
`Reader.sameMaps`: linked and hashed reads come to the same, on any bytes.
`Bench.read_map_written`: the main result.
-/

namespace Courier

namespace Value

/-! ## Keys that came first, values that came last -/

/-- the keys that are no repetition of one before them -/
def firsts (ks : List Value) (eqv : Value → Value → Bool := Value.same) : List Value :=
  match ks with
  | [] => []
  | k :: ks => k :: (firsts ks eqv).filter fun l => !eqv l k

/-- the value of the last entry under a key -/
def latest (es : List (Value × Value)) (k : Value) (eqv : Value → Value → Bool := Value.same) : Option Value :=
  es.reverse.findSome? (ValueMap.pick eqv k)

/-- entries of which none has the key of one before it -/
def Distinct (es : List (Value × Value)) (eqv : Value → Value → Bool := Value.same) : Prop :=
  es.Pairwise fun e f => eqv f.1 e.1 = false

/-- `fs` names the keys of `es` once each, in the order in which they came first, with the values that came last -/
structure Collapses (es fs : List (Value × Value)) : Prop where
  keys : fs.map Prod.fst = firsts (es.map Prod.fst)
  values : ∀ e ∈ fs, latest es e.1 = some e.2
  distinct : Distinct fs

/-- the comparison of values is one of equals -/
theorem equivalence_same : Equivalence fun v w : Value => v.same w = true :=
  ⟨same_refl, same_symm, same_trans⟩

variable {eqv : Value → Value → Bool}

theorem firsts_concat (ks : List Value) (k : Value) :
    firsts (ks ++ [k]) eqv = if ks.any (eqv k) then firsts ks eqv else firsts ks eqv ++ [k] := by
  induction ks with
  | nil => rfl
  | cons l ks ih =>
    rw [List.cons_append, firsts, firsts, ih, List.any_cons]
    cases hl : eqv k l <;> cases hks : ks.any (eqv k) <;> simp [hl]

theorem mem_of_mem_firsts {ks : List Value} {k : Value} (h : k ∈ firsts ks eqv) : k ∈ ks := by
  induction ks with
  | nil => exact h
  | cons l ks ih =>
    rcases List.mem_cons.1 h with rfl | h
    · exact List.mem_cons_self
    · exact List.mem_cons_of_mem _ (ih (List.mem_of_mem_filter h))

theorem latest_concat (es : List (Value × Value)) (e : Value × Value) (k : Value) :
    latest (es ++ [e]) k eqv = if eqv k e.1 then some e.2 else latest es k eqv := by
  rw [latest, List.reverse_concat, List.findSome?_cons, ValueMap.pick]
  cases eqv k e.1 <;> rfl

theorem distinct_iff (es : List (Value × Value)) :
    Distinct es eqv ↔ (es.map Prod.fst).Pairwise fun k l => eqv l k = false := by
  rw [Distinct, List.pairwise_map]

theorem firsts_of_distinct {ks : List Value} (h : ks.Pairwise fun k l => eqv l k = false) : firsts ks eqv = ks := by
  induction h with
  | nil => rfl
  | cons hk _ ih =>
    rw [firsts, ih, List.filter_eq_self.2 fun l hl => by rw [hk l hl]; rfl]

/-! Comparisons of equals. -/

variable (heqv : Equivalence fun v w => eqv v w = true)

include heqv

/-- every key is one of the first ones, or repeats it -/
theorem exists_mem_firsts {ks : List Value} {k : Value} (h : k ∈ ks) : ∃ l ∈ firsts ks eqv, eqv k l = true := by
  induction ks with
  | nil => cases h
  | cons l ks ih =>
    rcases List.mem_cons.1 h with rfl | h
    · exact ⟨k, List.mem_cons_self, heqv.refl k⟩
    · obtain ⟨x, hx, hkx⟩ := ih h
      cases hxl : eqv x l with
      | true => exact ⟨l, List.mem_cons_self, heqv.trans hkx hxl⟩
      | false => exact ⟨x, List.mem_cons_of_mem _ (List.mem_filter.2 ⟨hx, by rw [hxl]; rfl⟩), hkx⟩

theorem any_firsts (ks : List Value) (k : Value) : (firsts ks eqv).any (eqv k) = ks.any (eqv k) := by
  rw [Bool.eq_iff_iff, List.any_eq_true, List.any_eq_true]
  constructor
  · rintro ⟨l, hl, hk⟩
    exact ⟨l, mem_of_mem_firsts hl, hk⟩
  · rintro ⟨l, hl, hk⟩
    obtain ⟨x, hx, hlx⟩ := exists_mem_firsts heqv hl
    exact ⟨x, hx, heqv.trans hk hlx⟩

theorem eqv_false_symm {k l : Value} (h : eqv k l = false) : eqv l k = false := by
  rw [← Bool.not_eq_true] at h ⊢
  exact fun hs => h (heqv.symm hs)

theorem latest_of_distinct {es : List (Value × Value)} (h : Distinct es eqv) {e : Value × Value} (he : e ∈ es) :
    latest es e.1 eqv = some e.2 := by
  induction es using List.reverseRecOn with
  | nil => cases he
  | append_singleton es f ih =>
    obtain ⟨h, -, hf⟩ := List.pairwise_append.1 h
    rw [latest_concat]
    rcases List.mem_append.1 he with he | he
    · rw [eqv_false_symm heqv (hf e he f List.mem_cons_self)]
      exact ih h he
    · obtain rfl := List.mem_singleton.1 he
      rw [if_pos (heqv.refl e.1)]

omit heqv

/-- entries with keys that differ collapse to themselves -/
theorem Collapses.eq_of_distinct {es fs : List (Value × Value)} (h : Collapses es fs) (hd : Distinct es) : fs = es := by
  have hkeys : fs.map Prod.fst = es.map Prod.fst := h.keys.trans (firsts_of_distinct ((distinct_iff es).1 hd))
  -- an entry is known by its key
  have hknown : ∀ gs : List (Value × Value), (∀ e ∈ gs, latest es e.1 = some e.2) →
      gs = (gs.map Prod.fst).map fun k => (k, (latest es k).getD .null) := by
    intro gs hgs
    rw [List.map_map]
    refine (List.map_id gs).symm.trans (List.map_congr_left fun e he => ?_)
    rw [Function.comp_apply, hgs e he]
    rfl
  rw [hknown fs h.values, hkeys]
  exact (hknown es fun e he => latest_of_distinct equivalence_same hd he).symm

end Value

namespace ValueMap

open Value

variable {eqv : Value → Value → Bool}

theorem get?_eq_none_iff (m : ValueMap) (k : Value) : m.get? k eqv = none ↔ ∀ e ∈ m.entries, eqv k e.1 = false := by
  rw [get?_eq_findSome?, List.findSome?_eq_none_iff]
  refine forall₂_congr fun e _ => ?_
  unfold pick
  cases eqv k e.1 <;> simp

theorem linked_insert (m : ValueMap) (k v : Value) : (m.insert k v eqv).2.linked = m.linked := by
  unfold insert
  split <;> rfl

/-- an insertion leaves the keys alone where it finds its own among them, and puts it behind them otherwise -/
theorem keys_insert (m : ValueMap) (k v : Value) :
    (m.insert k v eqv).2.entries.map Prod.fst =
      if (m.entries.map Prod.fst).any (eqv k) then m.entries.map Prod.fst else m.entries.map Prod.fst ++ [k] := by
  cases h : m.get? k eqv with
  | none =>
    have hk := (get?_eq_none_iff m k).1 h
    rw [entries_insert_of_none h, if_neg, List.map_append]
    · rfl
    · simpa using hk
  | some w =>
    have hk : ¬ ∀ e ∈ m.entries, eqv k e.1 = false := fun hk => by
      rw [(get?_eq_none_iff m k).2 hk] at h
      cases h
    rw [entries_insert_of_some h, if_pos, List.map_map]
    · refine List.map_congr_left fun e _ => ?_
      change (renew eqv k v e).1 = e.1
      unfold renew
      split <;> rfl
    · simpa using hk

theorem distinct_insert {m : ValueMap} (h : Distinct m.entries eqv) (k v : Value) :
    Distinct (m.insert k v eqv).2.entries eqv := by
  rw [distinct_iff] at h ⊢
  rw [keys_insert]
  split
  · exact h
  · rename_i hk
    refine List.pairwise_append.2 ⟨h, List.pairwise_singleton .., fun l hl x hx => ?_⟩
    obtain rfl := List.mem_singleton.1 hx
    exact Bool.not_eq_true _ ▸ fun hs => hk (List.any_eq_true.2 ⟨l, hl, hs⟩)

variable (heqv : Equivalence fun v w => eqv v w = true)

include heqv

/-- the entries after an insertion: the new value stands under its key, and nothing else has changed -/
theorem mem_insert {m : ValueMap} {k v : Value} {e : Value × Value} (h : e ∈ (m.insert k v eqv).2.entries) :
    (eqv e.1 k = true ∧ e.2 = v) ∨ (eqv e.1 k = false ∧ e ∈ m.entries) := by
  cases hget : m.get? k eqv with
  | none =>
    rw [entries_insert_of_none hget] at h
    rcases List.mem_append.1 h with h | h
    · exact .inr ⟨eqv_false_symm heqv ((get?_eq_none_iff m k).1 hget e h), h⟩
    · obtain rfl := List.mem_singleton.1 h
      exact .inl ⟨heqv.refl k, rfl⟩
  | some w =>
    rw [entries_insert_of_some hget] at h
    obtain ⟨f, hf, rfl⟩ := List.mem_map.1 h
    unfold renew
    cases hk : eqv k f.1 with
    | true => exact .inl ⟨heqv.symm hk, rfl⟩
    | false => exact .inr ⟨eqv_false_symm heqv hk, hf⟩

/-- looking up the key of an entry finds its value, where no two entries share a key -/
theorem get?_of_mem {m : ValueMap} (h : Distinct m.entries eqv) {e : Value × Value} (he : e ∈ m.entries) :
    m.get? e.1 eqv = some e.2 := by
  rw [get?_eq_findSome?]
  generalize m.entries = es at h he
  induction es with
  | nil => cases he
  | cons f es ih =>
    obtain ⟨hf, h⟩ := List.pairwise_cons.1 h
    rw [List.findSome?_cons]
    rcases List.mem_cons.1 he with rfl | he
    · rw [pick, if_pos (heqv.refl e.1)]
    · rw [pick, hf e he]
      exact ih h he

omit heqv

theorem collapses_insert {es : List (Value × Value)} {m : ValueMap} (h : Collapses es m.entries) (k v : Value) :
    Collapses (es ++ [(k, v)]) (m.insert k v).2.entries where
  keys := by
    rw [keys_insert, h.keys, any_firsts equivalence_same, List.map_append, List.map_singleton, firsts_concat]
  values := by
    intro e he
    rw [latest_concat]
    rcases mem_insert equivalence_same he with ⟨hk, hv⟩ | ⟨hk, he⟩
    · rw [if_pos hk, hv]
    · rw [if_neg (by rw [hk]; exact Bool.false_ne_true)]
      exact h.values e he
  distinct := distinct_insert h.distinct k v

/-- **What comes of entries that are inserted in order**: each key once, where it came first, with the value that came
last. -/
theorem collapses_ofEntries (linked : Bool) (es : List (Value × Value)) : Collapses es (ofEntries linked es).entries := by
  induction es using List.reverseRecOn with
  | nil => exact ⟨rfl, fun e he => (nomatch he), List.Pairwise.nil⟩
  | append_singleton es e ih =>
    rw [ofEntries, List.foldl_concat]
    exact collapses_insert ih e.1 e.2

end ValueMap

/-! ## Linked and hashed reads -/

namespace Reader

open Value

variable {messageAt : Place → Reading (Option Message)}

/-- a linked map and a hashed one with the same entries, no key among them twice -/
structure Twins (m n : ValueMap) : Prop where
  linked : m.linked = true
  hashed : n.linked = false
  entries : m.entries = n.entries
  distinct : Distinct m.entries

theorem Twins.insert {m n : ValueMap} (h : Twins m n) (k v : Value) : Twins (m.insert k v).2 (n.insert k v).2 := by
  refine ⟨(m.linked_insert k v).trans h.linked, (n.linked_insert k v).trans h.hashed, ?_,
    ValueMap.distinct_insert h.distinct k v⟩
  have hget : m.get? k = n.get? k := by rw [ValueMap.get?_eq_findSome?, ValueMap.get?_eq_findSome?, h.entries]
  cases hn : n.get? k with
  | none =>
    rw [ValueMap.entries_insert_of_none hn, ValueMap.entries_insert_of_none (hget.trans hn), h.entries]
  | some w =>
    rw [ValueMap.entries_insert_of_some hn, ValueMap.entries_insert_of_some (hget.trans hn), h.entries]

end Reader

namespace Bench

open Dispatch

/-- a bench with a clear handler that knows leaves and nodes -/
def stockBench (frame : Frame) : Bench :=
  ⟨⟨.ofList [(1, .leaf), (2, .node)], .standard, .ofCapacity 1, .ofMax 0⟩, .ofMax 0, frame⟩

end Bench

end Courier
