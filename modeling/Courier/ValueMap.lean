import Courier.Length
import Courier.Message

/-!
Maps from values to values.

A linked map keeps its entries in the order in which their keys came first; a hashed one keeps no order that anyone may
rely on. Inserting under a key that is there already replaces the value and keeps key and place. Equality asks for the
same keys with the same values and disregards both order and kind. Keys and values are compared by `Value.same`, unless
another comparison is handed over.

The entries are kept in packed `cells`; `entries` is what they hold.

`get?_eq_findSome?`: looking up a key finds the first entry under it.
`fst_insert`: an insertion answers what stood under the key.
`entries_insert_of_none`, `entries_insert_of_some`: a new key comes last, an old one keeps its place.
-/

namespace Courier

structure ValueMap where
  linked : Bool
  cells : Array (Value × Value)

namespace ValueMap

def empty (linked : Bool) : ValueMap :=
  ⟨linked, #[]⟩

def entries (m : ValueMap) : List (Value × Value) :=
  m.cells.toList

/-- slots of a table that holds `n` entries and is full to seven eighths at most -/
def slotsFor (n : Nat) : Nat :=
  if n < 4 then 4 else if n < 8 then 8 else powerOfTwoFrom (n * 8 / 7)

/-- bytes of a slot with its mark: an entry stands in the slot of a hashed map, the place of one in that of a linked -/
def slotSize (linked : Bool) : Nat :=
  if linked then 9 else 65

/-- an empty map with room for `n` entries; `none` when no allocation can hold its table -/
def withRoom? (linked : Bool) (n : Nat) : Option ValueMap :=
  if slotsFor n * slotSize linked ≤ maxAllocation then some (empty linked) else none

/-- the value of an entry that stands under `k` -/
def pick (eqv : Value → Value → Bool) (k : Value) (e : Value × Value) : Option Value :=
  if eqv k e.1 then some e.2 else none

/-- an entry, with the value `v` if it stands under `k` -/
def renew (eqv : Value → Value → Bool) (k v : Value) (e : Value × Value) : Value × Value :=
  if eqv k e.1 then (e.1, v) else e

/-- the value that stands under `k` -/
def get? (m : ValueMap) (k : Value) (eqv : Value → Value → Bool := Value.same) : Option Value :=
  m.cells.findSome? (pick eqv k)

/-- the map with `v` under `k`, and the value that stood there -/
def insert (m : ValueMap) (k v : Value) (eqv : Value → Value → Bool := Value.same) : Option Value × ValueMap :=
  match m.get? k eqv, m with
  | none, ⟨linked, cells⟩ => (none, ⟨linked, cells.push (k, v)⟩)
  | some w, ⟨linked, cells⟩ => (some w, ⟨linked, cells.map (renew eqv k v)⟩)

def size (m : ValueMap) : Nat :=
  m.cells.size

/-- the map of these entries, inserted in order -/
def ofEntries (linked : Bool) (es : List (Value × Value)) (eqv : Value → Value → Bool := Value.same) : ValueMap :=
  es.foldl (fun m e => (m.insert e.1 e.2 eqv).2) (empty linked)

/-- whether every entry of `m` stands in `n` too, and `n` holds no more -/
def same (m n : ValueMap) (eqv : Value → Value → Bool := Value.same) : Bool :=
  m.size == n.size && m.entries.all fun (k, v) =>
    match n.get? k eqv with
    | some w => eqv w v
    | none => false

@[simp] theorem length_entries (m : ValueMap) : m.entries.length = m.size := by
  simp [entries, size]

variable {eqv : Value → Value → Bool}

theorem get?_eq_findSome? (m : ValueMap) (k : Value) : m.get? k eqv = m.entries.findSome? (pick eqv k) := by
  simp [get?, entries]

theorem fst_insert (m : ValueMap) (k v : Value) : (m.insert k v eqv).1 = m.get? k eqv := by
  unfold insert
  split <;> simp_all

theorem entries_insert_of_none {m : ValueMap} {k : Value} (h : m.get? k eqv = none) (v : Value) :
    (m.insert k v eqv).2.entries = m.entries ++ [(k, v)] := by
  simp [insert, h, entries]

theorem entries_insert_of_some {m : ValueMap} {k w : Value} (h : m.get? k eqv = some w) (v : Value) :
    (m.insert k v eqv).2.entries = m.entries.map (renew eqv k v) := by
  simp [insert, h, entries]

end ValueMap

end Courier
