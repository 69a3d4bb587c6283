import Courier.Fixed
import Mathlib

/-!
Runs of words and their bytes.

The bulk forms move all words of a run as they lie in memory and turn the bytes of each in a second pass. Seen word by
word they do what the single forms do: `writeEach` and `readEach` are the single forms, one word behind the other, and
the bulk forms come to the same as these on every destination and every source, those included that are too short.

`run_eq_flatMap`: the bytes of a run are the bytes of its words, one behind the other.
`encodeSlice_eq_writeEach`, `decodeSlice_eq_readEach`: the bulk forms against the single ones.
`readEach_flatMap`, `flatMap_of_readEach`: reading takes back what writing put, and the other way round.
`bulk_as_single`: the main result, for words of every kind and for truth values.
-/

namespace Courier

namespace Fixed

variable {α : Type} [Fixed α]

/-- the words written one by one, each behind the one before it -/
def writeEach (swap : Bool) : List α → Bytes → Option Bytes
  | [], dst => some dst
  | v :: vs, dst =>
    match writeFixed dst v swap with
    | some out => (writeEach swap vs (out.drop (size α))).map (out.take (size α) ++ ·)
    | none => none

/-- `n` words read one by one, each behind the one before it -/
def readEach (swap : Bool) : Nat → Bytes → Option (List α)
  | 0, _ => some []
  | n + 1, src =>
    match readFixed src swap with
    | some v => (readEach swap n (src.drop (size α))).map (v :: ·)
    | none => none

/-- turning each of the pieces of a run that are `n` long -/
theorem reverseRuns_flatMap {β : Type} {n : Nat} {f : β → Bytes} (hf : ∀ v, (f v).length = n) (vs : List β) :
    Bytes.reverseRuns n vs.length (vs.flatMap f) = vs.flatMap fun v => (f v).reverse := by
  induction vs with
  | nil => rfl
  | cons v vs ih =>
    rw [List.flatMap_cons, List.flatMap_cons, List.length_cons, Bytes.reverseRuns, List.take_left' (hf v),
      List.drop_left' (hf v), ih]

theorem run_eq_flatMap (swap : Bool) (vs : List α) : run swap vs = vs.flatMap (bytes swap) := by
  cases swap with
  | false => rfl
  | true => exact reverseRuns_flatMap (fun v => Bytes.length_digits ..) vs

@[simp] theorem length_run (swap : Bool) (vs : List α) : (run swap vs).length = vs.length * size α := by
  rw [run_eq_flatMap]
  induction vs with
  | nil => simp
  | cons v vs ih => rw [List.flatMap_cons, List.length_append, ih, length_bytes, List.length_cons, Nat.succ_mul,
      Nat.add_comm]

/-! ## Writing -/

theorem encodeSlice_eq (vs : List α) (dst : Bytes) (swap : Bool) : encodeSlice vs dst swap =
    if vs.length * size α ≤ dst.length then
      some (vs.flatMap (bytes swap) ++ dst.drop (vs.length * size α), vs.length * size α)
    else none := by
  simp only [encodeSlice, Bytes.overwrite, Nat.zero_add, length_run, List.take_zero, List.nil_append]
  split
  · rw [run_eq_flatMap]
    rfl
  · rfl

theorem writeEach_eq (swap : Bool) (vs : List α) (dst : Bytes) : writeEach swap vs dst =
    if vs.length * size α ≤ dst.length then some (vs.flatMap (bytes swap) ++ dst.drop (vs.length * size α))
    else none := by
  induction vs generalizing dst with
  | nil => simp [writeEach]
  | cons v vs ih =>
    have hv : (bytes swap v).length = size α := length_bytes swap v
    rw [writeEach, writeFixed, Bytes.overwrite, Nat.zero_add, hv, List.take_zero, List.nil_append, List.length_cons,
      Nat.succ_mul]
    by_cases hfirst : size α ≤ dst.length
    · simp only [if_pos hfirst]
      rw [List.take_left' hv, List.drop_left' hv, ih, List.length_drop]
      by_cases hrest : vs.length * size α ≤ dst.length - size α
      · rw [if_pos hrest, if_pos (by omega), Option.map_some, List.flatMap_cons, List.append_assoc, List.drop_drop,
          Nat.add_comm (size α)]
      · rw [if_neg hrest, if_neg (by omega), Option.map_none]
    · rw [if_neg hfirst, if_neg (by omega)]

/-- **A run is written as its words are one by one.** -/
theorem encodeSlice_eq_writeEach (vs : List α) (dst : Bytes) (swap : Bool) :
    encodeSlice vs dst swap = (writeEach swap vs dst).map fun out => (out, vs.length * size α) := by
  rw [encodeSlice_eq, writeEach_eq]
  split <;> rfl

/-! ## Reading -/

/-- words that lie turned, one by one -/
theorem readEach_eq (swap : Bool) (n : Nat) (src : Bytes) : (readEach swap n src : Option (List α)) =
    if n * size α ≤ src.length then
      some (words n (if swap then Bytes.reverseRuns (size α) n src else src))
    else none := by
  induction n generalizing src with
  | zero => simp [readEach, words]
  | succ n ih =>
    rw [readEach, readFixed, Nat.succ_mul]
    by_cases hfirst : size α ≤ src.length
    · simp only [if_pos hfirst]
      rw [ih, List.length_drop]
      by_cases hrest : n * size α ≤ src.length - size α
      · have hall : n * size α + size α ≤ src.length := by omega
        rw [if_pos hrest, if_pos hall, Option.map_some]
        cases swap with
        | false => rfl
        | true =>
          have hl : (src.take (size α)).reverse.length = size α := by
            rw [List.length_reverse, List.length_take, Nat.min_eq_left hfirst]
          simp only [if_true, Bytes.reverseRuns, words, value]
          rw [List.take_left' hl, List.drop_left' hl]
      · have hall : ¬ n * size α + size α ≤ src.length := by omega
        rw [if_neg hrest, if_neg hall, Option.map_none]
    · rw [if_neg hfirst, if_neg (by omega)]

/-- words and turned runs are made of the bytes that they take, and of no others -/
theorem words_take (n : Nat) (src : Bytes) : (words n (src.take (n * size α)) : List α) = words n src := by
  induction n generalizing src with
  | zero => rfl
  | succ n ih =>
    have hadd : (n + 1) * size α = size α + n * size α := by rw [Nat.succ_mul, Nat.add_comm]
    rw [words, words, List.take_take, hadd, Nat.min_eq_left (Nat.le_add_right ..), List.drop_take,
      Nat.add_sub_cancel_left, ih]

theorem reverseRuns_take (k n : Nat) (src : Bytes) :
    Bytes.reverseRuns k n (src.take (n * k)) = Bytes.reverseRuns k n src := by
  induction n generalizing src with
  | zero => rfl
  | succ n ih =>
    have hadd : (n + 1) * k = k + n * k := by rw [Nat.succ_mul, Nat.add_comm]
    rw [Bytes.reverseRuns, Bytes.reverseRuns, List.take_take, hadd, Nat.min_eq_left (Nat.le_add_right ..),
      List.drop_take, Nat.add_sub_cancel_left, ih]

/-- **A run is read as its words are one by one.** -/
theorem decodeSlice_eq_readEach (src : Bytes) (n : Nat) (swap : Bool) :
    (decodeSlice src n swap : Option (List α)) = readEach swap n src := by
  rw [readEach_eq, decodeSlice]
  by_cases hn : n = 0
  · subst hn
    rw [if_pos rfl, if_pos (by rw [Nat.zero_mul]; exact Nat.zero_le _)]
    rfl
  · rw [if_neg hn]
    cases swap with
    | false => simp only [Bool.false_eq_true, if_false, words_take]
    | true => simp only [if_true, reverseRuns_take]

/-! ## There and back -/

/-- the words of a run are read back from its bytes, whatever comes behind them -/
theorem readEach_flatMap (swap : Bool) (vs : List α) (rest : Bytes) :
    readEach swap vs.length (vs.flatMap (bytes swap) ++ rest) = some vs := by
  induction vs with
  | nil => rfl
  | cons v vs ih =>
    have hv : (bytes swap v).length = size α := length_bytes swap v
    have hread : readFixed (bytes swap v ++ (vs.flatMap (bytes swap) ++ rest)) swap = some v := by
      rw [readFixed, List.length_append, if_pos (by omega), List.take_left' hv, value_bytes]
    rw [List.length_cons, List.flatMap_cons, List.append_assoc, readEach, hread]
    dsimp only
    rw [List.drop_left' hv, ih, Option.map_some]

/-- the bytes of what was read are the bytes that were taken for it -/
theorem flatMap_of_readEach {swap : Bool} {n : Nat} {src : Bytes} {vs : List α} (h : readEach swap n src = some vs) :
    vs.length = n ∧ vs.flatMap (bytes swap) = src.take (n * size α) := by
  induction n generalizing src vs with
  | zero =>
    obtain rfl := Option.some.inj h
    exact ⟨rfl, by rw [Nat.zero_mul, List.take_zero]; rfl⟩
  | succ n ih =>
    rw [readEach, readFixed] at h
    by_cases hfirst : size α ≤ src.length
    · simp only [if_pos hfirst] at h
      obtain ⟨ws, hws, rfl⟩ := Option.map_eq_some_iff.1 h
      obtain ⟨hlen, hbytes⟩ := ih hws
      have hl : (src.take (size α)).length = size α := by rw [List.length_take, Nat.min_eq_left hfirst]
      refine ⟨congrArg Nat.succ hlen, ?_⟩
      rw [List.flatMap_cons, bytes_value swap _ hl, hbytes, ← List.take_add, Nat.succ_mul, Nat.add_comm]
    · simp only [if_neg hfirst] at h
      cases h

theorem decodeSlice_run (swap : Bool) (vs : List α) : decodeSlice (run swap vs) vs.length swap = some vs := by
  rw [decodeSlice_eq_readEach, run_eq_flatMap, ← List.append_nil (vs.flatMap _), readEach_flatMap]

theorem length_decodeSlice {src : Bytes} {n : Nat} {swap : Bool} {vs : List α} (h : decodeSlice src n swap = some vs) :
    vs.length = n := by
  rw [decodeSlice_eq_readEach] at h
  exact (flatMap_of_readEach h).1

/-- the bytes of the `i`-th word of a run -/
theorem piece_flatMap (swap : Bool) (vs : List α) (rest : Bytes) {i : Nat} (hi : i < vs.length) :
    ((vs.flatMap (bytes swap) ++ rest).drop (i * size α)).take (size α) = bytes swap vs[i] := by
  induction vs generalizing i with
  | nil => exact absurd hi (Nat.not_lt_zero i)
  | cons v vs ih =>
    have hv : (bytes swap v).length = size α := length_bytes swap v
    rw [List.flatMap_cons, List.append_assoc]
    cases i with
    | zero => rw [Nat.zero_mul, List.drop_zero, List.take_left' hv, List.getElem_cons_zero]
    | succ i =>
      rw [Nat.succ_mul, Nat.add_comm, ← List.drop_drop, List.drop_left' hv, List.getElem_cons_succ]
      exact ih (Nat.lt_of_succ_lt_succ hi)

theorem bytes_true (v : α) : bytes true v = (bytes false v).reverse := rfl

/-! ## The rules -/

/-- what the bulk forms of a kind of words have to do -/
structure BulkLawful (α : Type) [Fixed α] : Prop where
  /-- writing a run comes to the same as writing its words one by one, also where there is no room for them -/
  write_each : ∀ (vs : List α) dst swap,
    encodeSlice vs dst swap = (writeEach swap vs dst).map fun out => (out, vs.length * size α)
  /-- where there is room, what is written are the bytes of the words, and the rest of the destination stays -/
  write_eq : ∀ (vs : List α) dst swap, vs.length * size α ≤ dst.length → encodeSlice vs dst swap =
    some (vs.flatMap (bytes swap) ++ dst.drop (vs.length * size α), vs.length * size α)
  /-- with the swap, the bytes of each word are those without it, turned end for end -/
  write_swapped : ∀ (vs : List α) dst, vs.length * size α ≤ dst.length → ∃ plain swapped n,
    encodeSlice vs dst false = some (plain, n) ∧ encodeSlice vs dst true = some (swapped, n) ∧
      (∀ i < vs.length, (swapped.drop (i * size α)).take (size α) = ((plain.drop (i * size α)).take (size α)).reverse) ∧
      swapped.drop n = plain.drop n
  /-- reading a run comes to the same as reading its words one by one, also where they are not all there -/
  read_each : ∀ src n swap, (decodeSlice src n swap : Option (List α)) = readEach swap n src
  /-- a run is read back from where it was written -/
  read_written : ∀ (vs : List α) dst swap, vs.length * size α ≤ dst.length → ∃ out n,
    encodeSlice vs dst swap = some (out, n) ∧ decodeSlice out vs.length swap = some vs
  /-- any bytes that make up so many words are read, and are written back -/
  write_read : ∀ src n dst swap, src.length = n * size α → src.length ≤ dst.length → ∃ vs : List α,
    decodeSlice src n swap = some vs ∧ vs.length = n ∧
      encodeSlice vs dst swap = some (src ++ dst.drop src.length, src.length)

theorem bulkLawful (α : Type) [Fixed α] : BulkLawful α where
  write_each := encodeSlice_eq_writeEach
  write_eq vs dst swap h := by rw [encodeSlice_eq, if_pos h]
  write_swapped vs dst h := by
    have hlen : ∀ swap, (vs.flatMap (bytes swap)).length = vs.length * size α := fun swap => by
      rw [← run_eq_flatMap, length_run]
    refine ⟨_, _, _, by rw [encodeSlice_eq, if_pos h], by rw [encodeSlice_eq, if_pos h], fun i hi => ?_, ?_⟩
    · rw [piece_flatMap true vs _ hi, piece_flatMap false vs _ hi, bytes_true]
    · rw [List.drop_left' (hlen true), List.drop_left' (hlen false)]
  read_each := decodeSlice_eq_readEach
  read_written vs dst swap h := by
    refine ⟨_, _, by rw [encodeSlice_eq, if_pos h], ?_⟩
    rw [decodeSlice_eq_readEach, readEach_flatMap]
  write_read src n dst swap hsrc hdst := by
    obtain ⟨vs, hvs⟩ : ∃ vs : List α, readEach swap n src = some vs := by
      rw [readEach_eq, if_pos (Nat.le_of_eq hsrc.symm)]
      exact ⟨_, rfl⟩
    obtain ⟨hlen, hbytes⟩ := flatMap_of_readEach hvs
    refine ⟨vs, by rw [decodeSlice_eq_readEach, hvs], hlen, ?_⟩
    rw [encodeSlice_eq, hlen, ← hsrc, if_pos hdst, hbytes, ← hsrc, List.take_length]

end Fixed

/-! ## Truth values -/

theorem encodeBools_eq (vs : List Bool) (dst : Bytes) (h : vs.length ≤ dst.length) :
    encodeBools vs dst = (boolBytes vs ++ dst.drop vs.length, vs.length) := by
  have hl : (boolBytes vs).length = vs.length := List.length_map ..
  rw [encodeBools, List.take_of_length_le (by omega)]

/-- truth values are read back from their bytes, whatever comes behind them -/
theorem decodeBools_boolBytes (vs : List Bool) (rest : Bytes) : decodeBools (boolBytes vs ++ rest) vs.length = some vs := by
  have hl : (boolBytes vs).length = vs.length := List.length_map ..
  rw [decodeBools, List.length_append, if_pos (by omega), List.take_left' hl, boolBytes, List.map_map]
  refine congrArg some ((List.map_congr_left fun b _ => ?_).trans (List.map_id vs))
  cases b <;> decide

/-- what the bulk forms of truth values have to do -/
structure BoolsLawful : Prop where
  /-- they are written one byte each, and the rest of the destination stays -/
  write_eq : ∀ vs dst, vs.length ≤ dst.length → encodeBools vs dst = (boolBytes vs ++ dst.drop vs.length, vs.length)
  /-- they are read back from where they were written -/
  read_written : ∀ vs dst, vs.length ≤ dst.length → decodeBools (encodeBools vs dst).1 vs.length = some vs
  /-- any bytes are read, and those that are not zero, and no others, are true -/
  read_eq : ∀ src n, n ≤ src.length → ∃ vs, decodeBools src n = some vs ∧ vs.length = n ∧
    ∀ i b, i < n → src[i]? = some b → (vs[i]? = some true ↔ b ≠ 0)

theorem boolsLawful : BoolsLawful where
  write_eq := encodeBools_eq
  read_written vs dst h := by
    rw [encodeBools_eq vs dst h]
    exact decodeBools_boolBytes vs _
  read_eq src n h := by
    refine ⟨(src.take n).map fun b => b != 0, by rw [decodeBools, if_pos h], ?_, fun i b hi hb => ?_⟩
    · rw [List.length_map, List.length_take, Nat.min_eq_left h]
    · rw [List.getElem?_map, List.getElem?_take_of_lt hi, hb, Option.map_some, Option.some.injEq, bne_iff_ne]

/-- **The bulk forms do what the single forms do, and nothing is lost on the way.** This holds of words of every fixed
kind, floats among them by their bits, swapped or not, and on every destination and source. Truth values go one byte
each, and any byte but zero is true. -/
theorem bulk_as_single : (∀ (α : Type) [Fixed α], Fixed.BulkLawful α) ∧ BoolsLawful :=
  ⟨fun α _ => Fixed.bulkLawful α, boolsLawful⟩

/-- a signalling NaN and a negative zero, in front of a byte that stays -/
example : Fixed.encodeSlice [(⟨0x7fa00001⟩ : Single), ⟨0x80000000⟩] [1, 2, 3, 4, 5, 6, 7, 8, 9] true
      = some ([0x7f, 0xa0, 0, 1, 0x80, 0, 0, 0, 9], 8) ∧
    Fixed.decodeSlice [0x7f, 0xa0, 0, 1, 0x80, 0, 0, 0, 9] 2 true = some [(⟨0x7fa00001⟩ : Single), ⟨0x80000000⟩] := by
  decide

end Courier
