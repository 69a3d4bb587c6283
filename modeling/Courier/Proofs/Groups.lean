import Courier.Frame
import Mathlib

/-!
The grammar of numbers of variable length.

A number on the wire is a row of groups: each byte but the last continues the row, the low seven bits of each are a
group, and the groups are the digits of the number, the lowest first. A reader takes a row of at most so many groups
and makes a value of the number, which it cuts to its width and shifts down by one; it tells a row that goes on for too
long from one that the bytes break off. A writer puts out the one row that has no group to spare.

`scan_eq_some_iff`, `scan_eq_none_iff`: a scan finds just the row at the start of the bytes, if it is short enough.
`length_groups`: the number of groups of a word follows from where its highest bit stands.
`length_groups_le_of_scan`: a number is written with no more groups than it was read with.
`forms_lawful`: the main result, for both widths.
`Frame.readInt_eq`, `Frame.readLong_eq`: the reads of a frame are those of the two widths.
-/

namespace Courier.Varint

/-! ## Rows of groups -/

/-- whether the row goes on behind this byte -/
def continues (b : UInt8) : Bool :=
  b &&& 0x80 != 0

/-- the group that a byte carries -/
def payload (b : UInt8) : Nat :=
  (b &&& 0x7F).toNat

/-- the number whose groups these bytes carry, the lowest first -/
def number : Bytes → Nat
  | [] => 0
  | b :: bs => payload b + 128 * number bs

/-- bytes of which all but the last continue the row -/
inductive Row : Bytes → Prop
  | last {b : UInt8} (h : continues b = false) : Row [b]
  | more {b : UInt8} {bs : Bytes} (h : continues b = true) (hs : Row bs) : Row (b :: bs)

theorem payload_eq (b : UInt8) : payload b = b.toNat % 128 := by
  rw [payload, UInt8.toNat_and]
  exact Nat.and_two_pow_sub_one_eq_mod b.toNat 7

theorem continues_iff (b : UInt8) : continues b = true ↔ 128 ≤ b.toNat := by
  have hand : (b &&& 0x80).toNat = 128 * (b.toNat / 128 % 2) := by
    rw [UInt8.toNat_and]
    change b.toNat &&& 2 ^ 7 = _
    rw [Nat.and_two_pow, Nat.toNat_testBit, Nat.mul_comm]
    rfl
  have hb := b.toNat_lt
  rw [continues, bne_iff_ne, ne_eq, ← UInt8.toNat_inj, hand]
  simp only [UInt8.toNat_ofNat]
  omega

theorem continues_eq_false_iff (b : UInt8) : continues b = false ↔ b < 0x80 := by
  rw [Bool.eq_false_iff, ne_eq, continues_iff, UInt8.lt_iff_toNat_lt, Nat.not_le]
  rfl

namespace Row

theorem length_pos {gs : Bytes} (h : Row gs) : 0 < gs.length := by
  cases h <;> exact Nat.succ_pos _

/-- the number of a row is one of those that its groups can tell apart -/
theorem number_lt {gs : Bytes} (h : Row gs) : number gs < span gs.length := by
  induction h with
  | @last b h =>
    simp only [number, payload_eq, List.length_singleton, span]
    omega
  | @more b bs h hs ih =>
    simp only [number, payload_eq, List.length_cons, span]
    omega

end Row

/-! ## Scanning -/

/-- **A scan finds the row at the start of the bytes**, if it has at most `n` groups. -/
theorem scan_eq_some_iff {n v k : Nat} {bs : Bytes} : scan n bs = some (v, k) ↔
    ∃ gs rest, bs = gs ++ rest ∧ Row gs ∧ gs.length ≤ n ∧ v = number gs ∧ k = gs.length := by
  induction n generalizing bs v k with
  | zero =>
    constructor
    · intro h
      cases h
    · rintro ⟨gs, rest, -, hrow, hlen, -, -⟩
      exact absurd hrow.length_pos (by omega)
  | succ n ih =>
    cases bs with
    | nil =>
      constructor
      · intro h
        cases h
      · rintro ⟨gs, rest, hbs, hrow, -, -, -⟩
        obtain ⟨rfl, -⟩ := List.append_eq_nil_iff.1 hbs.symm
        cases hrow
    | cons b bs =>
      rw [scan]
      by_cases hb : b < 0x80
      · -- the first byte ends the row
        have hend := (continues_eq_false_iff b).2 hb
        have hval : number [b] = b.toNat := by
          rw [UInt8.lt_iff_toNat_lt] at hb
          simp only [number, payload_eq]
          exact Nat.mod_eq_of_lt hb
        rw [if_pos hb]
        constructor
        · intro h
          obtain ⟨rfl, rfl⟩ := Prod.mk.inj (Option.some.inj h)
          exact ⟨[b], bs, rfl, .last hend, Nat.succ_le_succ (Nat.zero_le n), hval.symm, rfl⟩
        · rintro ⟨gs, rest, hbs, hrow, -, rfl, rfl⟩
          cases hrow with
          | last _ =>
            obtain ⟨rfl, rfl⟩ := List.cons.inj hbs
            rw [hval]
            rfl
          | more h _ =>
            obtain ⟨rfl, -⟩ := List.cons.inj hbs
            rw [hend] at h
            cases h
      · -- the first byte carries the lowest group
        have hmore : continues b = true := by
          rw [← Bool.not_eq_false, continues_eq_false_iff]
          exact hb
        have hval : ∀ gs, number (b :: gs) = b.toNat - 128 + 128 * number gs := by
          have h128 := (continues_iff b).1 hmore
          have hlt := b.toNat_lt
          intro gs
          simp only [number, payload_eq]
          omega
        rw [if_neg hb, Option.map_eq_some_iff]
        constructor
        · rintro ⟨⟨w, j⟩, hw, hwj⟩
          obtain ⟨rfl, rfl⟩ := Prod.mk.inj hwj
          obtain ⟨gs, rest, rfl, hrow, hlen, rfl, rfl⟩ := ih.1 hw
          exact ⟨b :: gs, rest, rfl, .more hmore hrow, Nat.succ_le_succ hlen, (hval gs).symm, rfl⟩
        · rintro ⟨gs, rest, hbs, hrow, hlen, rfl, rfl⟩
          cases hrow with
          | last h =>
            obtain ⟨rfl, -⟩ := List.cons.inj hbs
            rw [hmore] at h
            cases h
          | @more c gs _ hrow =>
            obtain ⟨rfl, rfl⟩ := List.cons.inj hbs
            refine ⟨(number gs, gs.length), ?_, by rw [hval]; rfl⟩
            exact ih.2 ⟨gs, rest, rfl, hrow, Nat.le_of_succ_le_succ hlen, rfl, rfl⟩

/-- **A scan finds nothing** where the first `n` bytes all continue the row. -/
theorem scan_eq_none_iff {n : Nat} {bs : Bytes} : scan n bs = none ↔ ∀ b ∈ bs.take n, continues b = true := by
  induction n generalizing bs with
  | zero => simp [scan]
  | succ n ih =>
    cases bs with
    | nil => simp [scan]
    | cons b bs =>
      rw [scan, List.take_succ_cons, List.forall_mem_cons]
      by_cases hb : b < 0x80
      · rw [if_pos hb, (continues_eq_false_iff b).2 hb]
        simp
      · have hmore : continues b = true := by
          rw [← Bool.not_eq_false, continues_eq_false_iff]
          exact hb
        rw [if_neg hb, Option.map_eq_none_iff, ih]
        simp [hmore]

/-! ## Writing -/

theorem length_groups_pos (n v : Nat) : 0 < (groups n v).length := by
  cases n with
  | zero => exact Nat.one_pos
  | succ n =>
    rw [groups]
    split <;> exact Nat.succ_pos _

theorem groupCount_of_lt {v : Nat} (h : v < 128) : groupCount v = 1 := by
  have hlog : v ≠ 0 → v.log2 < 7 := fun h0 => (Nat.log2_lt h0).2 h
  unfold groupCount
  split
  · rfl
  · have := hlog (by assumption)
    omega

theorem groupCount_div {v : Nat} (h : 128 ≤ v) : groupCount v = groupCount (v / 128) + 1 := by
  have hq : v / 128 ≠ 0 := by omega
  have hv : v ≠ 0 := by omega
  have hlog : v.log2 = (v / 128).log2 + 7 := by
    obtain ⟨hlo, hhi⟩ := (Nat.log2_eq_iff hq).1 (Eq.refl (v / 128).log2)
    rw [Nat.log2_eq_iff hv]
    simp only [Nat.pow_add, Nat.reducePow] at hlo hhi ⊢
    omega
  rw [groupCount, groupCount, if_neg hv, if_neg hq, hlog]
  omega

/-- **The number of groups of a word**: one for every seven bits, and one at least. -/
theorem length_groups {n v : Nat} (h : v < span (n + 1)) : (groups n v).length = groupCount v := by
  induction n generalizing v with
  | zero =>
    have hv : v < 128 := by simpa [span] using h
    rw [groupCount_of_lt hv]
    rfl
  | succ n ih =>
    rw [groups]
    split
    · rename_i hv
      rw [groupCount_of_lt hv]
      rfl
    · rename_i hv
      rw [span] at h
      rw [List.length_cons, ih (Nat.div_lt_of_lt_mul h), groupCount_div (Nat.not_lt.1 hv)]

/-- a number that `k` groups can tell apart takes `k` groups at most -/
theorem length_groups_le_of_lt {n v k : Nat} (hk : 0 < k) (hv : v < span k) : (groups n v).length ≤ k := by
  induction n generalizing v k with
  | zero => exact hk
  | succ n ih =>
    rw [groups]
    split
    · exact hk
    · rename_i h128
      obtain ⟨k, rfl⟩ := Nat.exists_eq_succ_of_ne_zero (Nat.ne_of_gt hk)
      rw [span] at hv
      have hk' : 0 < k := by
        rcases Nat.eq_zero_or_pos k with rfl | hk'
        · rw [span] at hv
          omega
        · exact hk'
      exact Nat.succ_le_succ (ih hk' (Nat.div_lt_of_lt_mul hv))

/-- a number is written with no more groups than it was read with, also where high groups fall off the word -/
theorem length_groups_le_of_scan {n m v w k : Nat} {bs : Bytes} (h : scan n bs = some (v, k)) (hw : w ≤ v) :
    (groups m w).length ≤ k := by
  obtain ⟨gs, rest, -, hrow, -, rfl, rfl⟩ := scan_eq_some_iff.1 h
  exact length_groups_le_of_lt hrow.length_pos (Nat.lt_of_le_of_lt hw hrow.number_lt)

/-! ## Values and the words that stand for them -/

theorem unbias_bias32 (v : Int32) : unbias32 (bias32 v) = v := by
  rw [unbias32, bias32, UInt32.ofNat_toNat, UInt32.toInt32, Int32.toUInt32]
  exact Int32.add_sub_cancel v 1

theorem unbias_bias64 (v : Int64) : unbias64 (bias64 v) = v := by
  rw [unbias64, bias64, UInt64.ofNat_toNat]
  exact Int64.add_sub_cancel v 1

theorem bias_unbias32 (n : Nat) : bias32 (unbias32 n) = n % 2 ^ 32 := by
  simp [bias32, unbias32]

theorem bias_unbias64 (n : Nat) : bias64 (unbias64 n) = n % 2 ^ 64 := by
  simp [bias64, unbias64]

theorem bias32_lt (v : Int32) : bias32 v < span 5 := by
  have := (v + 1).toUInt32.toNat_lt
  simp only [bias32, span]
  omega

theorem bias64_lt (v : Int64) : bias64 v < span 10 := by
  have := (v + 1).toUInt64.toNat_lt
  simp only [bias64, span]
  omega

/-! ## The two widths -/

/-- how the values of one width travel -/
structure Form (α : Type) where
  /-- most groups that a reader takes -/
  most : Nat
  encode : α → Bytes
  encodedLength : α → Nat
  decode : Bytes → Except WireError (α × Nat)
  /-- writes a value at the start of some bytes -/
  write : Bytes → α → Option Bytes
  /-- what a number stands for: it is cut to the width, and one is taken off, wrapping -/
  value : Nat → α

def form32 : Form Int32 :=
  ⟨maxVarint32, encode32, encodedLength32, decode32, write32, fun n => Int32.ofNat n - 1⟩

def form64 : Form Int64 :=
  ⟨maxVarint64, encode64, encodedLength64, decode64, write64, fun n => Int64.ofNat n - 1⟩

/-- the rules of a width -/
structure Form.Lawful {α : Type} (f : Form α) : Prop where
  /-- a value takes as many bytes as foretold -/
  length_encode : ∀ v, (f.encode v).length = f.encodedLength v
  /-- that is one at least, and no more than a reader takes -/
  encodedLength_mem : ∀ v, 1 ≤ f.encodedLength v ∧ f.encodedLength v ≤ f.most
  /-- these bytes and no others are written, if there is room for them -/
  write_eq : ∀ dst v, f.write dst v =
    if f.encodedLength v ≤ dst.length then some (f.encode v ++ dst.drop (f.encodedLength v)) else none
  /-- a value is read back, whatever comes behind it -/
  decode_encode : ∀ v x, f.decode (f.encode v ++ x) = .ok (v, f.encodedLength v)
  /-- what is read is the row at the start of the bytes, up to the byte that ends it -/
  decode_eq_ok_iff : ∀ bs v n, f.decode bs = .ok (v, n) ↔
    ∃ gs rest, bs = gs ++ rest ∧ Row gs ∧ gs.length ≤ f.most ∧ v = f.value (number gs) ∧ n = gs.length
  /-- something is read just where one of the bytes that a reader takes ends the row -/
  accepts_iff : ∀ bs, (∃ v n, f.decode bs = .ok (v, n)) ↔ ∃ b ∈ bs.take f.most, continues b = false
  /-- a row is malformed if all the bytes are there that a reader takes, and none of them ends it -/
  malformed_iff : ∀ bs, f.decode bs = .error .malformedVarint ↔
    f.most ≤ bs.length ∧ ∀ b ∈ bs.take f.most, continues b = true
  /-- it breaks off if there are fewer bytes, and none of them ends it -/
  underflow_iff : ∀ bs, f.decode bs = .error (.bufferUnderflow 0 (bs.length + 1) bs.length) ↔
    bs.length < f.most ∧ ∀ b ∈ bs, continues b = true
  /-- nothing else goes wrong -/
  refusals : ∀ bs e, f.decode bs = .error e →
    e = .malformedVarint ∨ e = .bufferUnderflow 0 (bs.length + 1) bs.length
  /-- no row that stands for a value is shorter than the one that is written for it -/
  shortest : ∀ bs v n, f.decode bs = .ok (v, n) → f.encodedLength v ≤ n

namespace Form.Lawful

variable {α : Type} {f : Form α} {bs : Bytes} {v : α} {n : Nat}

/-- a number takes a byte at least, and no more than there are -/
theorem length_of_decode (h : f.Lawful) (hd : f.decode bs = .ok (v, n)) : 0 < n ∧ n ≤ bs.length := by
  obtain ⟨gs, rest, rfl, hrow, -, -, rfl⟩ := (h.decode_eq_ok_iff _ _ _).1 hd
  rw [List.length_append]
  exact ⟨hrow.length_pos, Nat.le_add_right ..⟩

/-- a number that ends is the same number with more bytes behind it -/
theorem decode_append (h : f.Lawful) (hd : f.decode bs = .ok (v, n)) (more : Bytes) :
    f.decode (bs ++ more) = .ok (v, n) := by
  obtain ⟨gs, rest, rfl, hrow, hlen, hv, hn⟩ := (h.decode_eq_ok_iff _ _ _).1 hd
  exact (h.decode_eq_ok_iff _ _ _).2 ⟨gs, rest ++ more, List.append_assoc .., hrow, hlen, hv, hn⟩

end Form.Lawful

/-- a width whose values travel as the groups of words -/
structure Form.Grouped {α : Type} (f : Form α) (last : Nat) (bias : α → Nat) : Prop where
  most : f.most = last + 1
  encode : ∀ v, f.encode v = groups last (bias v)
  encodedLength : ∀ v, f.encodedLength v = groupCount (bias v)
  decode : ∀ bs, f.decode bs = (Varint.decode f.most bs).map fun (n, k) => (f.value n, k)
  write : ∀ dst v, f.write dst v = dst.overwrite 0 (f.encode v)
  /-- the words are few enough for the groups -/
  bias_lt : ∀ v, bias v < span (last + 1)
  value_bias : ∀ v, f.value (bias v) = v
  /-- cutting a number to the width makes it no larger -/
  bias_value_le : ∀ n, bias (f.value n) ≤ n

namespace Form.Grouped

variable {α : Type} {f : Form α} {last : Nat} {bias : α → Nat} (h : f.Grouped last bias)

include h

theorem length_encode (v : α) : (f.encode v).length = f.encodedLength v := by
  rw [h.encode, h.encodedLength, length_groups (h.bias_lt v)]

/-- reading is scanning, and telling why nothing was found -/
theorem decode_eq (bs : Bytes) : f.decode bs = match scan f.most bs with
    | some (n, k) => .ok (f.value n, k)
    | none => if f.most ≤ bs.length then .error .malformedVarint
      else .error (.bufferUnderflow 0 (bs.length + 1) bs.length) := by
  rw [h.decode, Varint.decode]
  cases scan f.most bs with
  | some r => rfl
  | none =>
    dsimp only
    split <;> rfl

theorem decode_eq_ok_iff_scan (bs : Bytes) (v : α) (n : Nat) :
    f.decode bs = .ok (v, n) ↔ ∃ w, scan f.most bs = some (w, n) ∧ v = f.value w := by
  rw [h.decode_eq]
  cases scan f.most bs with
  | some r =>
    obtain ⟨w, k⟩ := r
    constructor
    · intro hok
      obtain ⟨rfl, rfl⟩ := Prod.mk.inj (Except.ok.inj hok)
      exact ⟨w, rfl, rfl⟩
    · rintro ⟨w', hs, rfl⟩
      obtain ⟨rfl, rfl⟩ := Prod.mk.inj (Option.some.inj hs)
      rfl
  | none =>
    constructor
    · intro hok
      dsimp only at hok
      split at hok <;> cases hok
    · rintro ⟨w, hs, -⟩
      cases hs

/-- why a read is refused: no byte that the reader takes ends the row, and there are enough of them or too few -/
theorem decode_eq_error_iff (bs : Bytes) (e : WireError) : f.decode bs = .error e ↔
    (∀ b ∈ bs.take f.most, continues b = true) ∧
      e = if f.most ≤ bs.length then .malformedVarint else .bufferUnderflow 0 (bs.length + 1) bs.length := by
  rw [h.decode_eq, ← scan_eq_none_iff]
  cases scan f.most bs with
  | some r =>
    constructor
    · intro herr
      cases herr
    · rintro ⟨hs, -⟩
      cases hs
  | none =>
    dsimp only
    split
    · constructor
      · intro herr
        exact ⟨rfl, (Except.error.inj herr).symm⟩
      · rintro ⟨-, rfl⟩
        rfl
    · constructor
      · intro herr
        exact ⟨rfl, (Except.error.inj herr).symm⟩
      · rintro ⟨-, rfl⟩
        rfl

theorem decode_encode (v : α) (x : Bytes) : f.decode (f.encode v ++ x) = .ok (v, f.encodedLength v) := by
  have hs : scan f.most (f.encode v ++ x) = some (bias v, f.encodedLength v) := by
    rw [h.most, ← h.length_encode, h.encode]
    exact scan_groups last (bias v) x (h.bias_lt v)
  exact (h.decode_eq_ok_iff_scan ..).2 ⟨bias v, hs, (h.value_bias v).symm⟩

theorem decode_eq_ok_iff (bs : Bytes) (v : α) (n : Nat) : f.decode bs = .ok (v, n) ↔
    ∃ gs rest, bs = gs ++ rest ∧ Row gs ∧ gs.length ≤ f.most ∧ v = f.value (number gs) ∧ n = gs.length := by
  rw [h.decode_eq_ok_iff_scan]
  constructor
  · rintro ⟨w, hs, rfl⟩
    obtain ⟨gs, rest, hbs, hrow, hmax, rfl, rfl⟩ := scan_eq_some_iff.1 hs
    exact ⟨gs, rest, hbs, hrow, hmax, rfl, rfl⟩
  · rintro ⟨gs, rest, hbs, hrow, hmax, rfl, rfl⟩
    exact ⟨number gs, scan_eq_some_iff.2 ⟨gs, rest, hbs, hrow, hmax, rfl, rfl⟩, rfl⟩

theorem accepts_iff (bs : Bytes) : (∃ v n, f.decode bs = .ok (v, n)) ↔ ∃ b ∈ bs.take f.most, continues b = false := by
  cases hd : f.decode bs with
  | ok r =>
    have hne : scan f.most bs ≠ none := by
      intro hs
      rw [h.decode_eq, hs] at hd
      dsimp only at hd
      split at hd <;> cases hd
    rw [ne_eq, scan_eq_none_iff] at hne
    obtain ⟨b, hne⟩ := not_forall.1 hne
    obtain ⟨hb, hlast⟩ := Classical.not_imp.1 hne
    exact iff_of_true ⟨r.1, r.2, rfl⟩ ⟨b, hb, Bool.eq_false_of_not_eq_true hlast⟩
  | error e =>
    have hall := ((h.decode_eq_error_iff bs e).1 hd).1
    refine iff_of_false (fun ⟨v, n, hok⟩ => by cases hok) fun ⟨b, hb, hlast⟩ => ?_
    rw [hall b hb] at hlast
    cases hlast

theorem malformed_iff (bs : Bytes) : f.decode bs = .error .malformedVarint ↔
    f.most ≤ bs.length ∧ ∀ b ∈ bs.take f.most, continues b = true := by
  rw [h.decode_eq_error_iff, and_comm]
  refine and_congr_left fun _ => ?_
  by_cases hm : f.most ≤ bs.length
  · rw [if_pos hm]
    exact iff_of_true rfl hm
  · rw [if_neg hm]
    exact iff_of_false (fun he => by cases he) hm

theorem underflow_iff (bs : Bytes) : f.decode bs = .error (.bufferUnderflow 0 (bs.length + 1) bs.length) ↔
    bs.length < f.most ∧ ∀ b ∈ bs, continues b = true := by
  rw [h.decode_eq_error_iff]
  by_cases hm : f.most ≤ bs.length
  · rw [if_pos hm]
    exact iff_of_false (fun ⟨_, he⟩ => by cases he) fun ⟨hlt, _⟩ => absurd hm (Nat.not_le.2 hlt)
  · rw [if_neg hm, List.take_of_length_le (Nat.le_of_lt (Nat.not_le.1 hm))]
    exact ⟨fun ⟨hall, _⟩ => ⟨Nat.not_le.1 hm, hall⟩, fun ⟨_, hall⟩ => ⟨hall, rfl⟩⟩

/-- what has been read takes no more bytes when it is written -/
theorem length_encode_le {bs : Bytes} {v : α} {n : Nat} (hd : f.decode bs = .ok (v, n)) : (f.encode v).length ≤ n := by
  obtain ⟨w, hs, rfl⟩ := (h.decode_eq_ok_iff_scan bs v n).1 hd
  rw [h.encode]
  exact length_groups_le_of_scan hs (h.bias_value_le w)

theorem lawful : f.Lawful where
  length_encode := h.length_encode
  encodedLength_mem v := by
    rw [← h.length_encode, h.encode, h.most]
    exact ⟨length_groups_pos .., length_groups_le ..⟩
  write_eq dst v := by
    rw [h.write, Bytes.overwrite, Nat.zero_add, h.length_encode, List.take_zero, List.nil_append]
  decode_encode := h.decode_encode
  decode_eq_ok_iff := h.decode_eq_ok_iff
  accepts_iff := h.accepts_iff
  malformed_iff := h.malformed_iff
  underflow_iff := h.underflow_iff
  refusals bs e he := by
    obtain ⟨-, rfl⟩ := (h.decode_eq_error_iff bs e).1 he
    split
    · exact .inl rfl
    · exact .inr rfl
  shortest bs v n hd := by
    rw [← h.length_encode]
    exact h.length_encode_le hd

end Form.Grouped

theorem grouped32 : form32.Grouped 4 bias32 where
  most := rfl
  encode _ := rfl
  encodedLength _ := rfl
  decode _ := rfl
  write _ _ := rfl
  bias_lt := bias32_lt
  value_bias := unbias_bias32
  bias_value_le n := (bias_unbias32 n).trans_le (Nat.mod_le ..)

theorem grouped64 : form64.Grouped 9 bias64 where
  most := rfl
  encode _ := rfl
  encodedLength _ := rfl
  decode _ := rfl
  write _ _ := rfl
  bias_lt := bias64_lt
  value_bias := unbias_bias64
  bias_value_le n := (bias_unbias64 n).trans_le (Nat.mod_le ..)

/-- **Numbers of both widths keep the rules of the wire.** What is written is as long as foretold and is read back,
whatever comes behind it; what is read is the row of groups at the start of the bytes, if a byte ends it within five
bytes, or within ten; and no row that stands for a value is shorter than the one written for it. -/
theorem forms_lawful : form32.Lawful ∧ form64.Lawful :=
  ⟨grouped32.lawful, grouped64.lawful⟩

/-- a number with groups to spare, its last one outside the word, is the value that takes one byte -/
example : decode32 [0x82, 0x80, 0x80, 0x80, 0x70, 0xff] = .ok (1, 5) ∧ encode32 1 = [0x02] := by decide

end Courier.Varint

/-! ## In a frame -/

namespace Courier.Frame

/-- a number of that width, and the frame after it -/
def readForm {α : Type} (form : Varint.Form α) (f : Frame) : Except WireError (α × Frame) :=
  match form.decode (f.peek form.most) with
  | .ok (v, n) => .ok (v, f.setPosition (f.position + n))
  | .error e => .error (f.locate e)

theorem readInt_eq : readInt = readForm Varint.form32 := by
  funext f
  have hd : Varint.form32.decode (f.peek Varint.form32.most) = Varint.decode32 (f.peek maxVarint32) := rfl
  rw [readInt, readForm, hd]
  cases Varint.decode32 (f.peek maxVarint32) <;> rfl

theorem readLong_eq : readLong = readForm Varint.form64 := by
  funext f
  have hd : Varint.form64.decode (f.peek Varint.form64.most) = Varint.decode64 (f.peek maxVarint64) := rfl
  rw [readLong, readForm, hd]
  cases Varint.decode64 (f.peek maxVarint64) <;> rfl

theorem readForm_ok {α : Type} {form : Varint.Form α} {f g : Frame} {v : α} (h : f.readForm form = .ok (v, g)) :
    ∃ n, form.decode (f.peek form.most) = .ok (v, n) ∧ g = f.setPosition (f.position + n) := by
  unfold readForm at h
  split at h
  · rename_i w n hd
    obtain ⟨rfl, rfl⟩ := Prod.mk.inj (Except.ok.inj h)
    exact ⟨n, hd, rfl⟩
  · cases h

end Courier.Frame
