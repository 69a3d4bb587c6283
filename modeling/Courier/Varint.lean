import Courier.Length

/-!
Integers of variable length.

A value is shifted up by one, so that `-1` is the shortest of all, and the word that results is cut into groups of
seven bits, lowest first; every group but the last carries `0x80`. The shift wraps: the largest value takes the place
of the smallest. At most five groups make a word of 32 bits and ten a word of 64, and a reader takes no more than
that; it accepts longer forms than the writer's, whose high groups are zero or fall off the word.

`length_groups_le`: the writer never emits more than its number of groups.
`scan_groups`: scanning what the writer emitted gives the word back, whatever follows.
-/

namespace Courier.Varint

/-- the groups of `v`, at most `n + 1` of them -/
def groups : Nat → Nat → Bytes
  | 0, v => [UInt8.ofNat v]
  | n + 1, v =>
    if v < 128 then [UInt8.ofNat v] else UInt8.ofNat (v % 128 + 128) :: groups n (v / 128)

/-- how many numbers `n` groups can tell apart -/
def span : Nat → Nat
  | 0 => 1
  | n + 1 => 128 * span n

/-- the number at the start of `bs` and how many bytes it took, if it ends within `n` groups -/
def scan : Nat → Bytes → Option (Nat × Nat)
  | 0, _ => none
  | _ + 1, [] => none
  | n + 1, b :: bs =>
    if b < 0x80 then some (b.toNat, 1)
    else (scan n bs).map fun (v, k) => (b.toNat - 128 + 128 * v, k + 1)

/-- the number at the start of `bs`, of at most `n` groups; where none ends, either too many groups go on or the
bytes end too early -/
def decode (n : Nat) (bs : Bytes) : Except WireError (Nat × Nat) :=
  match scan n bs with
  | some r => .ok r
  | none =>
    if n ≤ bs.length then .error .malformedVarint
    else .error (.bufferUnderflow 0 (bs.length + 1) bs.length)

/-- number of groups of a word -/
def groupCount (v : Nat) : Nat :=
  ((if v = 0 then 1 else v.log2 + 1) + 6) / 7

/-- the word that stands for a value of 32 bits -/
def bias32 (v : Int32) : Nat :=
  (v + 1).toUInt32.toNat

/-- the word that stands for a value of 64 bits -/
def bias64 (v : Int64) : Nat :=
  (v + 1).toUInt64.toNat

/-- the value that a word of 32 bits stands for -/
def unbias32 (n : Nat) : Int32 :=
  (UInt32.ofNat n).toInt32 - 1

/-- the value that a word of 64 bits stands for -/
def unbias64 (n : Nat) : Int64 :=
  (UInt64.ofNat n).toInt64 - 1

/-- the bytes of a value of 32 bits -/
def encode32 (v : Int32) : Bytes :=
  groups 4 (bias32 v)

/-- the bytes of a value of 64 bits -/
def encode64 (v : Int64) : Bytes :=
  groups 9 (bias64 v)

/-- how many bytes a value of 32 bits takes -/
def encodedLength32 (v : Int32) : Nat :=
  groupCount (bias32 v)

/-- how many bytes a value of 64 bits takes -/
def encodedLength64 (v : Int64) : Nat :=
  groupCount (bias64 v)

/-- the value of 32 bits at the start of `bs`, and how many bytes it took -/
def decode32 (bs : Bytes) : Except WireError (Int32 × Nat) :=
  (decode maxVarint32 bs).map fun (v, k) => (unbias32 v, k)

/-- the value of 64 bits at the start of `bs`, and how many bytes it took -/
def decode64 (bs : Bytes) : Except WireError (Int64 × Nat) :=
  (decode maxVarint64 bs).map fun (v, k) => (unbias64 v, k)

/-- `dst` with the bytes of a value of 32 bits written at its start -/
def write32 (dst : Bytes) (v : Int32) : Option Bytes :=
  dst.overwrite 0 (encode32 v)

/-- `dst` with the bytes of a value of 64 bits written at its start -/
def write64 (dst : Bytes) (v : Int64) : Option Bytes :=
  dst.overwrite 0 (encode64 v)

theorem length_groups_le (n v : Nat) : (groups n v).length ≤ n + 1 := by
  induction n generalizing v with
  | zero => simp [groups]
  | succ n ih =>
    simp only [groups]
    split
    · simp
    · simpa using ih (v / 128)

theorem scan_groups (n v : Nat) (rest : Bytes) (h : v < span (n + 1)) :
    scan (n + 1) (groups n v ++ rest) = some (v, (groups n v).length) := by
  induction n generalizing v with
  | zero =>
    have hv : v < 128 := by simpa [span] using h
    have hb : (UInt8.ofNat v).toNat = v := by simp; omega
    have hl : UInt8.ofNat v < 0x80 := by rw [UInt8.lt_iff_toNat_lt, hb]; simpa using hv
    simp [groups, scan, hl, hb]
  | succ n ih =>
    by_cases hv : v < 128
    · have hb : (UInt8.ofNat v).toNat = v := by simp; omega
      have hl : UInt8.ofNat v < 0x80 := by rw [UInt8.lt_iff_toNat_lt, hb]; simpa using hv
      simp [groups, scan, hv, hl, hb]
    · have hb : (UInt8.ofNat (v % 128 + 128)).toNat = v % 128 + 128 := by simp; omega
      have hl : ¬ UInt8.ofNat (v % 128 + 128) < 0x80 := by
        rw [UInt8.lt_iff_toNat_lt, hb]
        simp
      have hq : v / 128 < span (n + 1) := by
        rw [span] at h
        exact Nat.div_lt_of_lt_mul h
      simp only [groups, hv, if_false, List.cons_append, scan, hl, ih (v / 128) hq, Option.map_some, hb,
        List.length_cons, Option.some.injEq, Prod.mk.injEq, and_true]
      omega

end Courier.Varint
