/-!
Runs of bytes, as every module of this library handles them.

A buffer is a plain list of bytes. Two operations can run off its end, `overwrite` and `slice`, and both answer
`none` there: their callers decide whether that is a refusal or a stop. So does `allocate?`, where a fresh buffer would
be more than one allocation can hold. `digits` and `undigits` are the passage
between numbers and their base-256 digits, lowest first; `reverseRuns` turns equal runs end for end in place.

`undigits_digits`: reading back the first `n` digits of a number gives it modulo `span n`.
`digits_undigits`: the digits of what a run of bytes stands for are those bytes.
-/

namespace Courier

/-- a run of bytes -/
abbrev Bytes := List UInt8

/-- largest number of bytes that a single allocation may ask for -/
def maxAllocation : Nat := 0x7FFFFFFFFFFFFFFF

namespace Bytes

/-- `dst` with `src` written over it from `off` on; `none` when `src` would run past the end -/
def overwrite (dst : Bytes) (off : Nat) (src : Bytes) : Option Bytes :=
  if off + src.length ≤ dst.length then
    some (dst.take off ++ src ++ dst.drop (off + src.length))
  else
    none

/-- the bytes from `lo` up to `hi`; `none` unless `lo ≤ hi` and `hi` is within the run -/
def slice (bs : Bytes) (lo hi : Nat) : Option Bytes :=
  if lo ≤ hi ∧ hi ≤ bs.length then some ((bs.drop lo).take (hi - lo)) else none

/-- the `n` lowest base-256 digits of `v`, lowest first -/
def digits : Nat → Nat → Bytes
  | 0, _ => []
  | n + 1, v => UInt8.ofNat v :: digits n (v / 256)

/-- how many numbers `n` base-256 digits can tell apart -/
def span : Nat → Nat
  | 0 => 1
  | n + 1 => 256 * span n

/-- the number whose base-256 digits are these bytes, lowest first -/
def undigits : Bytes → Nat
  | [] => 0
  | b :: bs => b.toNat + 256 * undigits bs

/-- the first `k` runs of `n` bytes each, every run turned end for end -/
def reverseRuns (n : Nat) : Nat → Bytes → Bytes
  | 0, _ => []
  | k + 1, bs => (bs.take n).reverse ++ reverseRuns n k (bs.drop n)

/-- a fresh run of `n` bytes, each of them `b`; `none` when no allocation can hold it -/
def allocate? (n : Nat) (b : UInt8) : Option Bytes :=
  if n ≤ maxAllocation then some (List.replicate n b) else none

/-- `bs` enlarged with zeros to `n` bytes -/
def enlarge (bs : Bytes) (n : Nat) : Bytes :=
  bs ++ List.replicate (n - bs.length) 0

@[simp] theorem length_digits (n v : Nat) : (digits n v).length = n := by
  induction n generalizing v with
  | zero => rfl
  | succ n ih => simp [digits, ih]

theorem undigits_digits (n v : Nat) : undigits (digits n v) = v % span n := by
  induction n generalizing v with
  | zero => simp [digits, undigits, span, Nat.mod_one]
  | succ n ih =>
    simp only [digits, undigits, ih, UInt8.toNat_ofNat', Nat.reducePow]
    rw [span, Nat.mod_mul]

theorem undigits_lt (bs : Bytes) : undigits bs < span bs.length := by
  induction bs with
  | nil => simp [undigits, span]
  | cons b bs ih =>
    have := b.toNat_lt
    simp only [undigits, List.length_cons, span]
    omega

theorem digits_undigits (bs : Bytes) : digits bs.length (undigits bs) = bs := by
  induction bs with
  | nil => rfl
  | cons b bs ih =>
    have hb := b.toNat_lt
    have hd : (b.toNat + 256 * undigits bs) / 256 = undigits bs := by omega
    have hm : UInt8.ofNat (b.toNat + 256 * undigits bs) = b := by
      apply UInt8.toNat_inj.1
      simp only [UInt8.toNat_ofNat', Nat.reducePow]
      omega
    simp [undigits, digits, hd, hm, ih]

end Bytes

end Courier
