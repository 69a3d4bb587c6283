import Courier.Length

/-!
Numbers of fixed width, one at a time and in bulk.

A `Fixed` type is a machine word that travels as its base-256 digits, the lowest first, or all turned end for end
when `swap` says so. Floats are words too: they travel as their raw bits, so every NaN and every signed zero arrives as
it left. The bulk forms `encodeSlice` and `decodeSlice` move a whole run of words at once and swap in a second pass.
`none` stands for a buffer that is too short.

`value_bytes`: a word read from its own bytes is that word, swapped or not.
`bytes_value`: the bytes of the word read from `size` bytes are those bytes.
-/

namespace Courier

/-- a 32-bit float, as its raw bits -/
structure Single where
  bits : UInt32
  deriving DecidableEq

/-- a 64-bit float, as its raw bits -/
structure Double where
  bits : UInt64
  deriving DecidableEq

/-- words of `size` bytes, told apart by their number below `Bytes.span size` -/
class Fixed (α : Type) where
  size : Nat
  name : String
  toNat : α → Nat
  ofNat : Nat → α
  ofNat_toNat : ∀ a, ofNat (toNat a) = a
  toNat_ofNat : ∀ n, toNat (ofNat n) = n % Bytes.span size

instance : Fixed Int16 where
  size := 2
  name := "short"
  toNat v := v.toUInt16.toNat
  ofNat n := (UInt16.ofNat n).toInt16
  ofNat_toNat v := by simp
  toNat_ofNat n := by simp [Bytes.span]

instance : Fixed UInt16 where
  size := 2
  name := "char"
  toNat v := v.toNat
  ofNat n := UInt16.ofNat n
  ofNat_toNat v := by simp
  toNat_ofNat n := by simp [Bytes.span]

instance : Fixed Int32 where
  size := 4
  name := "int"
  toNat v := v.toUInt32.toNat
  ofNat n := (UInt32.ofNat n).toInt32
  ofNat_toNat v := by simp
  toNat_ofNat n := by simp [Bytes.span]

instance : Fixed Int64 where
  size := 8
  name := "long"
  toNat v := v.toUInt64.toNat
  ofNat n := (UInt64.ofNat n).toInt64
  ofNat_toNat v := by simp
  toNat_ofNat n := by simp [Bytes.span]

instance : Fixed UInt64 where
  size := 8
  name := "long"
  toNat v := v.toNat
  ofNat n := UInt64.ofNat n
  ofNat_toNat v := by simp
  toNat_ofNat n := by simp [Bytes.span]

instance : Fixed Single where
  size := 4
  name := "float"
  toNat v := v.bits.toNat
  ofNat n := ⟨UInt32.ofNat n⟩
  ofNat_toNat v := by simp
  toNat_ofNat n := by simp [Bytes.span]

instance : Fixed Double where
  size := 8
  name := "double"
  toNat v := v.bits.toNat
  ofNat n := ⟨UInt64.ofNat n⟩
  ofNat_toNat v := by simp
  toNat_ofNat n := by simp [Bytes.span]

namespace Fixed

variable {α : Type} [Fixed α]

/-- the bytes of a word -/
def bytes (swap : Bool) (v : α) : Bytes :=
  let ds := Bytes.digits (size α) (toNat v)
  if swap then ds.reverse else ds

/-- the word that these bytes are -/
def value (swap : Bool) (bs : Bytes) : α :=
  ofNat (Bytes.undigits (if swap then bs.reverse else bs))

/-- `dst` with a word written at its start -/
def writeFixed (dst : Bytes) (v : α) (swap : Bool) : Option Bytes :=
  dst.overwrite 0 (bytes swap v)

/-- the word at the start of `src` -/
def readFixed (src : Bytes) (swap : Bool) : Option α :=
  if size α ≤ src.length then some (value swap (src.take (size α))) else none

/-- the bytes of a run of words: all of them as they lie in memory, then each word swapped -/
def run (swap : Bool) (vs : List α) : Bytes :=
  let raw := vs.flatMap fun v => Bytes.digits (size α) (toNat v)
  if swap then Bytes.reverseRuns (size α) vs.length raw else raw

/-- the first `n` words that lie in `bs` as in memory -/
def words : Nat → Bytes → List α
  | 0, _ => []
  | n + 1, bs => ofNat (Bytes.undigits (bs.take (size α))) :: words n (bs.drop (size α))

/-- `dst` with a run of words written at its start, and the number of bytes written -/
def encodeSlice (vs : List α) (dst : Bytes) (swap : Bool) : Option (Bytes × Nat) :=
  let out := run swap vs
  (dst.overwrite 0 out).map fun d => (d, out.length)

/-- the `n` words at the start of `src`; no words at all need no bytes -/
def decodeSlice (src : Bytes) (n : Nat) (swap : Bool) : Option (List α) :=
  if n = 0 then some []
  else if n * size α ≤ src.length then
    let raw := src.take (n * size α)
    some (words n (if swap then Bytes.reverseRuns (size α) n raw else raw))
  else none

@[simp] theorem length_bytes (swap : Bool) (v : α) : (bytes swap v).length = size α := by
  cases swap <;> simp [bytes]

theorem value_bytes (swap : Bool) (v : α) : (value swap (bytes swap v) : α) = v := by
  have h : (ofNat (Bytes.undigits (Bytes.digits (size α) (toNat v))) : α) = v := by
    rw [Bytes.undigits_digits]
    have hn : toNat v % Bytes.span (size α) = toNat v := by
      have h := toNat_ofNat (α := α) (toNat v)
      rw [ofNat_toNat] at h
      exact h.symm
    rw [hn, ofNat_toNat]
  cases swap <;> simpa [value, bytes] using h

theorem bytes_value (swap : Bool) (bs : Bytes) (h : bs.length = size α) :
    bytes swap (value swap bs : α) = bs := by
  have key : ∀ cs : Bytes, cs.length = size α →
      Bytes.digits (size α) (toNat (ofNat (Bytes.undigits cs) : α)) = cs := by
    intro cs hc
    rw [toNat_ofNat, Nat.mod_eq_of_lt (by rw [← hc]; exact Bytes.undigits_lt cs), ← hc]
    exact Bytes.digits_undigits cs
  cases swap with
  | false => simpa [value, bytes] using key bs h
  | true => simp [value, bytes, key bs.reverse (by simpa using h)]

end Fixed

/-- the bytes of a run of truth values, one each -/
def boolBytes (vs : List Bool) : Bytes :=
  vs.map fun v => if v then 1 else 0

/-- `dst` with as many truth values written at its start as it has room for, and how many there were -/
def encodeBools (vs : List Bool) (dst : Bytes) : Bytes × Nat :=
  ((boolBytes vs).take dst.length ++ dst.drop vs.length, vs.length)

/-- the `n` truth values at the start of `src`: any byte but zero is true -/
def decodeBools (src : Bytes) (n : Nat) : Option (List Bool) :=
  if n ≤ src.length then some ((src.take n).map fun b => b != 0) else none

end Courier
