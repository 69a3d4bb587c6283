import Courier.Double
import Courier.Utf8

/-!
MessagePack documents and how they are written.

Every length and every whole number takes the shortest form there is; a whole number that is not negative takes an
unsigned one. A document is handed out piece by piece (`emission`), so that a part that cannot be written stops it
with everything in front of it already out.
-/

namespace Courier

inductive Pack where
  | nil
  | bool (b : Bool)
  | int (v : Int)
  | float32 (v : Single)
  | float64 (v : Double)
  | str (s : String)
  | bin (bs : Bytes)
  | array (xs : List Pack)
  | map (es : List (Pack × Pack))
  /-- stands for a part that refuses to be written -/
  | unwritable

/-- what a writer of documents hands out: pieces of output, and whether they are all there is -/
structure Emission where
  pieces : List Bytes
  complete : Bool
  deriving DecidableEq

namespace Emission

/-- a single piece -/
def piece (bs : Bytes) : Emission :=
  ⟨[bs], true⟩

/-- one emission after another, as long as the first is complete -/
def andThen (e f : Emission) : Emission :=
  if e.complete then ⟨e.pieces ++ f.pieces, f.complete⟩ else e

end Emission

namespace Pack

/-- the `n` lowest base-256 digits of `v`, highest first -/
def bigEndian (n v : Nat) : Bytes :=
  (Bytes.digits n v).reverse

/-- the shortest form of a whole number -/
def intBytes (v : Int) : Bytes :=
  if 0 ≤ v then
    let n := v.toNat
    if n < 0x80 then [UInt8.ofNat n]
    else if n < 0x100 then 0xCC :: bigEndian 1 n
    else if n < 0x10000 then 0xCD :: bigEndian 2 n
    else if n < 0x100000000 then 0xCE :: bigEndian 4 n
    else 0xCF :: bigEndian 8 n
  else
    let wrapped := fun k : Nat => (v % (Bytes.span k : Int)).toNat
    if -32 ≤ v then bigEndian 1 (wrapped 1)
    else if -0x80 ≤ v then 0xD0 :: bigEndian 1 (wrapped 1)
    else if -0x8000 ≤ v then 0xD1 :: bigEndian 2 (wrapped 2)
    else if -0x80000000 ≤ v then 0xD2 :: bigEndian 4 (wrapped 4)
    else 0xD3 :: bigEndian 8 (wrapped 8)

/-- the bytes in front of a text of `n` bytes -/
def strHead (n : Nat) : Bytes :=
  if n < 32 then [UInt8.ofNat (0xA0 + n)]
  else if n < 0x100 then 0xD9 :: bigEndian 1 n
  else if n < 0x10000 then 0xDA :: bigEndian 2 n
  else 0xDB :: bigEndian 4 n

/-- the bytes in front of a blob of `n` bytes -/
def binHead (n : Nat) : Bytes :=
  if n < 0x100 then 0xC4 :: bigEndian 1 n
  else if n < 0x10000 then 0xC5 :: bigEndian 2 n
  else 0xC6 :: bigEndian 4 n

/-- the bytes in front of an array of `n` elements -/
def arrayHead (n : Nat) : Bytes :=
  if n < 16 then [UInt8.ofNat (0x90 + n)]
  else if n < 0x10000 then 0xDC :: bigEndian 2 n
  else 0xDD :: bigEndian 4 n

/-- the bytes in front of a map of `n` entries -/
def mapHead (n : Nat) : Bytes :=
  if n < 16 then [UInt8.ofNat (0x80 + n)]
  else if n < 0x10000 then 0xDE :: bigEndian 2 n
  else 0xDF :: bigEndian 4 n

mutual

/-- a document, piece by piece -/
def emission : Pack → Emission
  | .nil => .piece [0xC0]
  | .bool b => .piece [if b then 0xC3 else 0xC2]
  | .int v => .piece (intBytes v)
  | .float32 v => .piece (0xCA :: bigEndian 4 v.bits.toNat)
  | .float64 v => .piece (0xCB :: bigEndian 8 v.bits.toNat)
  | .str s => ⟨[strHead s.utf8ByteSize, Utf8.encode s], true⟩
  | .bin bs => ⟨[binHead bs.length, bs], true⟩
  | .array xs => (Emission.piece (arrayHead xs.length)).andThen (emissions xs)
  | .map es => (Emission.piece (mapHead es.length)).andThen (entryEmissions es)
  | .unwritable => ⟨[], false⟩
termination_by structural p => p

/-- documents in a row -/
def emissions : List Pack → Emission
  | [] => ⟨[], true⟩
  | x :: xs => (emission x).andThen (emissions xs)
termination_by structural xs => xs

/-- entries in a row, each key in front of its value -/
def entryEmissions : List (Pack × Pack) → Emission
  | [] => ⟨[], true⟩
  | (k, v) :: es => (emission k).andThen ((emission v).andThen (entryEmissions es))
termination_by structural es => es

end

/-- `out` with the bytes of a document put behind it, unless some part of it cannot be written -/
def encodeOnto (out : Bytes) (p : Pack) : Except WireError Bytes :=
  let e := p.emission
  if e.complete then .ok (out ++ e.pieces.flatten) else .error .packEncode

/-- the bytes of a document, unless some part of it cannot be written -/
def encode (p : Pack) : Except WireError Bytes :=
  p.encodeOnto []

mutual

/-- equality of documents -/
def same : Pack → Pack → Bool
  | .nil, .nil => true
  | .bool a, .bool b => a == b
  | .int a, .int b => a == b
  | .float32 a, .float32 b => a == b
  | .float64 a, .float64 b => a == b
  | .str a, .str b => a == b
  | .bin a, .bin b => a == b
  | .array xs, .array ys => sameAll xs ys
  | .map es, .map fs => sameEntries es fs
  | .unwritable, .unwritable => true
  | _, _ => false
termination_by structural p => p

def sameAll : List Pack → List Pack → Bool
  | [], [] => true
  | x :: xs, y :: ys => same x y && sameAll xs ys
  | _, _ => false
termination_by structural xs => xs

def sameEntries : List (Pack × Pack) → List (Pack × Pack) → Bool
  | [], [] => true
  | (k, v) :: es, (l, w) :: fs => same k l && same v w && sameEntries es fs
  | _, _ => false
termination_by structural es => es

end

end Pack

end Courier
