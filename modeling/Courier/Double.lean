import Courier.Fixed

/-!
Doubles from whole numbers and from narrower floats, bit for bit.

A whole number becomes the nearest double, and of two equally near ones the one with the even last bit. A narrower
float keeps its value; an infinity stays one, and a NaN keeps its sign and the high bits of its payload, with the
quiet bit set.
-/

namespace Courier.Double

/-- the raw bits of the double nearest to `n`: the leading 53 digits of `n` in base two, rounded -/
def bitsOfNat (n : Nat) : Nat :=
  if n = 0 then 0
  else
    let e := n.log2
    if e ≤ 52 then (e + 1022) <<< 52 + n <<< (52 - e)
    else
      let unit := 1 <<< (e - 52)
      let q := n / unit
      let r := n % unit
      let up := unit < 2 * r ∨ (unit = 2 * r ∧ q % 2 = 1)
      (e + 1022) <<< 52 + (if up then q + 1 else q)

/-- the double nearest to a whole number -/
def ofInt (v : Int) : Double :=
  ⟨UInt64.ofNat (bitsOfNat v.natAbs + if v < 0 then 1 <<< 63 else 0)⟩

/-- a narrower float as a double -/
def ofSingle (v : Single) : Double :=
  let n := v.bits.toNat
  let sign := n >>> 31
  let exponent := (n >>> 23) % 256
  let fraction := n % 1 <<< 23
  let magnitude :=
    if exponent = 255 then
      2047 <<< 52 + (if fraction = 0 then 0 else (fraction ||| 1 <<< 22) <<< 29)
    else if exponent = 0 then
      if fraction = 0 then 0
      else (fraction.log2 + 873) <<< 52 + fraction <<< (52 - fraction.log2)
    else (exponent + 896) <<< 52 + fraction <<< 29
  ⟨UInt64.ofNat (sign <<< 63 + magnitude)⟩

end Courier.Double
