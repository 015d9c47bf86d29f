import Redex.Number.Parts

/-!
# Rounding to the nearest number

An exact ratio of natural numbers becomes the double nearest to it; of two that are equally near,
the one whose last bit is zero. Everything that makes a number out of exact arithmetic (reading a
numeral, integer procedures, scaling) goes through `ofRatio`.
-/

namespace Redex.Number

/-- `n / d` rounded to the nearest natural number, a half to the even neighbour. -/
def roundDiv (n d : Nat) : Nat :=
  let q := n / d
  let r := n % d
  if 2 * r < d then q
  else if d < 2 * r then q + 1
  else q + q % 2

/-- The ratio `num / den` divided by `2 ^ exponent`, as a ratio again. -/
def rescale (num den : Nat) (exponent : Int) : Nat × Nat :=
  if 0 ≤ exponent then (num, den * Nat.pow 2 exponent.toNat)
  else (num * Nat.pow 2 (-exponent).toNat, den)

/-- The exponent `k` with `2 ^ k ≤ num / den < 2 ^ (k + 1)`, for a positive ratio. -/
def floorLog2 (num den : Nat) : Int :=
  let k : Int := (num.log2 : Int) - den.log2
  let scaled := rescale num den k
  if scaled.1 < scaled.2 then k - 1 else k

/-- The bits of the double nearest to the positive ratio `num / den`. The last place is worth
`2 ^ e`, where `e` leaves 53 bits for the significand but is at least `-1074`; a significand that
rounds up to `2 ^ 53` carries into the exponent field by itself. -/
def ratioBits (num den : Nat) : Nat :=
  let e := max (floorLog2 num den - 52) (-1074)
  let scaled := rescale num den e
  min ((e + 1074).toNat * fieldUnit + roundDiv scaled.1 scaled.2) 0x7FF0000000000000

/-- The double of the given sign whose magnitude has the given bits. -/
def ofMagnitudeBits (negative : Bool) (bits : Nat) : Float :=
  Float.ofBits (UInt64.ofNat (if negative then signBit + bits else bits))

/-- The double nearest to `± num / den`; too large a ratio is an infinity, and zero keeps the
sign. -/
def ofRatio (negative : Bool) (num den : Nat) : Float :=
  ofMagnitudeBits negative (if num = 0 then 0 else ratioBits num den)

/-- The double nearest to `± mantissa · 2 ^ exponent`. Exponents that cannot give a finite
non-zero double are settled before a power is formed. -/
def ofScaled (negative : Bool) (mantissa : Nat) (exponent : Int) : Float :=
  if mantissa = 0 then ofRatio negative 0 1
  else if 1100 < exponent + mantissa.log2 then infinity negative
  else if exponent + mantissa.log2 < -1200 then ofRatio negative 0 1
  else if 0 ≤ exponent then ofRatio negative (mantissa * Nat.pow 2 exponent.toNat) 1
  else ofRatio negative mantissa (Nat.pow 2 (-exponent).toNat)

def ofInt (n : Int) : Float :=
  ofRatio (decide (n < 0)) n.natAbs 1

def ofNat (n : Nat) : Float :=
  ofRatio false n 1

end Redex.Number
