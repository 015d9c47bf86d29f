import Redex.Number.Integer

/-!
# Exact functions on doubles

Functions whose result follows from the parts of a double by integer arithmetic: taking a double
apart, scaling it, its neighbours, and remainders. What has no result is `nan`.
-/

namespace Redex.Number

/-- Both zeros become the positive zero; every other number stays. -/
def dropZeroSign (x : Float) : Float :=
  x + 0.0

def copySign (x y : Float) : Float :=
  if isNegative x == isNegative y then x else -x

/-- The greatest integer at most `x`, for a finite `x`. -/
def floorInt? (x : Float) : Option Int :=
  match parts x with
  | .finite negative mantissa exponent =>
    let n := signed negative mantissa
    some (if 0 ≤ exponent then n * Int.ofNat (Nat.pow 2 exponent.toNat)
      else n.fdiv (Int.ofNat (Nat.pow 2 (-exponent).toNat)))
  | _ => none

/-- The least integer at least `x`, for a finite `x`. -/
def ceilInt? (x : Float) : Option Int :=
  (floorInt? (-x)).map fun n => -n

/-- `x` without its fraction, for a finite `x`. -/
def truncInt? (x : Float) : Option Int :=
  if isNegative x then ceilInt? x else floorInt? x

/-- A rounded integer as a number; what has no integer is `nan`. -/
def ofInt? (n : Option Int) : Float :=
  (n.map ofInt).getD nan

/-- The factor in `[1/2, 1)` and the exponent with `x = factor · 2 ^ exponent`. A zero, an
infinity and `nan` are their own factor. -/
def splitExponent (x : Float) : Float × Int :=
  match parts x with
  | .finite negative mantissa exponent =>
    if mantissa = 0 then (x, 0)
    else
      let bits : Int := mantissa.log2 + 1
      (ofScaled negative mantissa (-bits), exponent + bits)
  | _ => (x, 0)

/-- The fraction and the integral part of `x`, both with the sign of `x`. -/
def splitFraction (x : Float) : Float × Float :=
  match parts x with
  | .nan => (x, x)
  | .infinite negative => (ofRatio negative 0 1, x)
  | .finite negative mantissa exponent =>
    if 0 ≤ exponent then (ofRatio negative 0 1, x)
    else
      let unit := Nat.pow 2 (-exponent).toNat
      (ofRatio negative (mantissa % unit) unit, ofRatio negative (mantissa / unit) 1)

/-- `x · 2 ^ exponent`; a result beyond the range is `nan`. -/
def scaleByPower (x : Float) (exponent : Int) : Float :=
  match parts x with
  | .finite negative mantissa e =>
    let r := ofScaled negative mantissa (e + exponent)
    if r.isInf then nan else r
  | _ => x

def nextAfter (x y : Float) : Float :=
  if x.isNaN || y.isNaN then nan
  else if x == y then y
  else if x == 0.0 then ofMagnitudeBits (isNegative y) 1
  else
    let bits := x.toBits.toNat
    Float.ofBits (UInt64.ofNat (if (x < y) == !isNegative x then bits + 1 else bits - 1))

/-- The distance from `|x|` to the next larger number, or for the largest number to the next
smaller one. -/
def unitInLastPlace (x : Float) : Float :=
  let a := x.abs
  if a.isNaN || a.isInf then a
  else
    let above := nextAfter a (infinity false)
    if above.isInf then a - nextAfter a 0.0 else above - a

/-- Two finite doubles as multiples of one power of two. -/
def align (m₁ : Nat) (e₁ : Int) (m₂ : Nat) (e₂ : Int) : Nat × Nat × Int :=
  let e := min e₁ e₂
  (m₁ * Nat.pow 2 (e₁ - e).toNat, m₂ * Nat.pow 2 (e₂ - e).toNat, e)

/-- The remainder of `x / y` that has the sign of `x` and is smaller than `y`. -/
def truncatedRemainder (x y : Float) : Float :=
  match parts x, parts y with
  | .finite negative m₁ e₁, .finite _ m₂ e₂ =>
    if m₂ = 0 then nan
    else
      let (a, b, e) := align m₁ e₁ m₂ e₂
      ofScaled negative (a % b) e
  | .finite .., .infinite _ => x
  | _, _ => nan

/-- The remainder of `x / y` for the nearest integral quotient, a half going to the even one. -/
def nearestRemainder (x y : Float) : Float :=
  match parts x, parts y with
  | .finite negative m₁ e₁, .finite _ m₂ e₂ =>
    if m₂ = 0 then nan
    else
      let (a, b, e) := align m₁ e₁ m₂ e₂
      let r := a % b
      if 2 * r < b || (2 * r == b && a / b % 2 == 0) then ofScaled negative r e
      else ofScaled (!negative) (b - r) e
  | .finite .., .infinite _ => x
  | _, _ => nan

/-- Within one part in a thousand million of each other; an infinity is only close to itself. -/
def isClose (x y : Float) : Bool :=
  if x == y then true
  else if x.isInf || y.isInf then false
  else
    let difference := (y - x).abs
    difference ≤ (1e-9 * y).abs || difference ≤ (1e-9 * x).abs

end Redex.Number
