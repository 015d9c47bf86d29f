/-!
# The parts of a number

A number is a double: not a number, an infinity, or `± mantissa · 2 ^ exponent`. This module
reads these parts off the bits, and gives the exact integer that an integral number is.
-/

namespace Redex.Number

/-- The number that stands for a result that does not exist. -/
def nan : Float := 0.0 / 0.0

def infinity (negative : Bool) : Float :=
  if negative then -1.0 / 0.0 else 1.0 / 0.0

def signBit : Nat := 0x8000000000000000

/-- The unit of the exponent field, above the 52 bits of the fraction. -/
def fieldUnit : Nat := 0x10000000000000

/-- A double as what it denotes. -/
inductive Parts where
  | nan
  | infinite (negative : Bool)
  -- `± mantissa · 2 ^ exponent`; a zero keeps its sign.
  | finite (negative : Bool) (mantissa : Nat) (exponent : Int)
  deriving DecidableEq, Inhabited

/-- The sign, exponent field and fraction of a double, put together. -/
def parts (x : Float) : Parts :=
  let bits := x.toBits.toNat
  let negative := decide (signBit ≤ bits)
  let field : Nat := bits / fieldUnit % 2048
  let fraction := bits % fieldUnit
  if field = 2047 then
    if fraction = 0 then .infinite negative else .nan
  else if field = 0 then .finite negative fraction (-1074)
  else .finite negative (fieldUnit + fraction) (field - 1075)

/-- The sign bit of `x`, which a zero has too. -/
def isNegative (x : Float) : Bool :=
  decide (signBit ≤ x.toBits.toNat)

def signed (negative : Bool) (magnitude : Nat) : Int :=
  if negative then -(magnitude : Int) else magnitude

/-- `mantissa · 2 ^ exponent` as an integer, if it is one. -/
def scaledInt? (mantissa : Nat) (exponent : Int) : Option Nat :=
  if 0 ≤ exponent then some (mantissa * Nat.pow 2 exponent.toNat)
  else
    let unit := Nat.pow 2 (-exponent).toNat
    if mantissa % unit = 0 then some (mantissa / unit) else none

/-- The integer that `x` is, if it is one; both zeros are the integer zero. -/
def toInt? (x : Float) : Option Int :=
  match parts x with
  | .finite negative mantissa exponent => (scaledInt? mantissa exponent).map (signed negative)
  | _ => none

end Redex.Number
