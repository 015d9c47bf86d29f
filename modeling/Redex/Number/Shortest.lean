import Redex.Number.Numeral

/-!
# Shortest decimals

The decimal with the fewest significant digits that reads back as a given number; of two with
equally many digits the nearer one, and on a tie the even one. For 1, 2, … 17 digits the two
neighbours of the number on the grid of that many digits are read back with `Numeral.toNumber`,
and the first grid with a hit wins.
-/

namespace Redex.Number

/-- The number of decimal digits of `n`; zero has none. -/
def digitCount (n : Nat) : Nat :=
  if n = 0 then 0 else (Nat.toDigits 10 n).length

/-- The exponent `k` with `10 ^ k ≤ num / den < 10 ^ (k + 1)`, for a positive ratio. -/
def floorLog10 (num den : Nat) : Int :=
  if den ≤ num then (digitCount (num / den) : Int) - 1
  else -(digitCount ((den - 1) / num) : Int)

/-- The ratio `num / den` divided by `10 ^ exponent`, as a ratio again. -/
def rescaleTen (num den : Nat) (exponent : Int) : Nat × Nat :=
  if 0 ≤ exponent then (num, den * Nat.pow 10 exponent.toNat)
  else (num * Nat.pow 10 (-exponent).toNat, den)

/-- The decimal of at most `count` digits that reads back as `x`, where `x` is the positive ratio
`num / den` and `k` its decimal exponent. -/
def decimalOfDigits? (x : Float) (num den : Nat) (k : Int) (count : Nat) : Option Numeral :=
  let e := k - count + 1
  let (n, d) := rescaleTen num den e
  let below : Numeral := ⟨false, n / d, e⟩
  let above : Numeral := ⟨false, n / d + 1, e⟩
  let remainder := 2 * (n % d)
  let preferBelow := remainder < d || (remainder == d && n / d % 2 == 0)
  let (first, second) := if preferBelow then (below, above) else (above, below)
  if first.toNumber = x then some first
  else if second.toNumber = x then some second
  else none

/-- The exact decimal expansion of `mantissa · 2 ^ exponent`. -/
def exactDecimal (mantissa : Nat) (exponent : Int) : Numeral :=
  if 0 ≤ exponent then ⟨false, mantissa * Nat.pow 2 exponent.toNat, 0⟩
  else ⟨false, mantissa * Nat.pow 5 (-exponent).toNat, exponent⟩

/-- The shortest decimal that reads back as the positive number `mantissa · 2 ^ exponent`. -/
def shortestDecimal (mantissa : Nat) (exponent : Int) : Numeral :=
  let (num, den) :=
    if 0 ≤ exponent then (mantissa * Nat.pow 2 exponent.toNat, 1)
    else (mantissa, Nat.pow 2 (-exponent).toNat)
  let x := ofRatio false num den
  let k := floorLog10 num den
  ((List.range 17).findSome? fun i => decimalOfDigits? x num den k (i + 1)).getD
    (exactDecimal mantissa exponent)

end Redex.Number
