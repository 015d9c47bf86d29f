import Redex.Number.Rounding

/-!
# Integer functions

Exact functions on integers. Their results are exact and become the nearest number at the end;
one beyond the range of numbers is the positive infinity. Products that leave the range are cut
off there: the functions below only grow from that point on.
-/

namespace Redex.Number

/-- The first power of two beyond the range of numbers. -/
def rangeLimit : Nat := Nat.pow 2 1024

/-- The largest count that a product may run over. -/
def countLimit : Nat := 0x7FFFFFFFFFFFFFFF

/-- The integer square root, two bits of the radicand at a time. -/
def sqrtDigits : Nat → Nat → Nat
  | 0, _ => 0
  | k + 1, n =>
    let r := 2 * sqrtDigits k (n / 4)
    if (r + 1) * (r + 1) ≤ n then r + 1 else r

/-- The largest natural number whose square is at most `n`. -/
def natSqrt (n : Nat) : Nat :=
  sqrtDigits (n.log2 / 2 + 1) n

/-- `acc · n · (n - 1) ⋯` over `count` factors, until it leaves the range. -/
def fallingProduct : Nat → Nat → Nat → Nat
  | 0, _, acc => acc
  | count + 1, n, acc =>
    if rangeLimit ≤ acc then acc else fallingProduct count (n - 1) (acc * n)

/-- The binomial coefficient of `n` and `done + count`, given that of `n` and `done`, until it
leaves the range. -/
def binomialFrom (n : Nat) : Nat → Nat → Nat → Nat
  | 0, _, acc => acc
  | count + 1, done, acc =>
    if rangeLimit ≤ acc then acc
    else binomialFrom n count (done + 1) (acc * (n - done) / (done + 1))

/-- The factorial of a natural number up to the largest count. -/
def factorial (n : Int) : Float :=
  if n < 0 || countLimit < n.natAbs then nan
  else ofNat (fallingProduct n.natAbs n.natAbs 1)

def combinations (n k : Int) : Float :=
  if n < 0 || k < 0 then nan
  else if n < k then 0.0
  else
    let few := min k.natAbs (n.natAbs - k.natAbs)
    if countLimit < few then nan else ofNat (binomialFrom n.natAbs few 0 1)

def permutations (n k : Int) : Float :=
  if n < 0 || k < 0 then nan
  else if n < k then 0.0
  else if countLimit < k.natAbs then nan
  else ofNat (fallingProduct k.natAbs n.natAbs 1)

def integerSqrt (n : Int) : Float :=
  if n < 0 then nan else ofNat (natSqrt n.natAbs)

/-- The greatest common divisor of integers; of none it is zero. -/
def gcdAll (ns : List Int) : Float :=
  ofNat (ns.foldl (fun acc n => Nat.gcd acc n.natAbs) 0)

/-- The least common multiple of integers; of none it is one. -/
def lcmAll (ns : List Int) : Float :=
  ofNat (ns.foldl (fun acc n => Nat.lcm acc n.natAbs) 1)

end Redex.Number
