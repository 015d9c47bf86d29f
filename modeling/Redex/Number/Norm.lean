import Redex.Number.Scaling

/-!
# The Euclidean norm

The root of a sum of squares, in doubles throughout. The components are scaled by the power of two
that brings the largest of them below one, each square is added in pieces that are exact, and what
the additions lose is kept beside the sum. The root is corrected once, by what its own square leaves
of the sum. Where the scale itself is beyond the range, the components are divided by the largest
one instead, and the root is not corrected.
-/

namespace Redex.Number

/-- A sum of pieces of squares that starts at one, so that no piece is larger than the sum. What the
additions lose is kept by the kind of the piece. -/
structure SquareSum where
  total : Float
  -- Lost with the squares of upper halves.
  upper : Float
  -- Lost with the products of the two halves.
  mixed : Float
  -- Lost with the squares of lower halves, or these squares themselves.
  lower : Float
  deriving Inhabited

/-- Two numbers with half of the digits of `x` each, whose sum is `x`. -/
def halves (x : Float) : Float × Float :=
  let wide := x * 134217729.0
  let upper := wide - (wide - x)
  (upper, x - upper)

namespace SquareSum

def empty : SquareSum :=
  ⟨1.0, 0.0, 0.0, 0.0⟩

def loss (s : SquareSum) (piece : Float) : Float :=
  (s.total - (s.total + piece)) + piece

def addUpper (s : SquareSum) (piece : Float) : SquareSum :=
  { s with total := s.total + piece, upper := s.upper + s.loss piece }

def addMixed (s : SquareSum) (piece : Float) : SquareSum :=
  { s with total := s.total + piece, mixed := s.mixed + s.loss piece }

def addLower (s : SquareSum) (piece : Float) : SquareSum :=
  { s with total := s.total + piece, lower := s.lower + s.loss piece }

/-- Adds the square of a number. The square of its lower half is too small for the sum and is kept
beside it. -/
def addSquare (s : SquareSum) (x : Float) : SquareSum :=
  let (u, l) := halves x
  let s := (s.addUpper (u * u)).addMixed (2.0 * u * l)
  { s with lower := s.lower + l * l }

def removeSquare (s : SquareSum) (x : Float) : SquareSum :=
  let (u, l) := halves x
  ((s.addUpper (-(u * u))).addMixed (-(2.0 * u * l))).addLower (-(l * l))

/-- The sum, with what its additions have lost. -/
def value (s : SquareSum) : Float :=
  s.total - 1.0 + (s.upper + s.mixed + s.lower)

end SquareSum

/-- The root of the sum of the squares of `xs`, scaled by a power of two. -/
def scaledNorm (scale : Float) (xs : List Float) : Float :=
  let sum := xs.foldl (fun s x => s.addSquare (x * scale)) SquareSum.empty
  let root := sum.value.sqrt
  (root + (sum.removeSquare root).value / (2.0 * root)) / scale

/-- The root of the sum of the squares of `xs`, by their ratios to the largest of them. -/
def ratioNorm (largest : Float) (xs : List Float) : Float :=
  let square := fun x => x / largest * (x / largest)
  largest * (xs.foldl (fun s x => s.addUpper (square x)) SquareSum.empty).value.sqrt

/-- The root of the sum of squares. An infinite component makes it infinite, before a `nan`. -/
def euclideanNorm (components : List Float) : Float :=
  let xs := components.map Float.abs
  let largest := xs.foldl (fun most x => if most < x then x else most) 0.0
  if largest.isInf then largest
  else if xs.any Float.isNaN then nan
  else if largest == 0.0 || xs.length ≤ 1 then largest
  else
    let exponent := (splitExponent largest).2
    if -1023 ≤ exponent then scaledNorm (ofScaled false 1 (-exponent)) xs
    else ratioNorm largest xs

end Redex.Number
