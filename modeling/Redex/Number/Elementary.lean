import Redex.Number.Scaling

/-!
# Elementary functions

Powers, logarithms and the functions around them. A function that has no value at its argument,
or whose finite argument leads out of the range of numbers, gives `nan`.
-/

namespace Redex.Number

/-- The ratio of a circle's circumference to its diameter. -/
def circleRatio : Float := 3.141592653589793

/-- What a function of real numbers gives: a result that is infinite although the argument is finite
does not exist, nor does one that is `nan` although the argument is not. -/
def within (f : Float → Float) (x : Float) : Float :=
  let r := f x
  if (r.isInf && x.isFinite) || (r.isNaN && !x.isNaN) then nan else r

/-- A logarithm exists for positive arguments. -/
def logarithm (f : Float → Float) (x : Float) : Float :=
  if x ≤ 0.0 then nan else f x

/-! ## Polynomials -/

/-- The coefficients of a polynomial in pairs, each the value of its linear part. -/
def linearParts : List Float → Float → List Float
  | a :: b :: rest, x => (a + x * b) :: linearParts rest x
  | [a], _ => [a]
  | [], _ => []

/-- A polynomial with at most ten coefficients, the constant one first. Each pair of them is added
with its power of the square, and the order of the operations settles the last digit. -/
def polynomial (coefficients : List Float) (x : Float) : Float :=
  let s := x * x
  let powers := [s, s * s, s * s * s, s * s * (s * s)]
  match linearParts coefficients x with
  | [] => 0.0
  | first :: others =>
    (others.zip powers).foldl (fun sum (part, power) => sum + power * part) first

/-! ## The logarithm of two -/

/-- The upper part of the logarithm of two, whose products with small integers are exact. -/
def ln2Upper : Float := 0.693147180369123816490

/-- What the upper part lacks of the logarithm of two. -/
def ln2Lower : Float := 1.90821492927058770002e-10

/-! ## The exponential less one -/

/-- An argument as a multiple of the logarithm of two and a small rest. -/
structure Reduced where
  multiple : Int
  rest : Float
  -- What the rest lacks, since it is rounded.
  lack : Float
  deriving Inhabited

/-- The argument less a multiple of the logarithm of two. -/
def lessLn2 (x : Float) (multiple : Int) : Reduced :=
  let k := ofInt multiple
  let first := x - k * ln2Upper
  let second := k * ln2Lower
  let rest := first - second
  ⟨multiple, rest, (first - rest) - second⟩

/-- The multiple of the logarithm of two nearest to the argument, taken off it. -/
def reduceByLn2 (x : Float) : Reduced :=
  let half := copySign 0.5 x
  if x.abs < 0.3465735912322998 then ⟨0, x, 0.0⟩
  else if x.abs < 1.0397205352783203 then lessLn2 x (if x < 0.0 then -1 else 1)
  else lessLn2 x ((truncInt? (1.44269504088896338700 * x + half)).getD 0)

/-- The coefficients of a polynomial in the square of a small argument, halved, which approximates
the exponential. -/
def expCoefficients : List Float :=
  [1.0, -3.33333333333331316428e-02, 1.58730158725481460165e-03, -7.93650757867487942473e-05,
    4.00821782732936239552e-06, -2.01099218183624371326e-07]

/-- The exponential less one, without loss of digits near zero: for the rest of the reduced argument
by a rational approximation, and from there with the power of two that was taken off. -/
def expLessOne (x : Float) : Float :=
  if x.isNaN then x
  else if 709.782712893383973096 < x then infinity false
  else if x ≤ -38.81622314453125 then -1.0
  else if x.abs < 5.551115123125783e-17 then x
  else
    let ⟨k, r, lack⟩ := reduceByLn2 x
    let h := r * (0.5 * r)
    let p := polynomial expCoefficients h
    let t := 3.0 - p * (0.5 * r)
    let e := h * ((p - t) / (6.0 - r * t))
    if k = 0 then r - (r * e - h)
    else
      let e := r * (e - lack) - lack - h
      if k = -1 then 0.5 * (r - e) - 0.5
      else if k = 1 then
        if r < -0.25 then -2.0 * (e - (r + 0.5)) else 1.0 + 2.0 * (r - e)
      else if k ≤ -2 || 56 < k then scaleByPower (1.0 - (e - r)) k - 1.0
      else if k < 20 then scaleByPower ((1.0 - scaleByPower 1.0 (-k)) - (e - r)) k
      else scaleByPower ((r - (e + scaleByPower 1.0 (-k))) + 1.0) k

/-! ## The logarithm of one more -/

/-- A positive number as a power of two times a number near one. -/
structure Octave where
  power : Int
  -- How far the number near one lies above one.
  above : Float
  -- What was lost when the number was rounded, as a part of it.
  lack : Float
  deriving Inhabited

/-- One more than a number as a power of two times a number between the roots of a half and of two.
What is near zero is taken as it is, and to large numbers one adds nothing. -/
def oneMore (x : Float) : Octave :=
  if -0.2928934097290039 < x && x < 0.4142136573791504 then ⟨0, x, 0.0⟩
  else
    let (u, lost) :=
      if x < 9007199254740992.0 then
        let u := 1.0 + x
        (u, if u < 2.0 then x - (u - 1.0) else 1.0 - (u - x))
      else (x, 0.0)
    let (factor, exponent) := splitExponent u
    if 2.0 * factor < 1.4142131805419922 then ⟨exponent - 1, 2.0 * factor - 1.0, lost / u⟩
    else ⟨exponent, factor - 1.0, lost / u⟩

/-- The coefficients of a polynomial that approximates the logarithm: it has no constant one. -/
def logCoefficients : List Float :=
  [0.0, 6.666666666666735130e-01, 3.999999999940941908e-01, 2.857142874366239149e-01,
    2.222219843214978396e-01, 1.818357216161805012e-01, 1.531383769920937332e-01,
    1.479819860511658591e-01]

/-- The logarithm of one more, without loss of digits near zero. -/
def logOneMore (x : Float) : Float :=
  if x ≤ -1.0 then nan
  else if x.isNaN || x.isInf || x.abs < 5.551115123125783e-17 then x
  else if x.abs < 1.862645149230957e-09 then x - x * x * 0.5
  else
    let ⟨k, f, lack⟩ := oneMore x
    let half := 0.5 * f * f
    let s := f / (2.0 + f)
    let bent := s * (half + polynomial logCoefficients (s * s))
    if k = 0 then f - (half - bent)
    else
      let upper := ofInt k * ln2Upper
      let lower := ofInt k * ln2Lower + lack
      -- Next to a power of two a polynomial of the third degree is enough.
      if -1.430511474609375e-06 ≤ f && f < 9.5367431640625e-07 then
        upper - ((half * (1.0 - 0.66666666666666666 * f) - lower) - f)
      else upper - ((half - (bent + lower)) - f)

/-! ## Powers -/

def isOdd (y : Float) : Bool :=
  match toInt? y with
  | some n => n.natAbs % 2 == 1
  | none => false

/-- `x` to the power `y`, where one of them is infinite or `nan`. Unlike the other functions this
one has values there: anything to the power zero is one, and so is one to any power. -/
def powerAtLimit (x y : Float) : Float :=
  if x.isNaN then if y == 0.0 then 1.0 else x
  else if y.isNaN then if x == 1.0 then 1.0 else y
  else if x.isInf then
    if y == 0.0 then 1.0
    else if 0.0 < y then if isOdd y then x else x.abs
    else if isOdd y then copySign 0.0 x else 0.0
  else if x.abs == 1.0 then 1.0
  else if (0.0 < y) == (1.0 < x.abs) then y.abs
  else 0.0

/-- `x` to the power `y`. Finite numbers have a finite power or none. -/
def power (x y : Float) : Float :=
  if x.isFinite && y.isFinite then
    let r := x.pow y
    if r.isFinite then r else nan
  else powerAtLimit x y

end Redex.Number
