import Redex.Error
import Redex.Number.Norm
import Redex.Number.Special

/-!
# The mathematical library

What each function of the library gives for a list of numbers. Arguments beyond those that a
function takes are dropped; with too few, or with fractions where it takes integers, the result is
`nan`. The only failure is a logarithm to a base whose own logarithm is zero.
-/

namespace Redex.MathFunction

open Number

def value (x : Float) : Expr :=
  .number x

def unary (f : Float → Expr) : List Float → Expr
  | x :: _ => f x
  | _ => value nan

def binary (f : Float → Float → Expr) : List Float → Expr
  | x :: y :: _ => f x y
  | _ => value nan

def unaryInt (f : Int → Float) : List Float → Expr
  | x :: _ =>
    match toInt? x with
    | some n => value (f n)
    | none => value nan
  | _ => value nan

def binaryInt (f : Int → Int → Float) : List Float → Expr
  | x :: y :: _ =>
    match toInt? x, toInt? y with
    | some n, some k => value (f n k)
    | _, _ => value nan
  | _ => value nan

def anyInts (f : List Int → Float) (xs : List Float) : Expr :=
  match xs.mapM toInt? with
  | some ns => value (f ns)
  | none => value nan

/-- The logarithm of a number, natural or to a base. -/
def logTo : List Float → Except Error Expr
  | [x] => .ok (value (logarithm Float.log x))
  | [x, base] =>
    if x ≤ 0.0 || base ≤ 0.0 then .ok (value nan)
    else if base.log == 0.0 then .error .zeroLogarithm
    else .ok (value (x.log / base.log))
  | _ => .ok (value nan)

/-- The value of a function for a list of numbers without negative zeros. -/
def eval : MathFunction → List Float → Except Error Expr
  | acos => fun xs => .ok (unary (value ∘ within Float.acos) xs)
  | acosh => fun xs => .ok (unary (value ∘ within Float.acosh) xs)
  | asin => fun xs => .ok (unary (value ∘ within Float.asin) xs)
  | asinh => fun xs => .ok (unary (value ∘ within Float.asinh) xs)
  | atan => fun xs => .ok (unary (value ∘ within Float.atan) xs)
  | atan2 => fun xs => .ok (binary (fun y x => value (Float.atan2 y x)) xs)
  | atanh => fun xs => .ok (unary (value ∘ within Float.atanh) xs)
  | cbrt => fun xs => .ok (unary (value ∘ within Float.cbrt) xs)
  | ceil => fun xs => .ok (unary (fun x => value (ofInt? (ceilInt? x))) xs)
  | comb => fun xs => .ok (binaryInt combinations xs)
  | copysign => fun xs => .ok (binary (fun x y => value (copySign x y)) xs)
  | cos => fun xs => .ok (unary (value ∘ within Float.cos) xs)
  | cosh => fun xs => .ok (unary (value ∘ within Float.cosh) xs)
  | degrees => fun xs => .ok (unary (fun x => value (x * (180.0 / circleRatio))) xs)
  | dist => fun _ => .ok (value nan)
  | erf => fun xs => .ok (unary (value ∘ errorFunction) xs)
  | erfc => fun xs => .ok (unary (value ∘ errorComplement) xs)
  | exp => fun xs => .ok (unary (value ∘ within Float.exp) xs)
  | exp2 => fun xs => .ok (unary (value ∘ within Float.exp2) xs)
  | expm1 => fun xs => .ok (unary (value ∘ within expLessOne) xs)
  | fabs => fun xs => .ok (unary (value ∘ Float.abs) xs)
  | factorial => fun xs => .ok (unaryInt Number.factorial xs)
  | floor => fun xs => .ok (unary (fun x => value (ofInt? (floorInt? x))) xs)
  | fmod => fun xs => .ok (binary (fun x y => value (truncatedRemainder x y)) xs)
  | frexp => fun xs =>
    .ok (unary (fun x =>
      .sequence [value (splitExponent x).1, value (ofInt (splitExponent x).2)]) xs)
  | fsum => fun _ => .ok (value nan)
  | gamma => fun xs => .ok (unary (value ∘ Number.gamma) xs)
  | gcd => fun xs => .ok (anyInts gcdAll xs)
  | hypot => fun xs => .ok (value (euclideanNorm xs))
  | isclose => fun xs => .ok (binary (fun x y => .boolean (isClose x y)) xs)
  | isfinite => fun xs => .ok (unary (fun x => .boolean x.isFinite) xs)
  | isinf => fun xs => .ok (unary (fun x => .boolean x.isInf) xs)
  | isnan => fun xs => .ok (unary (fun x => .boolean x.isNaN) xs)
  | isqrt => fun xs => .ok (unaryInt integerSqrt xs)
  | lcm => fun xs => .ok (anyInts lcmAll xs)
  | ldexp => fun xs =>
    .ok (binary (fun x y => value ((toInt? y).elim nan (scaleByPower x))) xs)
  | lgamma => fun xs => .ok (unary (value ∘ logGamma) xs)
  | log => logTo
  | log10 => fun xs => .ok (unary (value ∘ logarithm Float.log10) xs)
  | log1p => fun xs => .ok (unary (value ∘ logOneMore) xs)
  | log2 => fun xs => .ok (unary (value ∘ logarithm Float.log2) xs)
  | modf => fun xs =>
    .ok (unary (fun x => .sequence [value (splitFraction x).1, value (splitFraction x).2]) xs)
  | nextafter => fun xs => .ok (binary (fun x y => value (nextAfter x y)) xs)
  | perm => fun xs =>
    match xs with
    | [_] => .ok (unaryInt Number.factorial xs)
    | _ => .ok (binaryInt permutations xs)
  | pow => fun xs => .ok (binary (fun x y => value (power x y)) xs)
  | prod => fun _ => .ok (value nan)
  | radians => fun xs => .ok (unary (fun x => value (x * (circleRatio / 180.0))) xs)
  | remainder => fun xs => .ok (binary (fun x y => value (nearestRemainder x y)) xs)
  | sin => fun xs => .ok (unary (value ∘ within Float.sin) xs)
  | sinh => fun xs => .ok (unary (value ∘ within Float.sinh) xs)
  | sqrt => fun xs => .ok (unary (value ∘ within Float.sqrt) xs)
  | tan => fun xs => .ok (unary (value ∘ within Float.tan) xs)
  | tanh => fun xs => .ok (unary (value ∘ within Float.tanh) xs)
  | trunc => fun xs => .ok (unary (fun x => value (ofInt? (truncInt? x))) xs)
  | ulp => fun xs => .ok (unary (value ∘ unitInLastPlace) xs)

end Redex.MathFunction
