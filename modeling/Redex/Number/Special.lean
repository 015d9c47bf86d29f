import Redex.Number.Elementary

/-!
# Gamma and error functions

The gamma function by a rational approximation of its smooth part, and the error function by one
rational approximation for each range of arguments. Integral arguments of the gamma function up to
23 have exact values.
-/

namespace Redex.Number

/-! ## The gamma function -/

/-- The numerator and denominator coefficients of the smooth part of the gamma function, the
constant ones first. -/
def gammaRatio : List (Float × Float) :=
  [(23531376880.410759688572, 0.0),
    (42919803642.649098768958, 39916800.0),
    (35711959237.355668049440, 120543840.0),
    (17921034426.037209699920, 150917976.0),
    (6039542586.3520280050643, 105258076.0),
    (1439720407.3117216736632, 45995730.0),
    (248874557.86205415651146, 13339535.0),
    (31426415.585400194380614, 2637558.0),
    (2876370.6289353724412254, 357423.0),
    (186056.26539522349504029, 32670.0),
    (8071.6720023658162106380, 1925.0),
    (210.82427775157934587251, 66.0),
    (2.5066282746310002701649, 1.0)]

/-- The shift of the approximation. -/
def gammaShift : Float := 6.024680040776729583740234375

/-- The smooth part of the gamma function at a positive argument: a polynomial ratio in `x`, or in
`1 / x` for large arguments. -/
def gammaSum (x : Float) : Float :=
  let (num, den) :=
    if x < 5.0 then
      gammaRatio.reverse.foldl (fun (n, d) (a, b) => (n * x + a, d * x + b)) (0.0, 0.0)
    else gammaRatio.foldl (fun (n, d) (a, b) => (n / x + a, d / x + b)) (0.0, 0.0)
  num / den

/-- The sine of `π · x`, with the argument reduced before it is multiplied. -/
def sinPi (x : Float) : Float :=
  let y := truncatedRemainder x.abs 2.0
  let r :=
    if y < 0.25 then (circleRatio * y).sin
    else if y < 0.75 then (circleRatio * (y - 0.5)).cos
    else if y < 1.25 then (circleRatio * (1.0 - y)).sin
    else if y < 1.75 then -(circleRatio * (y - 1.5)).cos
    else (circleRatio * (y - 2.0)).sin
  copySign 1.0 x * r

/-- The gamma function at an argument that is no small integer, by its approximation. -/
def gammaApprox (x : Float) : Float :=
  let a := x.abs
  let half := gammaShift - 0.5
  let y := a + half
  let lost := if half < a then y - a - half else y - half - a
  let z := lost * gammaShift / y
  if x < 0.0 then
    let r := -circleRatio / sinPi a / a * y.exp / gammaSum a
    let r := r - z * r
    if a < 140.0 then r / y.pow (a - 0.5)
    else
      let p := y.pow (a / 2.0 - 0.25)
      r / p / p
  else
    let r := gammaSum a / y.exp
    let r := r + z * r
    if a < 140.0 then r * y.pow (a - 0.5)
    else
      let p := y.pow (a / 2.0 - 0.25)
      r * p * p

def gamma (x : Float) : Float :=
  match toInt? x with
  | some n =>
    if n ≤ 0 then nan
    else if n ≤ 23 then factorial (n - 1)
    else if n ≤ 200 then within gammaApprox x
    else nan
  | none =>
    if x.isNaN then x
    else if x.isInf then if 0.0 < x then x else nan
    else if x.abs < 1e-20 then within (fun x => 1.0 / x) x
    else if 200.0 < x.abs then if x < 0.0 then 0.0 / sinPi x else nan
    else within gammaApprox x

/-- The logarithm of the absolute value of the gamma function, by its approximation. -/
def logGammaApprox (x : Float) : Float :=
  let a := x.abs
  let r := (gammaSum a).log - gammaShift + (a - 0.5) * ((a + gammaShift - 0.5).log - 1.0)
  if x < 0.0 then circleRatio.log - (sinPi a).abs.log - a.log - r else r

/-- The logarithm of the absolute value of the gamma function. -/
def logGamma (x : Float) : Float :=
  match toInt? x with
  | some n =>
    if n ≤ 0 then nan
    else if n ≤ 2 then 0.0
    else within logGammaApprox x
  | none =>
    if x.isNaN then x
    else if x.isInf then x.abs
    else if x.abs < 1e-20 then -x.abs.log
    else within logGammaApprox x

/-! ## The error function -/

/-- A rational approximation: the coefficients of two polynomials, the constant ones first. -/
structure Ratio where
  num : List Float
  den : List Float

def Ratio.eval (r : Ratio) (x : Float) : Float :=
  polynomial r.num x / polynomial r.den x

/-- What the error function adds to an argument near zero, as a part of it, by its square. -/
def errorNearZero : Ratio where
  num := [1.28379167095512558561e-01, -3.25042107247001499370e-01, -2.84817495755985104766e-02,
    -5.77027029648944159157e-03, -2.37630166566501626084e-05]
  den := [1.0, 3.97917223959155352819e-01, 6.50222499887672944485e-02, 5.08130628187576562776e-03,
    1.32494738004321644526e-04, -3.96022827877536812320e-06]

/-- What the error function is above `errorAtOne` near one, by the distance from one. -/
def errorNearOne : Ratio where
  num := [-2.36211856075265944077e-03, 4.14856118683748331666e-01, -3.72207876035701323847e-01,
    3.18346619901161753674e-01, -1.10894694282396677476e-01, 3.54783043256182359371e-02,
    -2.16637559486879084300e-03]
  den := [1.0, 1.06420880400844228286e-01, 5.40397917702171048937e-01, 7.18286544141962662868e-02,
    1.26171219808761642112e-01, 1.36370839120290507362e-02, 1.19844998467991074170e-02]

/-- A correction of the exponent of the complement from 1.25 on, by the inverse of the square. -/
def errorMiddle : Ratio where
  num := [-9.86494403484714822705e-03, -6.93858572707181764372e-01, -1.05586262253232909814e+01,
    -6.23753324503260060396e+01, -1.62396669462573470355e+02, -1.84605092906711035994e+02,
    -8.12874355063065934246e+01, -9.81432934416914548592e+00]
  den := [1.0, 1.96512716674392571292e+01, 1.37657754143519042600e+02, 4.34565877475229228821e+02,
    6.45387271733267880336e+02, 4.29008140027567833386e+02, 1.08635005541779435134e+02,
    6.57024977031928170135e+00, -6.04244152148580987438e-02]

/-- The same correction further out. -/
def errorFar : Ratio where
  num := [-9.86494292470009928597e-03, -7.99283237680523006574e-01, -1.77579549177547519889e+01,
    -1.60636384855821916062e+02, -6.37566443368389627722e+02, -1.02509513161107724954e+03,
    -4.83519191608651397019e+02]
  den := [1.0, 3.03380607434824582924e+01, 3.25792512996573918826e+02, 1.53672958608443695994e+03,
    3.19985821950859553908e+03, 2.55305040643316442583e+03, 4.74528541206955367215e+02,
    -2.24409524465858183362e+01]

/-- The error function at one, to the digits of a short number. -/
def errorAtOne : Float := 8.45062911510467529297e-01

/-- `2 / √π - 1`, what the error function adds to the least arguments, as a part of them. -/
def errorSlope : Float := 1.28379167095512586316e-01

/-- The complement of the error function from 1.25 on. The approximations meet at `border`, which is
not the same number for the function and for its complement. -/
def errorTail (border x : Float) : Float :=
  let s := 1.0 / (x * x)
  let correction := if x < border then errorMiddle.eval s else errorFar.eval s
  -- The square of the upper half of the digits is exact.
  let upper := Float.ofBits (x.toBits - x.toBits % 0x100000000)
  (-upper * upper - 0.5625).exp * ((upper - x) * (upper + x) + correction).exp / x

/-- The error function at a number that is not negative. -/
def errorFrom (x : Float) : Float :=
  if x < 2.848094538889218e-306 then 0.0625 * (16.0 * x + (16.0 * errorSlope) * x)
  else if x < 3.725290298461914e-09 then x + errorSlope * x
  else if x < 0.84375 then x + x * errorNearZero.eval (x * x)
  else if x < 1.25 then errorAtOne + errorNearOne.eval (x - 1.0)
  else if x < 6.0 then 1.0 - errorTail 2.8571434020996094 x
  else 1.0

def errorFunction (x : Float) : Float :=
  if x.isNaN then x else copySign (errorFrom x.abs) x

/-- One less the error function. -/
def errorComplement (x : Float) : Float :=
  let a := x.abs
  if x.isNaN then x
  else if a < 1.3877787807814457e-17 then 1.0 - x
  else if a < 0.84375 then
    let y := errorNearZero.eval (x * x)
    if x < 0.25 then 1.0 - (x + x * y) else 0.5 - (x * y + (x - 0.5))
  else if a < 1.25 then
    let y := errorNearOne.eval (a - 1.0)
    if 0.0 < x then (1.0 - errorAtOne) - y else 1.0 + (errorAtOne + y)
  else if 28.0 ≤ x then 0.0
  else if x ≤ -6.0 then 2.0
  else
    let tail := errorTail 2.8571414947509766 a
    if 0.0 < x then tail else 2.0 - tail

end Redex.Number
