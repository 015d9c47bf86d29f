/-!
# Built-in procedures

The names of the procedures that exist before any definition: the arithmetic and comparison
operators, `not`, and the functions of the mathematical library.
-/

namespace Redex

/-- The functions of the mathematical library. -/
inductive MathFunction where
  | acos | acosh | asin | asinh | atan | atan2 | atanh | cbrt | ceil | comb | copysign | cos | cosh
  | degrees | dist | erf | erfc | exp | exp2 | expm1 | fabs | factorial | floor | fmod | frexp
  | fsum | gamma | gcd | hypot | isclose | isfinite | isinf | isnan | isqrt | lcm | ldexp | lgamma
  | log | log10 | log1p | log2 | modf | nextafter | perm | pow | prod | radians | remainder | sin
  | sinh | sqrt | tan | tanh | trunc | ulp
  deriving DecidableEq, Inhabited

namespace MathFunction

def name : MathFunction → String
  | acos => "acos" | acosh => "acosh" | asin => "asin" | asinh => "asinh" | atan => "atan"
  | atan2 => "atan2" | atanh => "atanh" | cbrt => "cbrt" | ceil => "ceil" | comb => "comb"
  | copysign => "copysign" | cos => "cos" | cosh => "cosh" | degrees => "degrees" | dist => "dist"
  | erf => "erf" | erfc => "erfc" | exp => "exp" | exp2 => "exp2" | expm1 => "expm1"
  | fabs => "fabs" | factorial => "factorial" | floor => "floor" | fmod => "fmod"
  | frexp => "frexp" | fsum => "fsum" | gamma => "gamma" | gcd => "gcd" | hypot => "hypot"
  | isclose => "isclose" | isfinite => "isfinite" | isinf => "isinf" | isnan => "isnan"
  | isqrt => "isqrt" | lcm => "lcm" | ldexp => "ldexp" | lgamma => "lgamma" | log => "log"
  | log10 => "log10" | log1p => "log1p" | log2 => "log2" | modf => "modf"
  | nextafter => "nextafter" | perm => "perm" | pow => "pow" | prod => "prod"
  | radians => "radians" | remainder => "remainder" | sin => "sin" | sinh => "sinh"
  | sqrt => "sqrt" | tan => "tan" | tanh => "tanh" | trunc => "trunc" | ulp => "ulp"

/-- Every function of the library, by name. -/
def all : List MathFunction :=
  [acos, acosh, asin, asinh, atan, atan2, atanh, cbrt, ceil, comb, copysign, cos, cosh, degrees,
    dist, erf, erfc, exp, exp2, expm1, fabs, factorial, floor, fmod, frexp, fsum, gamma, gcd, hypot,
    isclose, isfinite, isinf, isnan, isqrt, lcm, ldexp, lgamma, log, log10, log1p, log2, modf,
    nextafter, perm, pow, prod, radians, remainder, sin, sinh, sqrt, tan, tanh, trunc, ulp]

theorem mem_all (f : MathFunction) : f ∈ all := by
  cases f <;> decide

end MathFunction

/-- The built-in procedures. The comparison for equality has two names. -/
inductive Builtin where
  | greater | less | atLeast | atMost | equal | equalSign
  | add | subtract | multiply | divide
  | not
  | math (f : MathFunction)
  deriving DecidableEq, Inhabited

namespace Builtin

def name : Builtin → String
  | greater => ">" | less => "<" | atLeast => ">=" | atMost => "<=" | equal => "=="
  | equalSign => "=" | add => "+" | subtract => "-" | multiply => "*" | divide => "/"
  | not => "not"
  | math f => f.name

/-- Every built-in procedure, in the order in which the built-in layer binds them. -/
def all : List Builtin :=
  MathFunction.all.map math ++
    [greater, less, atLeast, atMost, equal, add, subtract, multiply, divide, equalSign, not]

theorem mem_all (b : Builtin) : b ∈ all := by
  cases b with
  | math f => exact List.mem_append_left _ (List.mem_map_of_mem (MathFunction.mem_all f))
  | _ => simp [all]

end Builtin

end Redex
