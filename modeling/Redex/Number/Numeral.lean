import Redex.Number.Rounding
import Redex.Text.Blank
import Redex.Text.Digit

/-!
# Numerals

A numeral is an optional sign, digits with an optional point (at least one digit), and an
optional exponent: `e` or `E`, an optional sign and digits. Digits may be of any script. A token
is a number when all of it is a numeral; a text is coerced to the number that its longest
numeric start denotes.
-/

namespace Redex

open Text

/-- What a numeral denotes: `± digits · 10 ^ exponent`. -/
structure Numeral where
  negative : Bool
  -- The digits on both sides of the point, read as one natural number.
  digits : Nat
  -- The written exponent less the number of digits after the point.
  exponent : Int
  deriving DecidableEq, Inhabited

namespace Numeral

/-- The number nearest to `± digits · 10 ^ exponent`. Exponents beyond the range of numbers are
settled before a power is formed: with a digit other than zero `10 ^ 311` is too large, and
`digits < 10 ^ (log2 digits + 1)`. -/
def toNumber (n : Numeral) : Float :=
  if n.digits = 0 then Number.ofRatio n.negative 0 1
  else if 310 < n.exponent then Number.infinity n.negative
  else if n.exponent + n.digits.log2 < -400 then Number.ofRatio n.negative 0 1
  else if 0 ≤ n.exponent then Number.ofRatio n.negative (n.digits * Nat.pow 10 n.exponent.toNat) 1
  else Number.ofRatio n.negative n.digits (Nat.pow 10 (-n.exponent).toNat)

/-- Whether a sign at the start is a minus, and what follows the sign. -/
def scanSign : List Char → Bool × List Char
  | '-' :: cs => (true, cs)
  | '+' :: cs => (false, cs)
  | cs => (false, cs)

/-- The digits before and after the point at the start of `cs`, and what follows them. -/
def scanDigits? (cs : List Char) : Option (List Nat × List Nat × List Char) :=
  match spanDigits cs with
  | ([], '.' :: rest) =>
    match spanDigits rest with
    | ([], _) => none
    | (fraction, rest) => some ([], fraction, rest)
  | ([], _) => none
  | (whole, '.' :: rest) => some (whole, (spanDigits rest).1, (spanDigits rest).2)
  | (whole, rest) => some (whole, [], rest)

/-- The exponent after its mark: an optional sign and at least one digit. -/
def scanExponentDigits? (cs : List Char) : Option (Int × List Char) :=
  match spanDigits (scanSign cs).2 with
  | ([], _) => none
  | (digits, rest) => some (Number.signed (scanSign cs).1 (ofDigits digits), rest)

/-- The exponent at the start of `cs`. A mark without digits is no exponent and stays. -/
def scanExponent : List Char → Int × List Char
  | 'e' :: cs => (scanExponentDigits? cs).getD (0, 'e' :: cs)
  | 'E' :: cs => (scanExponentDigits? cs).getD (0, 'E' :: cs)
  | cs => (0, cs)

/-- The numeral without its sign at the start of `cs`, and what follows it. -/
def scanUnsigned? (negative : Bool) (cs : List Char) : Option (Numeral × List Char) :=
  (scanDigits? cs).map fun (whole, fraction, rest) =>
    let (exponent, rest) := scanExponent rest
    (⟨negative, ofDigits (whole ++ fraction), exponent - fraction.length⟩, rest)

/-- The longest numeral at the start of `cs`, and what follows it. -/
def scan? (cs : List Char) : Option (Numeral × List Char) :=
  scanUnsigned? (scanSign cs).1 (scanSign cs).2

/-- The numeral that all of `cs` is, if it is one. -/
def ofChars? (cs : List Char) : Option Numeral :=
  match scan? cs with
  | some (n, []) => some n
  | _ => none

end Numeral

namespace Number

def infinityWord : List Char :=
  "Infinity".toList

/-- The number denoted by the longest numeric start of a text, blanks before it skipped: a sign,
and then the word for infinity or a numeral; `nan` if there is none. -/
def ofTextStart (cs : List Char) : Float :=
  let (negative, rest) := Numeral.scanSign (trimStart cs)
  if infinityWord.isPrefixOf rest then infinity negative
  else
    match Numeral.scanUnsigned? negative rest with
    | some (n, _) => n.toNumber
    | none => nan

end Number

end Redex
