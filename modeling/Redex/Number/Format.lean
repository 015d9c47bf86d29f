import Redex.Number.Shortest

/-!
# Number text

A number has two texts. Its *literal* is the shortest decimal that reads back, positional for
exponents from -4 to 15 and always with a point there, scientific otherwise. Its *surface text*,
which programs show, writes an integral number below `10 ^ 21` as an integer and falls back to
the literal.
-/

namespace Redex.Number

open Text

/-- How a literal is laid out: the decimal exponents written positionally, the least width of a
written exponent, and the words for what is no finite number. -/
structure LiteralStyle where
  -- The least exponent that is written positionally.
  lowest : Int
  -- The first exponent that is written scientifically again.
  limit : Int
  -- The least number of digits of a written exponent.
  exponentWidth : Nat
  nanWord : String
  infinityWord : String

/-- Literals are positional from `0.0001` to below `1e+16`; exponents have two digits. -/
def literalStyle : LiteralStyle :=
  ⟨-4, 16, 2, "nan", "inf"⟩

/-- The digits with a point in their proper place, for the decimal exponent `k` of the first
digit. -/
def positional (digits : List Char) (k : Int) : List Char :=
  if k < 0 then '0' :: '.' :: List.replicate (-k - 1).toNat '0' ++ digits
  else
    let whole := (k + 1).toNat
    if digits.length ≤ whole then
      digits ++ List.replicate (whole - digits.length) '0' ++ ['.', '0']
    else digits.take whole ++ '.' :: digits.drop whole

/-- One digit before the point, and the exponent with its sign. -/
def scientific (style : LiteralStyle) (digits : List Char) (k : Int) : List Char :=
  let exponent := natDigits k.natAbs
  let lead := digits.take 1
  let tail := digits.drop 1
  lead ++ (if tail.isEmpty then [] else '.' :: tail) ++
    'e' :: (if k < 0 then '-' else '+') ::
      List.replicate (style.exponentWidth - exponent.length) '0' ++ exponent

/-- A positive decimal, laid out. Zeros at the end of its digits only mark the place. -/
def layout (style : LiteralStyle) (n : Numeral) : List Char :=
  let written := natDigits n.digits
  let k := n.exponent + written.length - 1
  let digits := (written.reverse.dropWhile (· == '0')).reverse
  if style.lowest ≤ k && k < style.limit then positional digits k else scientific style digits k

def withSign (negative : Bool) (cs : List Char) : List Char :=
  if negative then '-' :: cs else cs

def literalChars (style : LiteralStyle) (x : Float) : List Char :=
  match parts x with
  | .nan => style.nanWord.toList
  | .infinite negative => withSign negative style.infinityWord.toList
  | .finite negative 0 _ => withSign negative ['0', '.', '0']
  | .finite negative mantissa exponent =>
    withSign negative (layout style (shortestDecimal mantissa exponent))

def literal (x : Float) : String :=
  String.ofList (literalChars literalStyle x)

/-- The decimal digits of an integer, after a minus sign if it is negative. -/
def intChars (n : Int) : List Char :=
  withSign (decide (n < 0)) (natDigits n.natAbs)

def surfaceChars (x : Float) : List Char :=
  match parts x with
  | .nan => "NaN".toList
  | .infinite negative => withSign negative "Infinity".toList
  | .finite .. =>
    match toInt? x with
    | some n => if n.natAbs < Nat.pow 10 21 then intChars n else literalChars literalStyle x
    | none => literalChars literalStyle x

def surface (x : Float) : String :=
  String.ofList (surfaceChars x)

end Redex.Number
