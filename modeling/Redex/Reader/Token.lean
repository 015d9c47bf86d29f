import Redex.Expr.Basic
import Redex.Number.Numeral

/-!
# Tokens

The pieces of a source text, and what a single piece denotes: a Boolean, a number, a text or a
symbol, tried in this order.
-/

namespace Redex

open Text

/-- The kinds of token. -/
inductive TokenKind where
  | opening
  | closing
  -- A string with its closing quote.
  | string
  -- A string that runs off the end of the source.
  | openString
  -- A run of characters that are neither blank, bracket nor quote.
  | word
  deriving DecidableEq, Inhabited

/-- A piece of a source text, as it stands there. -/
structure Token where
  kind : TokenKind
  text : String
  deriving DecidableEq, Inhabited

namespace Token

/-- Round and square brackets open a group alike. -/
def isOpener (c : Char) : Bool :=
  c == '(' || c == '['

/-- Round and square brackets close a group alike. -/
def isCloser (c : Char) : Bool :=
  c == ')' || c == ']'

def isDelimiter (c : Char) : Bool :=
  isBlank c || isOpener c || isCloser c || c == '"'

def boolean? (text : String) : Option Bool :=
  if text == "#t" || text == "#true" then some true
  else if text == "#f" || text == "#false" then some false
  else none

/-- What stands between the quotes that a token starts and ends with. Escapes stay as written. -/
def quotedBody? : List Char → Option (List Char)
  | '"' :: cs => if cs.getLast? = some '"' then some cs.dropLast else none
  | _ => none

def bake (text : String) : Expr :=
  match boolean? text with
  | some b => .boolean b
  | none =>
    match Numeral.ofChars? text.toList with
    | some n => .number n.toNumber
    | none =>
      match quotedBody? text.toList with
      | some body => .text (String.ofList body)
      | none => .symbol text

end Token

end Redex
