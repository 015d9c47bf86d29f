import Redex.Reader.Token

/-!
# The lexer

The lexer reads a source one character at a time and is a small machine: it stands between
tokens, inside a word, or inside a string. Every character is consumed, so every source has its
tokens; blanks are the only characters that belong to none.
-/

namespace Redex

open Text

/-- Where the lexer stands. What it has read of a token is kept with the last character first. -/
inductive LexState where
  | between
  | word (read : List Char)
  -- Inside a string; `escaped` says that the next character follows a backslash.
  | string (read : List Char) (escaped : Bool)
  deriving DecidableEq, Inhabited

namespace LexState

def emit (kind : TokenKind) (read : List Char) : Token :=
  ⟨kind, String.ofList read.reverse⟩

/-- The first character of a token, or what separates tokens. -/
def start (c : Char) : List Token × LexState :=
  if isBlank c then ([], between)
  else if Token.isOpener c then ([emit .opening [c]], between)
  else if Token.isCloser c then ([emit .closing [c]], between)
  else if c == '"' then ([], string [c] false)
  else ([], word [c])

/-- The tokens that one more character completes, and where the lexer stands after it. -/
def next : LexState → Char → List Token × LexState
  | between, c => start c
  | word read, c =>
    if Token.isDelimiter c then (emit .word read :: (start c).1, (start c).2)
    else ([], word (c :: read))
  | string read true, c => ([], string (c :: read) false)
  | string read false, c =>
    if c == '\\' then ([], string (c :: read) true)
    else if c == '"' then ([emit .string (c :: read)], between)
    else ([], string (c :: read) false)

def finish : LexState → List Token
  | between => []
  | word read => [emit .word read]
  | string read _ => [emit .openString read]

end LexState

/-- The tokens of the rest of a source, from where the lexer stands. -/
def lexFrom : LexState → List Char → List Token
  | state, [] => state.finish
  | state, c :: cs => (state.next c).1 ++ lexFrom (state.next c).2 cs

def lex (source : String) : List Token :=
  lexFrom .between source.toList

end Redex
