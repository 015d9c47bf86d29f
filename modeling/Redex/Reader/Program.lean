import Redex.Error
import Redex.Reader.Lexer

/-!
# Reading a program

The reader takes the tokens one by one and keeps the groups that are still open. It never fails:
a closer without its group and a string without its end are skipped, and a group that the source
leaves open ends with it. Each of these repairs marks the reading as truncated, and strict
reading rejects a truncated one.
-/

namespace Redex

/-- What has been read so far. All lists have the newest item first. -/
structure Reading where
  -- The items of the open groups, the innermost group first.
  groups : List (List Expr)
  forms : List Expr
  -- Something had to be repaired.
  truncated : Bool
  deriving Inhabited

namespace Reading

def empty : Reading :=
  ⟨[], [], false⟩

/-- The sequence of the items of a group that ends here. -/
def group (items : List Expr) : Expr :=
  .sequence items.reverse

/-- A complete expression becomes an item of the innermost open group, or a form. -/
def add (e : Expr) (r : Reading) : Reading :=
  match r.groups with
  | [] => { r with forms := e :: r.forms }
  | items :: groups => { r with groups := (e :: items) :: groups }

def take (r : Reading) (t : Token) : Reading :=
  match t.kind with
  | .opening => { r with groups := [] :: r.groups }
  | .closing =>
    match r.groups with
    | [] => { r with truncated := true }
    | items :: groups => add (group items) { r with groups := groups }
  | .openString => { r with truncated := true }
  | .string => add (Token.bake t.text) r
  | .word => add (Token.bake t.text) r

/-- The expression of open groups that all end here, the innermost given by its items. -/
def closeGroups (items : List Expr) : List (List Expr) → Expr
  | [] => group items
  | outer :: groups => closeGroups (group items :: outer) groups

def program (r : Reading) : Program :=
  match r.groups with
  | [] => r.forms.reverse
  | items :: groups => (closeGroups items groups :: r.forms).reverse

/-- Whether anything had to be repaired, now that the source ends. -/
def isTruncated (r : Reading) : Bool :=
  r.truncated || !r.groups.isEmpty

end Reading

def readTokens (tokens : List Token) : Reading :=
  tokens.foldl Reading.take Reading.empty

/-- Reads a source into its program; strict reading rejects a source that needs repairs. -/
def readProgram (strict : Bool) (source : String) : Except Error Program :=
  let reading := readTokens (lex source)
  if strict && reading.isTruncated then .error .unbalanced else .ok reading.program

end Redex
