import Redex.Expr.Basic
import Redex.Number.Format
import Redex.Text.Literal

/-!
# Inspected text

The text of an expression as error messages show it, which names the kind of every value that
the surface text leaves open.
-/

namespace Redex.Expr

def inspectParams : Params → String
  | .fixed names => "(" ++ " ".intercalate names ++ ")"
  | .collect name => name

mutual

def inspect : Expr → String
  | number x => Number.literal x
  | text s => Text.inspectedLiteral s
  | boolean b => if b then "True" else "False"
  | symbol name => "Symbol(" ++ Text.inspectedLiteral name ++ ")"
  | sequence items => "[" ++ ", ".intercalate (inspectAll items) ++ "]"
  | native p => "<native " ++ p.name ++ ">"
  | closure params body _ => "(λ " ++ inspectParams params ++ " " ++ inspect body ++ ")"
  | struct tag fields => "Struct(" ++ Text.inspectedLiteral tag ++ inspectFields fields ++ ")"
  | quoted e => "Quoted(" ++ inspect e ++ ")"
  | answered e => inspect e
  | undefined => "Undefined"
  | absent => "None"

def inspectAll : List Expr → List String
  | [] => []
  | e :: es => inspect e :: inspectAll es

/-- The inspected fields of a struct, each after a comma. -/
def inspectFields : List (String × Expr) → String
  | [] => ""
  | (name, e) :: fields => ", " ++ name ++ "=" ++ inspect e ++ inspectFields fields

end

/-- The plain text of an expression: a text and a symbol's name stand for themselves, all else is
inspected. -/
def plain : Expr → String
  | text s => s
  | symbol name => name
  | e => inspect e

/-- The values that stand for an absence: `#f`, zero, the empty text, the empty sequence, the
result of a definition, and no value. -/
def isVacant : Expr → Bool
  | number x => x == 0.0
  | text s => s.isEmpty
  | boolean b => !b
  | sequence items => items.isEmpty
  | answered e => e.isVacant
  | undefined => true
  | absent => true
  | _ => false

end Redex.Expr
