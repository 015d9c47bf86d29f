import Redex.Expr.Basic
import Redex.Number.Format
import Redex.Text.Literal

/-!
# Surface text

The text of an expression as a program shows it: `#t` and `#f`, numbers by their surface text,
texts as surface literals, symbols and procedures by name, structs as `<tag v₁ v₂ …>` and
sequences in parentheses. The result of a definition shows as nothing, and no value as `None`.
-/

namespace Redex

namespace Expr

mutual

def surface : Expr → String
  | number x => Number.surface x
  | text s => Text.surfaceLiteral s
  | boolean b => if b then "#t" else "#f"
  | symbol name => name
  | sequence items => "(" ++ " ".intercalate (surfaceAll items) ++ ")"
  | native p => p.name
  | closure _ _ name => name
  | struct tag fields => "<" ++ " ".intercalate (tag :: surfaceFields fields) ++ ">"
  | quoted e => "'" ++ surface e
  | answered e => surface e
  | undefined => ""
  | absent => "None"

def surfaceAll : List Expr → List String
  | [] => []
  | e :: es => surface e :: surfaceAll es

def surfaceFields : List (String × Expr) → List String
  | [] => []
  | (_, e) :: fields => surface e :: surfaceFields fields

end

end Expr

/-- The surface text of a program: one line per top-level form. -/
def Program.surface (program : Program) : String :=
  "\n".intercalate (Expr.surfaceAll program)

end Redex
