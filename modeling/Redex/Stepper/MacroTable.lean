import Redex.Expr.Basic

/-!
# Macro tables

A macro table says which heads make a call a special form, and by which rule the form is
expanded. The standard table holds the six forms of the language; a table of one's own may also
hold rules with a fixed answer.
-/

namespace Redex

/-- The rules by which special forms are expanded. -/
inductive MacroRule where
  -- `(define name value)` and `(define (name param …) body)`.
  | define
  -- `(lambda params body)`.
  | lambda
  -- `(if test then else)`.
  | conditional
  -- `(apply function argument … arguments)`.
  | spread
  -- `(list item …)`.
  | list
  -- `(define-struct name field …)`.
  | defineStruct
  -- Becomes a fixed expression.
  | constant (e : Expr)
  -- Never becomes ready.
  | defer
  -- Always malformed, for the given reason.
  | reject (reason : String)
  deriving Inhabited

/-- The rules of special forms by the names of their heads. -/
abbrev MacroTable := List (String × MacroRule)

namespace MacroTable

def standard : MacroTable :=
  [("define", .define), ("lambda", .lambda), ("if", .conditional), ("apply", .spread),
    ("list", .list), ("define-struct", .defineStruct)]

/-- The rule for a head, if it makes a call a special form. -/
def rule? (macros : MacroTable) : Expr → Option MacroRule
  | .symbol name => macros.lookup name
  | _ => none

def isMacroCall (macros : MacroTable) : List Expr → Bool
  | head :: _ => (macros.rule? head).isSome
  | [] => false

end MacroTable

end Redex
