import Redex.Environment.Basic
import Redex.Stepper.MacroTable
import Redex.Substitution

/-!
# Unbound symbols

Whether an expression mentions a symbol that is bound nowhere: neither in the layers nor as a
special form. Parameters count as bound inside their closures, expanded or not.
-/

namespace Redex

/-- The symbol of the given name is bound. A binding to no value hides a special form. -/
def isBound (env : Environment) (macros : MacroTable) (name : String) : Bool :=
  match lookupIn env.layers name with
  | some e => !e.isAbsent
  | none => (macros.lookup name).isSome

mutual

/-- The expression mentions a symbol that is bound nowhere; `params` are the parameters around
it. -/
def mentionsUnbound (env : Environment) (macros : MacroTable) (params : List String) :
    Expr → Bool
  | .symbol name => !params.contains name && !isBound env macros name
  | .sequence items => itemsMentionUnbound env macros params true items
  | .closure closureParams body _ => mentionsUnbound env macros (closureParams.names ++ params) body
  | .answered e => mentionsUnbound env macros params e
  | _ => false
termination_by structural e => e

/-- Some item mentions a symbol that is bound nowhere; `opening` says that the sequence starts
here. What follows the parameters of an unexpanded closure counts as a sequence of its own. -/
def itemsMentionUnbound (env : Environment) (macros : MacroTable) (params : List String)
    (opening : Bool) : List Expr → Bool
  | [] => false
  | head :: rest =>
    if opening && head.isSymbol lambdaName then
      match rest with
      | [] => mentionsUnbound env macros params head
      | spec :: body => itemsMentionUnbound env macros (literalParamNames spec ++ params) true body
    else
      mentionsUnbound env macros params head || itemsMentionUnbound env macros params false rest
termination_by structural items => items

end

end Redex
