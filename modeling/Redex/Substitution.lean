import Redex.Assoc
import Redex.Expr.Basic

/-!
# Substitution

Application fills in a closure's body: every symbol that the substitution binds is replaced. A
name that is marked for splicing and bound to a sequence hands its items on to the sequence
around it. The parameters of a closure, and of a `lambda` form that is still unexpanded, hide the
outer bindings. Nothing is renamed, so an argument may be captured by an inner parameter. A
substitution that binds nothing leaves an expression untouched; any other makes a new sequence out
of every sequence it goes through.
-/

namespace Redex

/-- The head of an unexpanded closure. -/
def lambdaName : String := "lambda"

/-- The names that the parameter list of an unexpanded closure binds. -/
def literalParamNames : Expr → List String
  | .symbol name => [name]
  | .sequence items => items.filterMap Expr.symbolName?
  | .answered e => literalParamNames e
  | _ => []

/-- What to put in the place of names. -/
structure Substitution where
  bindings : List (String × Expr)
  -- The names whose sequences are spliced into the sequence around them.
  splice : List String
  deriving Inhabited

namespace Substitution

/-- The substitution without the given names. -/
def hide (σ : Substitution) (names : List String) : Substitution :=
  ⟨Assoc.without names σ.bindings, σ.splice.filter fun name => !names.contains name⟩

/-- The items that a symbol hands on to the sequence around it. -/
def spliced? (σ : Substitution) : Expr → Option (List Expr)
  | .symbol name =>
    if σ.splice.contains name then
      match σ.bindings.lookup name with
      | some (.sequence items) => some items
      | _ => none
    else none
  | _ => none

/-- What an item of a sequence becomes, given what it becomes by itself. -/
def item (σ : Substitution) (e replaced : Expr) : List Expr :=
  (σ.spliced? e).getD [replaced]

mutual

def apply (σ : Substitution) : Expr → Expr
  | .symbol name => (σ.bindings.lookup name).getD (.symbol name)
  | .sequence items => .sequence (applyItems σ true items)
  | .closure params body name => .closure params (apply (σ.hide params.names) body) name
  | .answered e => if σ.bindings.isEmpty then .answered e else apply σ e
  | e => e
termination_by structural e => e

/-- The items of a sequence with the bound symbols replaced; `opening` says that the sequence
starts here. What follows the parameters of an unexpanded closure counts as a sequence of its
own. -/
def applyItems (σ : Substitution) (opening : Bool) : List Expr → List Expr
  | [] => []
  | head :: rest =>
    if opening && head.isSymbol lambdaName then
      match rest with
      | [] => σ.item head (apply σ head)
      | spec :: body => head :: spec :: applyItems (σ.hide (literalParamNames spec)) true body
    else σ.item head (apply σ head) ++ applyItems σ false rest
termination_by structural items => items

end

end Substitution

end Redex
