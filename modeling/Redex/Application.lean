import Redex.Struct
import Redex.Substitution

/-!
# Application

A call whose head is a procedure and whose arguments are done is replaced in one go: a native
procedure gives its result, and a closure its body with the arguments in the place of the
parameters.
-/

namespace Redex

/-- The substitution of arguments for parameters. A parameter that collects all arguments is bound
to their sequence and spliced. -/
def bindArguments : Params → List Expr → Substitution
  | .fixed names, args => ⟨Assoc.ofList (pairArguments names args), []⟩
  | .collect name, args => ⟨[(name, .sequence args)], [name]⟩

/-- The result of applying the head of a call to its arguments. -/
def applyCall (head : Expr) (args : List Expr) : Except Error Expr :=
  match head with
  | .native p => p.call args
  | .closure params body _ => .ok ((bindArguments params args).apply body)
  | head => .error (.notFunction head)

end Redex
