import Redex.Stepper.Step

/-!
# Evaluation

Stepping until no step occurs. A program need not have such an end, so a run is given a budget of
rounds, and `none` says that the budget ran out before the end; a value and a failure are the two
ends.
-/

namespace Redex

/-- The result of stepping in an environment, and the environment left behind. -/
def Stepping.exec {α : Type} (m : Stepping α) (env : Environment) : Except Error α × Environment :=
  (ExceptT.run m).run env

/-- A run that came to its end. -/
structure Run (α : Type) where
  outcome : Except Error α
  env : Environment
  steps : Nat

/-- Steps until no step occurs, within a budget of rounds; `steps` have been made before. -/
def runFrom {α : Type} (next : α → Stepping (Bool × α)) :
    Nat → Nat → α → Environment → Option (Run α)
  | 0, _, _, _ => none
  | budget + 1, steps, a, env =>
    match (next a).exec env with
    | (.error e, env) => some ⟨.error e, env, steps⟩
    | (.ok (true, a), env) => runFrom next budget (steps + 1) a env
    | (.ok (false, a), env) => some ⟨.ok a, env, steps⟩

def evaluate (macros : MacroTable) (budget : Nat) (program : Program) (env : Environment) :
    Option (Run Program) :=
  runFrom (stepProgram macros) budget 0 program env

def evaluateExpr (macros : MacroTable) (budget : Nat) (e : Expr) (env : Environment) :
    Option (Run Expr) :=
  runFrom (fun e => do let s ← step macros e; return (s.stepped, s.expr)) budget 0 e env

end Redex
