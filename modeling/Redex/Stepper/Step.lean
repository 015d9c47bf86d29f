import Redex.Stepper.Reduction
import Redex.Stepper.SpecialForms

/-!
# Stepping

A step makes at most one visible change, in two passes. The first expands the leftmost special
form that is ready, anywhere outside other special forms; if none was a step, the second reduces.
A closure that was built and not applied in the same step is a visible change by itself.
-/

namespace Redex

/-- The second pass over `e`, given what the first has made of it. -/
def settle (macros : MacroTable) (e : Expr) : Change Expr → Stepping Step
  | .visible e' => return ⟨true, e'⟩
  | .idle => return ⟨true, e⟩
  | .silent e' => do
    let reduced ← Stepping.lift (reduce macros (← get) e')
    return ⟨true, reduced.expr⟩
  | .unchanged => do Stepping.lift (reduce macros (← get) e)

/-- A pass over a list, from its head on: the tail is visited unless the head ended the pass. -/
def consPass (head : Expr) (tail : List Expr) (first : Stepping (Change Expr))
    (others : Stepping (Change (List Expr))) : Stepping (Change (List Expr)) := do
  let a ← first
  if a.endsPass then return Change.cons head tail a .unchanged
  return Change.cons head tail a (← others)

mutual

/-- Expands the leftmost special form that is ready. The arguments of a special form are left to
its rule; the items of any other sequence are visited in order. -/
def expand (macros : MacroTable) : Expr → Stepping (Change Expr)
  | .sequence (head :: args) =>
    match macros.rule? head with
    | some rule => do
      SpecialForm.conclude head
        (← SpecialForm.run macros rule head args (stepFirst macros args) (stepLast macros args))
    | none => do
      return (← consPass head args (expand macros head) (expandItems macros args)).enclose
  | .answered e => return SpecialForm.standing macros e
  | _ => return .unchanged
termination_by structural e => e

/-- Expands the leftmost special form that is ready in a list of items. -/
def expandItems (macros : MacroTable) : List Expr → Stepping (Change (List Expr))
  | [] => return .unchanged
  | item :: rest => consPass item rest (expand macros item) (expandItems macros rest)
termination_by structural items => items

/-- Steps the first of the arguments. -/
def stepFirst (macros : MacroTable) : List Expr → Stepping Step
  | [] => return ⟨false, .undefined⟩
  | arg :: _ => do settle macros arg (← expand macros arg)
termination_by structural args => args

/-- Steps the last of the arguments. -/
def stepLast (macros : MacroTable) : List Expr → Stepping Step
  | [] => return ⟨false, .undefined⟩
  | arg :: rest =>
    match rest with
    | [] => do settle macros arg (← expand macros arg)
    | _ :: _ => stepLast macros rest
termination_by structural args => args

end

def step (macros : MacroTable) (e : Expr) : Stepping Step := do
  settle macros e (← expand macros e)

/-- Steps the leftmost top-level form that can step. -/
def stepForms (macros : MacroTable) : List Expr → Stepping (Bool × List Expr)
  | [] => return (false, [])
  | form :: rest => do
    let first ← step macros form
    if first.stepped then return (true, first.expr :: rest)
    let (stepped, results) ← stepForms macros rest
    return (stepped, first.expr :: results)

/-- Steps a program once: its leftmost form that can step. The program itself is never applied,
and the results of definitions leave it. -/
def stepProgram (macros : MacroTable) (program : Program) : Stepping (Bool × Program) := do
  let (stepped, results) ← stepForms macros program
  return (stepped, rebuild results)

end Redex
