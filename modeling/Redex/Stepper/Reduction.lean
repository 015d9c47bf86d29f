import Redex.Application
import Redex.Stepper.Basic
import Redex.Stepper.MacroTable

/-!
# The reduction pass

Looks symbols up and applies the leftmost call whose items are done. Replacing a symbol by a
procedure does not count as a step, so that a call shows only as its application. The pass reads
the layers and changes nothing in them.
-/

namespace Redex

mutual

def reduce (macros : MacroTable) (env : Environment) : Expr → Except Error Step
  | .symbol name =>
    match env.get? name with
    | some value => .ok ⟨!value.isFunction, value⟩
    | none => .ok ⟨false, .symbol name⟩
  | .sequence items =>
    if macros.isMacroCall items then .ok ⟨false, .sequence items⟩
    else do
      let (stepped, results) ← reduceItems macros env items
      if stepped then return ⟨true, .sequence (rebuild results)⟩
      match rebuild results with
      | [] => return ⟨false, .sequence items⟩
      | head :: args =>
        if head.isFunction then return ⟨true, ← applyCall head args⟩
        return ⟨false, .sequence items⟩
  | e => .ok ⟨false, e⟩
termination_by structural e => e

/-- Reduces the first item that can step; the items before it may become procedures, and the items
after it stay. -/
def reduceItems (macros : MacroTable) (env : Environment) :
    List Expr → Except Error (Bool × List Expr)
  | [] => .ok (false, [])
  | item :: rest => do
    let first ← reduce macros env item
    if first.stepped then return (true, first.expr :: rest)
    let (stepped, results) ← reduceItems macros env rest
    return (stepped, first.expr :: results)
termination_by structural items => items

end

end Redex
