import Redex.Stepper.Basic
import Redex.Stepper.Unbound
import Redex.Struct

/-!
# Special forms

The rules by which special forms are expanded. A rule is given the head of the call, its
arguments as they are written, and where it needs them the steps of single arguments, which it
may take or leave.
-/

namespace Redex

/-- The symbol that marks a parameter list `(. rest)`. -/
def dotName : String := "."

/-- The names of symbols; the first item that is none is an error. -/
def symbolNames (wrong : Expr → Error) : List Expr → Except Error (List String)
  | [] => .ok []
  | .symbol name :: items => do return name :: (← symbolNames wrong items)
  | item :: _ => .error (wrong item)

/-- The parameters that the items of a parameter list stand for. -/
def Params.ofItems (items : List Expr) : Except Error Params :=
  if items.any (Expr.isSymbol dotName) then
    match items with
    | [dot, .symbol rest] =>
      if dot.isSymbol dotName then .ok (.collect rest) else .error .dottedParams
    | _ => .error .dottedParams
  else do return .fixed (← symbolNames .paramNotSymbol items)

/-- The parameters that a parameter list stands for: a symbol and `(. rest)` collect all
arguments. -/
def Params.ofSpec : Expr → Except Error Params
  | .symbol name => .ok (.collect name)
  | .sequence items => Params.ofItems items
  | spec => .error (.paramList spec)

namespace SpecialForm

def outcome : Except Error Expr → Outcome
  | .ok e => .becomes e
  | .error e => .failed e

/-- The closure of a `lambda` form, as written; evaluates nothing. -/
def lambda : List Expr → Outcome
  | [] => .failed .lambdaParts
  | spec :: rest =>
    outcome ((Params.ofSpec spec).map fun params =>
      .closure params (rest.head?.getD .undefined) Expr.anonymous)

/-- What a `define` form binds: the name, and the value as written or the closure of the function
shorthand. -/
def definition : List Expr → Except Error (String × Expr)
  | .sequence (.symbol name :: params) :: value :: _ => do
    return (name, .closure (← Params.ofItems params) value name)
  | .sequence _ :: _ :: _ => .error .defineFunctionName
  | .symbol name :: value :: _ => .ok (name, value)
  | target :: _ :: _ => .error (.notBindable target)
  | _ => .error .defineParts

/-- Binds what a `define` form defines, and leaves no value behind. -/
def define (args : List Expr) : Stepping Outcome := do
  match definition args with
  | .error e => return .failed e
  | .ok (name, value) =>
    Stepping.define name value
    return .becomes .undefined

/-- The tag and the fields of a `define-struct` form, whose fields may stand in one sequence. -/
def structDefinition : List Expr → Except Error (String × List String)
  | [.symbol tag, .sequence fields] => do return (tag, ← symbolNames .structField fields)
  | .symbol tag :: fields => do return (tag, ← symbolNames .structField fields)
  | _ => .error .structName

/-- Binds the procedures of a `define-struct` form, and leaves no value behind. -/
def defineStruct (args : List Expr) : Stepping Outcome := do
  match structDefinition args with
  | .error e => return .failed e
  | .ok (tag, fields) =>
    Stepping.update (structProcedures tag fields)
    return .becomes .undefined

/-- Chooses a branch of an `if` form, or steps its test once. A test with an unbound symbol is
still waiting for a substitution and defers the form; one that cannot step and is not false counts
as true. -/
def conditional (macros : MacroTable) (head : Expr) (args : List Expr) (stepTest : Stepping Step) :
    Stepping Outcome := do
  match args with
  | test :: thenBranch :: rest =>
    if test.isFalse then return .becomes (rest.head?.getD (.boolean false))
    match test with
    | .boolean true => return .becomes thenBranch
    | test =>
      if mentionsUnbound (← get) macros [] test then return .deferred
      let step ← stepTest
      if step.stepped then
        return .becomes (.sequence (head :: step.expr :: thenBranch :: rest))
      return .becomes thenBranch
  | _ => return .failed .ifParts

/-- Steps the function of an `apply` form, then its last argument, and when they are a procedure
and a sequence becomes the plain call. -/
def spread (head : Expr) (args : List Expr) (stepFunction stepLast : Stepping Step) :
    Stepping Outcome := do
  match args with
  | _ :: arg :: more =>
    let rest := arg :: more
    let function ← stepFunction
    if function.stepped then return .becomes (.sequence (head :: function.expr :: rest))
    if !function.expr.isFunction then return .deferred
    let last ← stepLast
    let lead := rest.dropLast
    if last.stepped then
      return .becomes (.sequence (head :: function.expr :: lead ++ [last.expr]))
    match last.expr with
    | .sequence items => return .becomes (.sequence (function.expr :: lead ++ items))
    | _ => return .deferred
  | _ => return .deferred

/-- The answer of a rule that is fixed; one that calls the rule again is marked. -/
def constant (head : Expr) : Expr → Expr
  | .sequence (first :: rest) =>
    let answer := .sequence (first :: rest)
    if first.symbolName? = head.symbolName? then .answered answer else answer
  | e => e

def run (macros : MacroTable) (rule : MacroRule) (head : Expr) (args : List Expr)
    (stepFirst stepLast : Stepping Step) : Stepping Outcome :=
  match rule with
  | .define => define args
  | .lambda => return lambda args
  | .conditional => conditional macros head args stepFirst
  | .spread => spread head args stepFirst stepLast
  | .list => return .becomes (.sequence args)
  | .defineStruct => defineStruct args
  | .constant e => return .becomes (constant head e)
  | .defer => return .deferred
  | .reject reason => return .failed (.rejected reason)

/-- Takes up the answer of a rule. Expanding a `lambda` form only builds its closure and is
silent; every other expansion is a step. -/
def conclude (head : Expr) : Outcome → Stepping (Change Expr)
  | .becomes e => return if head.isSymbol lambdaName then .silent e else .visible e
  | .deferred => return .unchanged
  | .failed e => throw e

/-- What the rule of a fixed answer makes of the answer that it has put there. -/
def standing (macros : MacroTable) : Expr → Change Expr
  | .sequence (head :: _) =>
    match macros.rule? head with
    | some (.constant _) => if head.isSymbol lambdaName then .unchanged else .idle
    | _ => .unchanged
  | _ => .unchanged

end SpecialForm

end Redex
