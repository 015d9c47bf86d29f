import Redex.Expr.Inspect
import Redex.Expr.Printer

/-!
# Errors

Every way in which reading, stepping or a driver can fail, as a cause with its data. The wording
stands in `Error.message` alone. Most causes are reported to the user as a failed result under a
label; the three that come from the data inside a procedure call are not caught by any report.
-/

namespace Redex

/-- The causes of failure. -/
inductive Error where
  -- Strict reading met a group without its bracket or a string without its quote.
  | unbalanced
  | defineParts
  | defineFunctionName
  -- Something other than a symbol was to be bound.
  | notBindable (target : Expr)
  -- A parameter list is neither a symbol nor a sequence.
  | paramList (spec : Expr)
  -- A dot stands in a parameter list that is not `(. rest)`.
  | dottedParams
  | paramNotSymbol (param : Expr)
  | lambdaParts
  | ifParts
  | structName
  | structField (field : Expr)
  | rejected (reason : String)
  | frozen (name : String)
  -- An accessor was given something other than a struct of its tag.
  | notStruct (tag field : String) (actual : Expr)
  | notFunction (head : Expr)
  | cancelled (session : Nat)
  -- A struct of the accessor's tag has no such field.
  | missingField (field : String)
  -- The logarithm of the base of a logarithm is zero.
  | zeroLogarithm
  -- A sequence was to be put into a set.
  | sequenceInSet
  deriving Inhabited

namespace Error

/-- The families of failure that a report tells apart. -/
inductive Kind where
  -- Source text or a special form is malformed.
  | malformed
  -- A procedure met a value of the wrong kind.
  | mismatch
  | cancelled
  | general
  -- Not caught by a report.
  | uncaught
  deriving DecidableEq, Inhabited

def kind : Error → Kind
  | frozen _ => .general
  | notStruct .. => .mismatch
  | notFunction _ => .mismatch
  | cancelled _ => .cancelled
  | missingField _ => .uncaught
  | zeroLogarithm => .uncaught
  | sequenceInSet => .uncaught
  | _ => .malformed

def Kind.label : Kind → String
  | malformed => "StepwiseSyntaxError"
  | mismatch => "StepwiseTypeError"
  | cancelled => "EvaluationCancelled"
  | general => "StepwiseError"
  | uncaught => "Error"

/-- A cause that a report covers. -/
def isReported (e : Error) : Bool :=
  e.kind != .uncaught

/-- What an accessor says it was given; a value without text is nothing. -/
def given (actual : Expr) : String :=
  let shown := actual.surface
  if shown.isEmpty then "nothing" else shown

def message : Error → String
  | unbalanced => "Unbalanced group or unterminated string in source"
  | defineParts => "define requires a name and a value"
  | defineFunctionName => "define requires a function name"
  | notBindable target => "Cannot define " ++ target.inspect ++ " as a symbol"
  | paramList spec => "Malformed parameter list: " ++ spec.inspect
  | dottedParams => "Only (. rest) is supported as a dotted parameter list"
  | paramNotSymbol param => "Parameter must be a symbol, got " ++ param.inspect
  | lambdaParts => "lambda requires at least a parameter list"
  | ifParts => "if requires a test and a then-branch"
  | structName => "define-struct requires a struct name"
  | structField field => "define-struct field must be a symbol, got " ++ field.inspect
  | rejected reason => reason
  | frozen name => "Cannot define " ++ name ++ " in a frozen environment"
  | notStruct tag field actual =>
    tag ++ "-" ++ field ++ ": expected a " ++ tag ++ ", given " ++ given actual
  | notFunction head => "Cannot apply non-function " ++ head.inspect
  | cancelled session => "Evaluation session " ++ toString session ++ " was cancelled"
  | missingField field => Text.inspectedLiteral field
  | zeroLogarithm => "float division by zero"
  | sequenceInSet => "unhashable type: 'list'"

/-- What a value was expected to be and what it was, for the causes of a mismatch. -/
def mismatch? : Error → Option (String × Expr)
  | notStruct tag _ actual => some (tag, actual)
  | notFunction head => some ("function", head)
  | _ => none

end Error

end Redex
