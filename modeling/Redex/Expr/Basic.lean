import Redex.Builtin.Basic

/-!
# Expressions

The one type of forms and values: stepping replaces parts of a program in place, so what is read,
what is stepped and what a program ends with are all expressions.
-/

namespace Redex

/-- How a closure takes its arguments. -/
inductive Params where
  -- One parameter per position.
  | fixed (names : List String)
  -- One parameter that collects all arguments.
  | collect (name : String)
  deriving DecidableEq, Inhabited

def Params.names : Params → List String
  | fixed names => names
  | collect name => [name]

def Params.isVariadic : Params → Bool
  | fixed _ => false
  | collect _ => true

/-- The procedures that are no closures: the built-ins, and the three kinds that a struct
definition makes. -/
inductive Native where
  | builtin (b : Builtin)
  | constructor (tag : String) (fields : List String)
  | predicate (tag : String)
  | accessor (tag field : String)
  deriving DecidableEq, Inhabited

/-- The name under which a native procedure is bound and shown. -/
def Native.name : Native → String
  | builtin b => b.name
  | constructor tag _ => "make-" ++ tag
  | predicate tag => tag ++ "?"
  | accessor tag field => tag ++ "-" ++ field

/-- Forms and values. -/
inductive Expr where
  | number (x : Float)
  | text (s : String)
  | boolean (b : Bool)
  | symbol (name : String)
  | sequence (items : List Expr)
  | native (p : Native)
  -- A closure; its body is filled in by substitution when it is applied, and it captures no
  -- bindings.
  | closure (params : Params) (body : Expr) (name : String)
  -- A record with its fields in the order of its definition.
  | struct (tag : String) (fields : List (String × Expr))
  -- An expression that is never stepped and never substituted into.
  | quoted (e : Expr)
  -- The fixed answer of a rule that calls the rule again, in the place where the rule has put it.
  -- It shows and counts as the answer itself, and the rule leaves it as it is.
  | answered (e : Expr)
  -- The result of a definition; dropped from every sequence it lands in.
  | undefined
  -- No value, as an empty source has none. A name bound to it counts as unbound.
  | absent
  deriving Inhabited

/-- A program is the list of its top-level forms. -/
abbrev Program := List Expr

namespace Expr

/-- The name of a closure that no definition has named. -/
def anonymous : String := "<lambda>"

/-- `e` is a procedure: native or a closure. -/
def isFunction : Expr → Bool
  | native _ => true
  | closure .. => true
  | _ => false

def isUndefined : Expr → Bool
  | undefined => true
  | _ => false

/-- `e` is no value. -/
def isAbsent : Expr → Bool
  | absent => true
  | _ => false

/-- Only `#f` and the empty sequence are false. -/
def isFalse : Expr → Bool
  | boolean b => !b
  | sequence items => items.isEmpty
  | answered e => e.isFalse
  | _ => false

def symbolName? : Expr → Option String
  | symbol name => some name
  | _ => none

def isSymbol (name : String) : Expr → Bool
  | symbol other => other == name
  | _ => false

end Expr

/-- The items of a sequence as it is rebuilt: without the results of definitions. -/
def rebuild (items : List Expr) : List Expr :=
  items.filter fun e => !e.isUndefined

end Redex
