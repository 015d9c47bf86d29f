import Redex.Assoc
import Redex.Error

/-!
# Environments

A layer binds names to expressions. Two layers exist while a program runs: the built-ins, which
are frozen, and the user layer in front of them, which definitions fill.
-/

namespace Redex

/-- Names bound to expressions; a frozen layer takes no more bindings. -/
structure Layer where
  bindings : List (String × Expr)
  frozen : Bool
  deriving Inhabited

namespace Layer

/-- A layer without bindings. -/
def empty : Layer :=
  ⟨[], false⟩

/-- The layer, closed to further bindings. -/
def freeze (layer : Layer) : Layer :=
  { layer with frozen := true }

def get? (layer : Layer) (name : String) : Option Expr :=
  layer.bindings.lookup name

/-- The names that the layer binds, in order of first binding. -/
def names (layer : Layer) : List String :=
  Assoc.names layer.bindings

/-- Binds a name, unless the layer is frozen. -/
def define (layer : Layer) (name : String) (value : Expr) : Except Error Layer :=
  if layer.frozen then .error (.frozen name)
  else .ok { layer with bindings := Assoc.insert name value layer.bindings }

/-- Binds the name that an expression gives: a symbol's name, or a text. -/
def defineAs (layer : Layer) (target value : Expr) : Except Error Layer :=
  match target with
  | .symbol name => layer.define name value
  | .text name => layer.define name value
  | target => .error (.notBindable target)

def update (layer : Layer) : List (String × Expr) → Except Error Layer
  | [] => .ok layer
  | (name, value) :: pairs => do (← layer.define name value).update pairs

/-- A short description: the number of bindings, and whether the layer is frozen. -/
def describe (layer : Layer) : String :=
  "<Environment " ++ toString layer.bindings.length ++ " bindings" ++
    (if layer.frozen then " (frozen)" else "") ++ ">"

/-- The layer of the built-in procedures, frozen. -/
def builtins : Layer :=
  freeze ⟨Builtin.all.map fun b => (b.name, .native (.builtin b)), false⟩

end Layer

/-- The expression bound to a name in the first of the layers that binds it. -/
def lookupIn (layers : List Layer) (name : String) : Option Expr :=
  layers.findSome? fun layer => layer.get? name

/-- The user layer in front of the built-ins. -/
structure Environment where
  user : Layer
  builtins : Layer
  deriving Inhabited

namespace Environment

def fresh : Environment :=
  ⟨Layer.empty, Layer.builtins⟩

/-- The layers in the order in which they are searched. -/
def layers (env : Environment) : List Layer :=
  [env.user, env.builtins]

/-- The expression bound to a name; a name bound to no value counts as unbound. -/
def get? (env : Environment) (name : String) : Option Expr :=
  (lookupIn env.layers name).filter fun e => !e.isAbsent

end Environment

end Redex
