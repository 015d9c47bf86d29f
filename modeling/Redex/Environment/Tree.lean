import Redex.Environment.Basic

/-!
# Trees of layers

Layers that are made one after the other, each in front of an earlier one or of none. A layer is
known by its position, and since an outer layer is always an earlier one, every search ends.
-/

namespace Redex

/-- Layers with the positions of their outer layers. -/
structure LayerTree where
  nodes : List (Layer × Option Nat)
  deriving Inhabited

namespace LayerTree

/-- The tree that holds the built-in layer alone, at position zero. -/
def initial : LayerTree :=
  ⟨[(Layer.builtins, none)]⟩

def add (tree : LayerTree) (outer : Option Nat) : LayerTree :=
  ⟨tree.nodes ++ [(Layer.empty, outer)]⟩

def layer (tree : LayerTree) (i : Nat) : Layer :=
  ((tree.nodes[i]?).map Prod.fst).getD Layer.empty

def outer? (tree : LayerTree) (i : Nat) : Option Nat :=
  (tree.nodes[i]?).bind Prod.snd

/-- The layer at a position, replaced. -/
def replace (tree : LayerTree) (i : Nat) (layer : Layer) : LayerTree :=
  ⟨tree.nodes.set i (layer, tree.outer? i)⟩

/-- The nearest layer that binds a name, from a position outwards, over at most `depth` layers. -/
def findWithin (tree : LayerTree) (name : String) : Nat → Nat → Option Nat
  | 0, _ => none
  | depth + 1, i =>
    if ((tree.layer i).get? name).isSome then some i
    else (tree.outer? i).bind (tree.findWithin name depth)

/-- The position of the nearest layer that binds a name, from a position outwards. -/
def find? (tree : LayerTree) (i : Nat) (name : String) : Option Nat :=
  tree.findWithin name tree.nodes.length i

/-- The expression bound to a name, seen from a position. -/
def get? (tree : LayerTree) (i : Nat) (name : String) : Option Expr :=
  (tree.find? i name).bind fun j => (tree.layer j).get? name

end LayerTree

/-- A place to search for a name: a layer of a tree with its outer ones, or plain bindings. -/
inductive Scope where
  | layer (i : Nat)
  | bindings (entries : List (String × Expr))

/-- The expression that a symbol is bound to in the first scope that binds it. -/
def LayerTree.resolve (tree : LayerTree) (scopes : List Scope) : Expr → Option Expr
  | .symbol name =>
    scopes.findSome? fun
      | .layer i => tree.get? i name
      | .bindings entries => entries.lookup name
  | _ => none

end Redex
