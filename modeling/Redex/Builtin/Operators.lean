import Redex.Builtin.Math

/-!
# Calling a built-in procedure

Every operand is coerced to a number, leniently: a text gives the number it starts with, and what
is no number gives `nan`, which arithmetic hands on.
-/

namespace Redex

namespace Expr

def toNumber : Expr → Float
  | number x => x
  | text s => Number.ofTextStart s.toList
  | _ => Number.nan

end Expr

namespace Builtin

/-- The operand at a position; a missing one is `nan`. -/
def operand (args : List Expr) (i : Nat) : Float :=
  (args[i]?.map Expr.toNumber).getD Number.nan

/-- The result of a comparison of the first two operands. -/
def compare (test : Float → Float → Bool) (args : List Expr) : Expr :=
  .boolean (test (operand args 0) (operand args 1))

/-- The result of an operation on the first two operands. -/
def calculate (op : Float → Float → Float) (args : List Expr) : Expr :=
  .number (op (operand args 0) (operand args 1))

/-- The result of `not`: whether the first argument is there and false. -/
def negate : List Expr → Expr
  | e :: _ => .boolean e.isFalse
  | [] => .boolean false

def call : Builtin → List Expr → Except Error Expr
  | greater, args => .ok (compare (fun x y => y < x) args)
  | less, args => .ok (compare (fun x y => x < y) args)
  | atLeast, args => .ok (compare (fun x y => y ≤ x) args)
  | atMost, args => .ok (compare (fun x y => x ≤ y) args)
  | equal, args => .ok (compare (fun x y => x == y) args)
  | equalSign, args => .ok (compare (fun x y => x == y) args)
  | add, args => .ok (calculate (· + ·) args)
  | subtract, args => .ok (calculate (· - ·) args)
  | multiply, args => .ok (calculate (· * ·) args)
  | divide, args => .ok (calculate (· / ·) args)
  | not, args => .ok (negate args)
  | math f, args => f.eval (args.map fun e => Number.dropZeroSign e.toNumber)

end Builtin

end Redex
