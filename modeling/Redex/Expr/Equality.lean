import Redex.Error
import Redex.Expr.Inspect

/-!
# Equality of expressions

Two expressions are equal when they have the same shape and equal parts, where a Boolean counts
as the number 0 or 1, numbers compare as numbers (so `nan` equals nothing and both zeros are
equal), and the fields of a struct are compared by name in any order. A set of expressions
identifies equal members, but it keeps quoted expressions apart when their inspected texts
differ, and it refuses sequences.
-/

namespace Redex.Expr

/-- The number that an expression counts as in a comparison. -/
def numeric? : Expr → Option Float
  | number x => some x
  | boolean b => some (if b then 1.0 else 0.0)
  | _ => none

mutual

def equal : Expr → Expr → Bool
  | number x, other =>
    match numeric? other with
    | some y => x == y
    | none => false
  | boolean b, other =>
    match numeric? other with
    | some y => (if b then 1.0 else 0.0) == y
    | none => false
  | text s, text t => s == t
  | symbol a, symbol b => a == b
  | sequence xs, sequence ys => equalAll xs ys
  | native p, native q => p == q
  | closure ps body name, closure qs body' name' => name == name' && ps == qs && equal body body'
  | struct tag fields, struct tag' fields' =>
    tag == tag' && fields.length == fields'.length && equalFields fields fields'
  | quoted a, quoted b => equal a b
  | answered a, answered b => equal a b
  | undefined, undefined => true
  | absent, absent => true
  | _, _ => false

/-- Equality of the items of two sequences, position by position. -/
def equalAll : List Expr → List Expr → Bool
  | [], [] => true
  | x :: xs, y :: ys => equal x y && equalAll xs ys
  | _, _ => false

/-- Every field on the left has an equal value under its name on the right. -/
def equalFields : List (String × Expr) → List (String × Expr) → Bool
  | [], _ => true
  | (name, x) :: fields, others =>
    (match others.lookup name with
      | some y => equal x y
      | none => false) && equalFields fields others

end

/-- A sequence cannot be the member of a set. -/
def isSequence : Expr → Bool
  | sequence _ => true
  | answered e => e.isSequence
  | _ => false

/-- Whether a set takes two equal members for one. -/
def sameMember : Expr → Expr → Bool
  | quoted a, quoted b => equal a b && inspect a == inspect b
  | a, b => equal a b

/-- The number of members of the set of two expressions. -/
def distinct (a b : Expr) : Except Error Nat :=
  if a.isSequence || b.isSequence then .error .sequenceInSet
  else .ok (if sameMember a b then 1 else 2)

end Redex.Expr
