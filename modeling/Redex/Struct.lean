import Redex.Assoc
import Redex.Builtin.Operators

/-!
# Structs

A struct definition makes a constructor, a predicate and one accessor per field. The constructor
fills missing fields with `#f`; the predicate and the accessors go by the tag.
-/

namespace Redex

/-- Each name with the argument in its position; a missing argument is `#f`, and one too many is
dropped. -/
def pairArguments : List String → List Expr → List (String × Expr)
  | [], _ => []
  | name :: names, [] => (name, .boolean false) :: pairArguments names []
  | name :: names, arg :: args => (name, arg) :: pairArguments names args

namespace Native

def isStruct (tag : String) : Expr → Bool
  | .struct other _ => other == tag
  | _ => false

def access (tag field : String) (e : Expr) : Except Error Expr :=
  match e with
  | .struct other fields =>
    if other == tag then
      match fields.lookup field with
      | some value => .ok value
      | none => .error (.missingField field)
    else .error (.notStruct tag field e)
  | e => .error (.notStruct tag field e)

def call : Native → List Expr → Except Error Expr
  | builtin b, args => b.call args
  | constructor tag fields, args =>
    .ok (.struct tag (Assoc.ofList (pairArguments fields args)))
  | predicate tag, args => .ok (.boolean ((args.head?.map (isStruct tag)).getD false))
  | accessor tag field, args => access tag field (args.head?.getD .undefined)

end Native

def structProcedures (tag : String) (fields : List String) : List (String × Expr) :=
  let procedures :=
    Native.constructor tag fields :: Native.predicate tag :: fields.map (Native.accessor tag)
  Assoc.ofList (procedures.map fun p => (p.name, .native p))

end Redex
