import Redex.Environment.Basic

/-!
# One step

The vocabulary of stepping: what a step gives, how a special form answers for its call, and how
a pass over a tree reports a change. A change is *visible* when it counts as a step, and *silent*
when it only prepares one.
-/

namespace Redex

/-- Stepping may fail, and may bind names in the user layer. A failure keeps the layer as it was
when the step failed. -/
abbrev Stepping := ExceptT Error (StateM Environment)

/-- The result of a step. Without a step the displayed tree is the same. -/
structure Step where
  stepped : Bool
  expr : Expr
  deriving Inhabited

/-- The answer of a special form for the whole, unreduced call. -/
inductive Outcome where
  | becomes (e : Expr)
  -- The call is not ready and stays for this step.
  | deferred
  | failed (e : Error)
  deriving Inhabited

/-- What a pass made of a tree or of a list of trees. -/
inductive Change (α : Type) where
  | unchanged
  -- A rule answered with what stands there already: nothing changed, and the pass ends.
  | idle
  -- Something changed that does not count as a step.
  | silent (a : α)
  | visible (a : α)
  deriving Inhabited

namespace Change

def map {α β : Type} (f : α → β) : Change α → Change β
  | unchanged => unchanged
  | idle => idle
  | silent a => silent (f a)
  | visible a => visible (f a)

/-- What a pass makes of a list, given what it makes of its head and, unless that ended the pass, of
its tail: a step ends the pass, and the rest stays as it is. An idle answer behind a silent change
makes the change a step. -/
def cons {α : Type} (head : α) (tail : List α) (first : Change α)
    (others : Change (List α)) : Change (List α) :=
  match first, others with
  | visible a, _ => visible (a :: tail)
  | idle, _ => idle
  | silent a, unchanged => silent (a :: tail)
  | silent a, idle => visible (a :: tail)
  | silent a, silent as => silent (a :: as)
  | silent a, visible as => visible (a :: as)
  | unchanged, others => others.map (head :: ·)

def endsPass {α : Type} : Change α → Bool
  | visible _ => true
  | idle => true
  | _ => false

/-- What a pass made of a sequence, given what it made of its items. Around its sequence an idle
answer does not count. -/
def enclose : Change (List Expr) → Change Expr
  | unchanged => unchanged
  | idle => unchanged
  | silent items => silent (.sequence (rebuild items))
  | visible items => visible (.sequence (rebuild items))

end Change

/-- Fails with the error of a computation that does not touch the user layer. -/
def Stepping.lift {α : Type} (result : Except Error α) : Stepping α :=
  match result with
  | .ok a => pure a
  | .error e => throw e

def Stepping.define (name : String) (value : Expr) : Stepping Unit := do
  let env ← get
  let user ← lift (env.user.define name value)
  set { env with user }

/-- Binds names in the user layer, one after the other. -/
def Stepping.update : List (String × Expr) → Stepping Unit
  | [] => pure ()
  | (name, value) :: pairs => do
    define name value
    update pairs

end Redex
