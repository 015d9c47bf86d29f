import Redex.Interpreter.Basic

/-!
# Traces

Stepping a program while showing every program on the way. What it means to show one is left to
the caller, who may collect them or print them.
-/

namespace Redex

/-- How a trace ends. -/
inductive TraceEnd where
  -- No further step occurs; the program of the last round is given.
  | fixpoint (last : Program)
  | limit
  | failed (e : Error)
  deriving Inhabited

/-- Steps at most `limit` times and shows the program after every step. -/
def traceSteps {m : Type → Type} [Monad m] (emit : Program → m Unit) :
    Nat → Program → Interpreter → m (TraceEnd × Interpreter)
  | 0, _, interp => return (.limit, interp)
  | limit + 1, program, interp =>
    match interp.stepNoted program with
    | (.error e, interp) => return (.failed e, interp)
    | (.ok (false, last), interp) => return (.fixpoint last, interp)
    | (.ok (true, next), interp) => do
      emit next
      traceSteps emit limit next interp

/-- The programs of a trace, the first one included, and how it ends. -/
def traceAll (limit : Nat) (program : Program) (interp : Interpreter) :
    List Program × TraceEnd × Interpreter :=
  let collect : Program → StateM (List Program) Unit := fun p => modify (p :: ·)
  let (result, shown) := (traceSteps collect limit program interp).run [program]
  (shown.reverse, result)

end Redex
