import Redex.Interpreter.Basic

/-!
# Drivers

A driver steps a program on behalf of a caller and rests after every step, so that others can work
in between. It holds a layer to step in and a session, and it looks whether the session has been
cancelled before every step and after every rest. A free driver holds no session and steps without
looking.
-/

namespace Redex

/-- What a driver holds on to. -/
structure Grip where
  -- The session in whose layer the driver steps.
  layer : Nat
  -- The session that the driver looks at. A free driver has none.
  session : Option Nat
  deriving DecidableEq, Inhabited

/-- Fails if the session has been cancelled. -/
def Grip.check (grip : Grip) (interp : Interpreter) : Except Error Unit :=
  match grip.session with
  | none => .ok ()
  | some id => if (interp.session id).cancelled then .error (.cancelled id) else .ok ()

/-- What a driver takes hold of: the layer and, unless it is free, the session that are current. -/
def Interpreter.grip (interp : Interpreter) (free : Bool) : Grip :=
  ⟨interp.current, if free then none else some interp.current⟩

/-- What a driver is asked for. -/
inductive Job where
  -- One step of the program.
  | step
  -- The programs on the way, one at a time.
  | iterate
  -- The program at the end.
  | evaluate
  deriving DecidableEq, Inhabited

/-- A driver, by where it is suspended. -/
inductive Driver where
  -- The driver has not begun, and holds nothing yet.
  | unstarted (free : Bool) (program : Program)
  -- The driver waits to step the program, which it was given or has handed out.
  | poised (grip : Grip) (program : Program)
  -- The driver rests after a round, in which it may have made a step.
  | resting (grip : Grip) (stepped : Bool) (program : Program)
  | finished (outcome : Except Error (Bool × Program))
  | cancelled

/-- What a driver does with a turn. -/
inductive Action where
  -- Makes a step, and rests.
  | step (grip : Grip) (program : Program)
  -- Hands a program out, and waits until it is asked for the next.
  | handOut (grip : Grip) (program : Program)
  | finish (outcome : Except Error (Bool × Program))
  -- Ends without an outcome, since it was cancelled from outside.
  | abort
  -- Nothing: it was done before.
  | idle

namespace Driver

def isResting : Driver → Bool
  | resting .. => true
  | _ => false

def isDone : Driver → Bool
  | finished _ => true
  | cancelled => true
  | _ => false

def attempt (grip : Grip) (program : Program) (interp : Interpreter) : Action :=
  match grip.check interp with
  | .error e => .finish (.error e)
  | .ok () => .step grip program

/-- What the driver does when it is resumed. -/
def action (job : Job) : Driver → Interpreter → Action
  | unstarted free program, interp => attempt (interp.grip free) program interp
  | poised grip program, interp => attempt grip program interp
  | resting grip stepped program, interp =>
    match grip.check interp with
    | .error e => .finish (.error e)
    | .ok () =>
      match job, stepped with
      | .iterate, true => .handOut grip program
      | .evaluate, true => attempt grip program interp
      | _, stepped => .finish (.ok (stepped, program))
  | _, _ => .idle

/-- The driver and the interpreter after an action. -/
def perform (driver : Driver) : Action → Interpreter → Driver × Interpreter
  | .step grip program, interp =>
    match interp.stepIn grip.layer program with
    | (.error e, interp) => (finished (.error e), interp)
    | (.ok (stepped, program), interp) => (resting grip stepped program, interp)
  | .handOut grip program, interp => (poised grip program, interp)
  | .finish outcome, interp => (finished outcome, interp)
  | .abort, interp => (cancelled, interp)
  | .idle, interp => (driver, interp)

end Driver

end Redex
