import Redex.Evaluation
import Redex.Reader.Program
import Redex.Report

/-!
# The interpreter

An interpreter reads, prepares and evaluates programs. Every preparation starts a new session with
an empty user layer and cancels the session before it; the built-ins and the special forms stay the
same. Sessions are numbered from one in the order in which they start, and the latest is the current
one. Older sessions are kept, since drivers that started in them may still be under way.
-/

namespace Redex

/-- A user layer together with the word whether stepping in it has been cancelled. -/
structure Session where
  layer : Layer
  cancelled : Bool
  deriving Inhabited

def Session.fresh : Session :=
  ⟨Layer.empty, false⟩

/-- What an interpreter has to say about its work besides results. -/
inductive Notice where
  | prepared (session : Nat)
  | settled (steps : Nat)
  | evaluationFailed (e : Error)
  | stepFailed (e : Error)
  deriving Inhabited

def describeSession (id : Nat) (cancelled : Bool) : String :=
  "<Session " ++ toString id ++ (if cancelled then " cancelled" else "") ++ ">"

def Notice.message : Notice → String
  | prepared session => "Prepared " ++ describeSession session false
  | settled steps => "Program reached its fixpoint after " ++ toString steps ++ " step(s)"
  | evaluationFailed e => "Evaluation failed: " ++ e.message
  | stepFailed e => "Step failed: " ++ e.message

/-- The state of an interpreter. -/
structure Interpreter where
  builtins : Layer
  macros : MacroTable
  strict : Bool
  -- The sessions, the oldest first.
  sessions : List Session
  -- The notices, the latest first.
  journal : List Notice
  deriving Inhabited

namespace Interpreter

/-- A new interpreter with its first session. -/
def initial (strict : Bool) : Interpreter :=
  ⟨Layer.builtins, MacroTable.standard, strict, [Session.fresh], []⟩

def current (interp : Interpreter) : Nat :=
  interp.sessions.length

def session (interp : Interpreter) (id : Nat) : Session :=
  (interp.sessions[id - 1]?).getD Session.fresh

def environment (interp : Interpreter) (id : Nat) : Environment :=
  ⟨(interp.session id).layer, interp.builtins⟩

/-- The interpreter with the environment that stepping in a session has left. -/
def withEnvironment (interp : Interpreter) (id : Nat) (env : Environment) : Interpreter :=
  { interp with
    builtins := env.builtins
    sessions := interp.sessions.modify (id - 1) fun s => { s with layer := env.user } }

def userNames (interp : Interpreter) : List String :=
  (interp.session interp.current).layer.names

/-- The value that a name is bound to, if there is one. -/
def lookup (interp : Interpreter) (name : String) : Expr :=
  ((interp.environment interp.current).get? name).getD .absent

def describe (interp : Interpreter) : String :=
  describeSession interp.current (interp.session interp.current).cancelled

def note (notice : Notice) (interp : Interpreter) : Interpreter :=
  { interp with journal := notice :: interp.journal }

def cancelSession (id : Nat) (interp : Interpreter) : Interpreter :=
  { interp with
    sessions := interp.sessions.modify (id - 1) fun s => { s with cancelled := true } }

def cancel (interp : Interpreter) : Interpreter :=
  interp.cancelSession interp.current

def renew (interp : Interpreter) : Interpreter :=
  let interp := interp.cancel
  let interp := { interp with sessions := interp.sessions ++ [Session.fresh] }
  interp.note (.prepared interp.current)

def read (interp : Interpreter) (source : String) : Except Error Program :=
  readProgram interp.strict source

def stepIn (interp : Interpreter) (id : Nat) (program : Program) :
    Except Error (Bool × Program) × Interpreter :=
  let (outcome, env) := (stepProgram interp.macros program).exec (interp.environment id)
  (outcome, interp.withEnvironment id env)

/-- Steps a program once in the current session, and notes a failure that reports cover. -/
def stepNoted (interp : Interpreter) (program : Program) :
    Except Error (Bool × Program) × Interpreter :=
  match interp.stepIn interp.current program with
  | (.error e, interp) => (.error e, if e.isReported then interp.note (.stepFailed e) else interp)
  | (.ok result, interp) => (.ok result, interp)

end Interpreter

/-- An operation of an interpreter. It may fail, and `none` says that the budget of rounds ran
out. -/
abbrev Interpreting := ExceptT Error (StateT Interpreter Option)

namespace Interpreting

def exec {α : Type} (m : Interpreting α) (interp : Interpreter) :
    Option (Except Error α × Interpreter) :=
  (ExceptT.run m).run interp

/-- Fails with the error of a computation that does not touch the interpreter. -/
def lift {α : Type} : Except Error α → Interpreting α
  | .ok a => return a
  | .error e => throw e

def read (source : String) : Interpreting Program := do
  lift ((← get).read source)

def evaluate (budget : Nat) (program : Program) : Interpreting Program := do
  let interp ← get
  let run ← Redex.evaluate interp.macros budget program (interp.environment interp.current)
  let interp := interp.withEnvironment interp.current run.env
  match run.outcome with
  | .ok values =>
    set (interp.note (.settled run.steps))
    return values
  | .error e =>
    set interp
    throw e

/-- Starts a new session, evaluates the definitions in it and reads the expression. -/
def prepare (budget : Nat) (definitions expression : String) : Interpreting Program := do
  modify Interpreter.renew
  if !definitions.isEmpty then
    let _ ← evaluate budget (← read definitions)
  read expression

/-- The outcome of an operation, in which a failure that reports cover is a value. -/
def report {α : Type} (notice : Error → Option Notice) (m : Interpreting α) :
    Interpreting (Except Error α) := do
  try
    return .ok (← m)
  catch e =>
    if e.isReported then
      match notice e with
      | some notice => modify (Interpreter.note notice)
      | none => pure ()
      return .error e
    else throw e

def evaluateAll (budget : Nat) (program : Program) : Interpreting (Except Error Program) :=
  report (fun e => some (.evaluationFailed e)) (evaluate budget program)

def stepAll (program : Program) : Interpreting (Except Error (Bool × Program)) := do
  let (outcome, interp) := (← get).stepNoted program
  set interp
  match outcome with
  | .ok result => return .ok result
  | .error e => if e.isReported then return .error e else throw e

/-- Prepares and evaluates, and reports a failure of either. -/
def run (budget : Nat) (definitions expression : String) :
    Interpreting (Except Error Program) := do
  match ← report (fun _ => none) (prepare budget definitions expression) with
  | .ok program => evaluateAll budget program
  | .error e => return .error e

/-- Evaluates a source in the current session and gives its last value, if there is one. -/
def eval (budget : Nat) (code : String) : Interpreting Expr := do
  return (← evaluate budget (← read code)).getLastD .absent

end Interpreting

end Redex
