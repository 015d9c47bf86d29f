import Redex.Scheduler.Basic

/-!
# Commands

What can be asked of an interpreter while drivers are under way in it, and how it answers.
-/

namespace Redex

/-- The commands of a scheduler. -/
inductive Command where
  | prepare (definitions expression : String)
  | read (source : String)
  -- Steps the program once, resting before the answer or not.
  | step (resting : Bool)
  -- Evaluates the program, resting after every round or not.
  | evaluate (resting : Bool)
  -- Evaluates the program without looking whether the session has been cancelled.
  | evaluateFree
  | run (definitions expression : String)
  | eval (code : String)
  | lookup (name : String)
  | cancel
  -- Makes an iterator over the steps of the program.
  | iterate (name : String) (free : Bool)
  | next (name : String)
  | collect (name : String)
  -- Puts a driver of the program into the queue.
  | spawn (name : String) (tracked : Bool)
  | tick (n : Nat)
  | status (name : String)
  | await (name : String)

/-- The answers of a scheduler. -/
inductive Answer where
  | nothing
  | text (s : String)
  | texts (ss : List String)
  | success (stepped : Bool) (program : Program)
  | failure (e : Error)
  -- A failure that no report covers, or of a command that makes no reports.
  | fault (e : Error)
  | value (e : Expr)
  | values (program : Program)
  | count (n : Nat)
  | yes
  | stop
  | pending
  | cancelled

namespace Scheduler

/-- The answer for a failure of a command that makes reports. -/
def reportFailure (e : Error) : Answer :=
  if e.isReported then .failure e else .fault e

def reportOutcome : Except Error Program → Answer
  | .ok program => .success false program
  | .error e => reportFailure e

/-- What is known of a worker. -/
def standing (s : Scheduler) (i : Nat) : Answer :=
  match s.driver? i with
  | some (.finished outcome) => reportOutcome (outcome.map Prod.snd)
  | some .cancelled => .cancelled
  | _ => .pending

def status (s : Scheduler) (name : String) : Answer :=
  match s.taskNames.lookup name with
  | some i => s.standing i
  | none => .pending

def interpret {α : Type} (s : Scheduler) (m : Interpreting α)
    (answer : α → Scheduler → Answer × Scheduler) :
    Option (Answer × Scheduler) :=
  (m.exec s.interp).map fun (outcome, interp) =>
    let s := { s with interp }
    match outcome with
    | .ok a => answer a s
    | .error e => (.fault e, s)

/-- Makes a program that was read the one that commands work on. -/
def take (program : Program) (s : Scheduler) : Answer × Scheduler :=
  (.text program.surface, { s with program })

def takeStep (outcome : Except Error (Bool × Program)) (s : Scheduler) : Answer × Scheduler :=
  match outcome with
  | .ok (stepped, program) => (.success stepped program, { s with program })
  | .error e => (reportFailure e, s)

/-- Drives the program to the end of a job, and answers for the outcome. -/
def employ (job : Job) (free : Bool) (budget : Nat) (s : Scheduler)
    (answer : Except Error (Bool × Program) → Scheduler → Answer × Scheduler) :
    Option (Answer × Scheduler) :=
  let i := s.workers.length
  (drive i budget (s.hire job (.unstarted free s.program))).map fun s =>
    match s.driver? i with
    | some (.finished outcome) => answer outcome s
    | _ => (.pending, s)

/-- Performs a command, within a budget of rounds. -/
def perform (budget : Nat) (command : Command) (s : Scheduler) : Option (Answer × Scheduler) :=
  match command with
  | .prepare definitions expression =>
    s.doomed.interpret (Interpreting.prepare budget definitions expression) take
  | .read source => s.interpret (Interpreting.read source) take
  -- one turn for the step, and one after the rest
  | .step true => s.employ .step false 2 takeStep
  | .step false => s.interpret (Interpreting.stepAll s.program) takeStep
  | .evaluate true =>
    s.employ .evaluate false budget fun outcome s => (reportOutcome (outcome.map Prod.snd), s)
  | .evaluate false =>
    s.interpret (Interpreting.evaluateAll budget s.program)
      fun outcome s => (reportOutcome outcome, s)
  | .evaluateFree =>
    s.employ .evaluate true budget fun outcome s =>
      match outcome with
      | .ok (_, program) => (.values program, s)
      | .error e => (.fault e, s)
  | .run definitions expression =>
    s.doomed.interpret (Interpreting.run budget definitions expression)
      fun outcome s => (reportOutcome outcome, s)
  | .eval code => s.interpret (Interpreting.eval budget code) fun value s => (.value value, s)
  | .lookup name => some (.value (s.interp.lookup name), s)
  | .cancel => some (.count s.tracked.length, s.cancel)
  | .iterate name free =>
    let i := s.workers.length
    let s := s.hire .iterate (.poised (s.interp.grip free) s.program)
    some (.nothing, { s with iterators := Assoc.insert name i s.iterators })
  | .next name =>
    (s.next name).map fun (outcome, s) =>
      match outcome with
      | .ok (some program) => (.text program.surface, s)
      | .ok none => (.stop, s)
      | .error e => (.fault e, s)
  | .collect name =>
    (collect name budget s).map fun (outcome, s) =>
      match outcome with
      | .ok programs => (.texts (programs.map Program.surface), s)
      | .error e => (.fault e, s)
  | .spawn name tracked => some (if tracked then .yes else .nothing, s.spawn name tracked)
  | .tick n => some (.nothing, restTimes n s)
  | .status name => some (s.status name, s)
  | .await name => (awaitTask name budget s).map fun s => (s.status name, s)

end Scheduler

end Redex
