import Redex.Scheduler.Driver

/-!
# The scheduler

Drivers share one interpreter, and any of them may have the next turn. A tracked driver is cancelled
together with its session, and leaves the tracked set after it is done.

The scheduler gives turns in the order in which the drivers queue. Whoever issues commands is one of
them: while a command rests, every entry that stands in the queue has one turn.
-/

namespace Redex

/-- A driver at work. -/
structure Worker where
  job : Job
  driver : Driver
  -- The next turn of the worker will cancel it.
  doomed : Bool
  -- The end of the worker is announced to the tracked set.
  announced : Bool

namespace Worker

/-- What the worker does with a turn. -/
def action (worker : Worker) (interp : Interpreter) : Action :=
  if worker.doomed && !worker.driver.isDone then .abort
  else worker.driver.action worker.job interp

/-- The worker after its turn, and the interpreter. -/
def turn (worker : Worker) (interp : Interpreter) : Worker × Interpreter :=
  let (driver, interp) := worker.driver.perform (worker.action interp) interp
  ({ worker with driver }, interp)

/-- Marks a worker for cancellation, unless it is done. -/
def doom (worker : Worker) : Worker :=
  if worker.driver.isDone then worker else { worker with doomed := true }

end Worker

/-- An interpreter with the drivers that share it. -/
structure Workshop where
  interp : Interpreter
  -- All that were ever put to work, the oldest first.
  workers : List Worker
  -- The positions of the tracked workers.
  tracked : List Nat

namespace Workshop

def initial (strict : Bool) : Workshop :=
  ⟨.initial strict, [], []⟩

/-- Gives a worker a turn. -/
def turn (w : Workshop) (i : Nat) : Workshop :=
  match w.workers[i]? with
  | none => w
  | some worker =>
    let (worker, interp) := worker.turn w.interp
    { w with interp, workers := w.workers.set i worker }

/-- Puts a driver to work. -/
def hire (w : Workshop) (job : Job) (driver : Driver) : Workshop :=
  { w with workers := w.workers ++ [⟨job, driver, false, false⟩] }

/-- Puts a driver to work that evaluates a program, and tracks it. -/
def hireTracked (w : Workshop) (program : Program) : Workshop :=
  { w with
    workers := w.workers ++ [⟨.evaluate, .unstarted false program, false, true⟩]
    tracked := w.tracked ++ [w.workers.length] }

def forget (w : Workshop) (i : Nat) : Workshop :=
  { w with tracked := w.tracked.erase i }

/-- Marks the tracked workers for cancellation and empties the tracked set. -/
def doomTracked (w : Workshop) : Workshop :=
  { w with
    workers := w.workers.mapIdx fun i worker => if i ∈ w.tracked then worker.doom else worker
    tracked := [] }

def cancel (w : Workshop) : Workshop :=
  { w.doomTracked with interp := w.interp.cancel }

def driver? (w : Workshop) (i : Nat) : Option Driver :=
  (w.workers[i]?).map Worker.driver

end Workshop

/-- What waits for a turn. -/
inductive Entry where
  | task (i : Nat)
  -- The removal of a worker from the tracked set.
  | removal (i : Nat)
  deriving DecidableEq, Inhabited

/-- A workshop with its queue and the one who issues commands. -/
structure Scheduler extends Workshop where
  -- The program that commands work on.
  program : Program
  queue : List Entry
  taskNames : List (String × Nat)
  iterators : List (String × Nat)

namespace Scheduler

def initial (strict : Bool) : Scheduler :=
  ⟨.initial strict, [], [], [], []⟩

def turn (s : Scheduler) (i : Nat) : Scheduler :=
  { s with toWorkshop := s.toWorkshop.turn i }

/-- What a worker leaves in the queue after its turn. -/
def follow (s : Scheduler) (i : Nat) : List Entry :=
  match s.workers[i]? with
  | none => []
  | some worker =>
    if !worker.driver.isDone then [.task i]
    else if worker.announced then [.removal i]
    else []

def runEntry (s : Scheduler) : Entry → Scheduler
  | .removal i => { s with toWorkshop := s.toWorkshop.forget i }
  | .task i =>
    let s := s.turn i
    { s with queue := s.queue ++ s.follow i }

/-- Rests once: every entry that stands in the queue has one turn. -/
def rest (s : Scheduler) : Scheduler :=
  s.queue.foldl runEntry { s with queue := [] }

def restTimes : Nat → Scheduler → Scheduler
  | 0, s => s
  | n + 1, s => restTimes n s.rest

/-- Marks the tracked workers for cancellation, as a preparation does. -/
def doomed (s : Scheduler) : Scheduler :=
  { s with toWorkshop := s.toWorkshop.doomTracked }

def cancel (s : Scheduler) : Scheduler :=
  { s with toWorkshop := s.toWorkshop.cancel }

/-- Puts a driver to work for the one who issues commands, out of the queue. -/
def hire (s : Scheduler) (job : Job) (driver : Driver) : Scheduler :=
  { s with toWorkshop := s.toWorkshop.hire job driver }

/-- Puts a driver that evaluates the program into the queue under a name. -/
def spawn (s : Scheduler) (name : String) (tracked : Bool) : Scheduler :=
  let i := s.workers.length
  { s with
    toWorkshop :=
      if tracked then s.toWorkshop.hireTracked s.program
      else s.toWorkshop.hire .evaluate (.unstarted false s.program)
    queue := s.queue ++ [.task i]
    taskNames := Assoc.insert name i s.taskNames }

/-- Gives a worker turns until it rests no more, resting in between, within a budget. -/
def drive (i : Nat) : Nat → Scheduler → Option Scheduler
  | 0, _ => none
  | budget + 1, s =>
    let s := s.turn i
    if (s.driver? i).any Driver.isResting then drive i budget s.rest else some s

/-- The next program of an iterator, or `none` when there is no further one. A failure ends the
iterator. -/
def next (name : String) (s : Scheduler) :
    Option (Except Error (Option Program) × Scheduler) :=
  match s.iterators.lookup name with
  | none => some (.ok none, s)
  | some i =>
    if (s.driver? i).any Driver.isDone then some (.ok none, s)
    else
      -- one turn for the step, and one after the rest
      (drive i 2 s).map fun s =>
        match s.driver? i with
        | some (.poised _ program) => (.ok (some program), s)
        | some (.finished (.error e)) => (.error e, s)
        | _ => (.ok none, s)

/-- The remaining programs of an iterator, within a budget. -/
def collect (name : String) : Nat → Scheduler → Option (Except Error (List Program) × Scheduler)
  | 0, _ => none
  | budget + 1, s =>
    match next name s with
    | none => none
    | some (.error e, s) => some (.error e, s)
    | some (.ok none, s) => some (.ok [], s)
    | some (.ok (some program), s) =>
      (collect name budget s).map fun (outcome, s) => (outcome.map (program :: ·), s)

/-- Rests until the worker of a name is done, within a budget. -/
def awaitTask (name : String) : Nat → Scheduler → Option Scheduler
  | 0, _ => none
  | budget + 1, s =>
    match s.taskNames.lookup name with
    | none => some s
    | some i => if (s.driver? i).all Driver.isDone then some s else awaitTask name budget s.rest

end Scheduler

end Redex
