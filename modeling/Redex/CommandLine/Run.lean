import Redex.CommandLine.Options
import Redex.Interpreter.Trace
import Redex.Settings

/-!
# The command

Evaluates an expression, or traces it, after loading definitions. The command reaches the world
through a console alone, so it runs the same on a terminal and on a transcript.
-/

namespace Redex.CommandLine

/-- What the command can do in the world. -/
structure Console (m : Type → Type) where
  out : String → m Unit
  err : String → m Unit
  input : m String
  -- The text of a file, if there is such a file.
  file? : String → m (Option String)
  -- The value of an environment variable.
  readVariable : String → m (Option String)

/-- How the command ends. -/
inductive Ending where
  | exit (code : Nat)
  -- A failure that no report covers.
  | uncaught (e : Error)
  -- The value of an option was needed that had been given a blank.
  | unusable (s : Switch)
  | exhausted
  deriving Inhabited

def usage : String :=
  "usage: stepwise [-h] [--defs DEFS] [--step] [--max-steps MAX_STEPS]\n" ++
  "                [expression]\n"

def helpText : String :=
  usage ++
  "\nEvaluate an expression one reduction at a time.\n" ++
  "\npositional arguments:\n" ++
  "  expression            expression text, or - to read standard input\n" ++
  "\noptions:\n" ++
  "  -h, --help            show this help message and exit\n" ++
  "  --defs DEFS           file of definitions to load first\n" ++
  "  --step                print every intermediate form\n" ++
  "  --max-steps MAX_STEPS\n" ++
  "                        stop tracing after this many steps\n"

/-- What is said of an option that was given a blank, when its value is needed. -/
def Switch.blankMessage : Switch → String
  | .maxSteps => "'<' not supported between instances of 'int' and 'list'"
  | _ => "'list' object has no attribute 'read_text'"

def stepSeparator : String := "----"

/-- Every line break as one line feed. -/
def plainLines : List Char → List Char
  | [] => []
  | '\r' :: '\n' :: cs => '\n' :: plainLines cs
  | '\r' :: cs => '\n' :: plainLines cs
  | c :: cs => c :: plainLines cs

variable {m : Type → Type} [Monad m]

def Console.line (console : Console m) (text : String) : m Unit :=
  console.out (text ++ "\n")

def Console.errorLine (console : Console m) (text : String) : m Unit :=
  console.err (text ++ "\n")

/-- Writes the notices of an interpreter, if their level is shown, and takes them from it. -/
def showNotices (console : Console m) (level : Nat) (interp : Interpreter) : m Interpreter := do
  if level ≤ debugLevel then
    interp.journal.reverse.forM fun notice => console.errorLine notice.message
  return { interp with journal := [] }

/-- The end after a failure, which is shown if reports cover it. -/
def endFailed (console : Console m) (e : Error) : m Ending := do
  if e.isReported then
    console.errorLine (Report.failure e).formatted
    return .exit 1
  return .uncaught e

/-- Shows every program on the way, up to a number of steps. -/
def traceUpTo (console : Console m) (level limit : Nat) (program : Program)
    (interp : Interpreter) : m TraceEnd := do
  console.line program.surface
  let emit := fun (p : Program) => do
    console.line stepSeparator
    console.line p.surface
  let (ending, interp) ← traceSteps emit limit program interp
  let _ ← showNotices console level interp
  return ending

/-- Shows every program on the way, up to the largest number of steps that is given. -/
def traceCommand (console : Console m) (level budget : Nat) (maxSteps : Given Int)
    (program : Program) (interp : Interpreter) : m Ending := do
  match maxSteps with
  | .blank =>
    console.line program.surface
    return .unusable .maxSteps
  | .absent =>
    match ← traceUpTo console level budget program interp with
    | .fixpoint _ => return .exit 0
    | .failed e => endFailed console e
    | .limit => return .exhausted
  | .value n =>
    match ← traceUpTo console level n.toNat program interp with
    | .fixpoint _ => return .exit 0
    | .failed e => endFailed console e
    | .limit =>
      if level ≤ warningLevel then
        console.errorLine ("Stopped after " ++ toString n.toNat ++ " steps")
      return .exit 0

def evaluateCommand (console : Console m) (level budget : Nat) (program : Program)
    (interp : Interpreter) : m Ending := do
  match (Interpreting.evaluateAll budget program).exec interp with
  | none => return .exhausted
  | some (outcome, interp) =>
    let _ ← showNotices console level interp
    match outcome with
    | .error e => endFailed console e
    | .ok (.error e) => endFailed console e
    | .ok (.ok values) =>
      console.line values.surface
      return .exit 0

/-- Prepares an expression with the given definitions, and evaluates or traces it. -/
def prepareCommand (console : Console m) (settings : Settings) (options : Options) (budget : Nat)
    (definitions source : String) : m Ending := do
  match (Interpreting.prepare budget definitions source).exec (.initial settings.strict) with
  | none => return .exhausted
  | some (outcome, interp) =>
    let interp ← showNotices console settings.level interp
    match outcome with
    | .error e => endFailed console e
    | .ok program =>
      if options.step then
        traceCommand console settings.level budget options.maxSteps program interp
      else evaluateCommand console settings.level budget program interp

/-- Loads a file of definitions, and goes on with its text. -/
def loadCommand (console : Console m) (path : String) (next : String → m Ending) : m Ending := do
  match ← console.file? path with
  | none =>
    console.errorLine ("Error: definitions file not found: " ++ path)
    return .exit 1
  | some text => next (String.ofList (plainLines text.toList))

def perform (console : Console m) (options : Options) (budget : Nat) : m Ending := do
  let level ← console.readVariable Settings.levelVariable
  let strict ← console.readVariable Settings.strictVariable
  let definitions ← console.readVariable Settings.definitionsVariable
  let settings := Settings.ofVariables fun name =>
    if name == Settings.levelVariable then level
    else if name == Settings.strictVariable then strict
    else if name == Settings.definitionsVariable then definitions
    else none
  let source ← if options.expression == "-" then console.input else pure options.expression
  let prepare := fun definitions =>
    prepareCommand console settings options budget definitions source
  match options.defs, settings.definitions with
  | .blank, _ => return .unusable .defs
  | .value path, _ => loadCommand console (plainPath path.toList) prepare
  | .absent, some path => loadCommand console path prepare
  | .absent, none => prepare ""

def run (console : Console m) (budget : Nat) (args : List String) : m Ending := do
  match parse args with
  | .error .help =>
    console.out helpText
    return .exit 0
  | .error (.failed e) =>
    console.err (usage ++ "stepwise: error: " ++ e.message ++ "\n")
    return .exit 2
  | .ok options => perform console options budget

/-! ## Transcripts -/

/-- A world in which the command runs without effects. -/
structure World where
  input : String
  files : List (String × String)
  vars : List (String × String)

/-- What the command has written. -/
structure Transcript where
  out : String
  err : String
  deriving Inhabited

def transcriptConsole (world : World) : Console (StateM Transcript) where
  out text := modify fun t => { t with out := t.out ++ text }
  err text := modify fun t => { t with err := t.err ++ text }
  input := return world.input
  file? path := return world.files.lookup path
  readVariable name := return world.vars.lookup name

/-- How the command ends in a world, and what it writes. -/
def runIn (world : World) (budget : Nat) (args : List String) : Ending × Transcript :=
  (run (transcriptConsole world) budget args).run ⟨"", ""⟩

end Redex.CommandLine
