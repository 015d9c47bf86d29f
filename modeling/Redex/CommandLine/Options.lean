import Redex.Text.Blank
import Redex.Text.Digit
import Redex.Text.Literal

/-!
# Command-line options

The arguments of the command: options anywhere, and one expression. A long option may be shortened
as long as it stays unambiguous, and may be given its value after an equals sign; `--` ends the
options. What looks like an option but is none, and what is left over, is an error in the end.
-/

namespace Redex.CommandLine

open Text

/-- The options of the command. -/
inductive Switch where
  | help
  | defs
  | step
  | maxSteps
  deriving DecidableEq, Inhabited

def spellings : List (String × Switch) :=
  [("-h", .help), ("--help", .help), ("--defs", .defs), ("--step", .step),
    ("--max-steps", .maxSteps)]

def Switch.display (s : Switch) : String :=
  "/".intercalate ((spellings.filter fun p => p.2 == s).map Prod.fst)

def Switch.takesValue : Switch → Bool
  | .defs => true
  | .maxSteps => true
  | _ => false

/-- What is wrong with the arguments. -/
inductive UsageError where
  | ambiguous (arg : String) (candidates : List String)
  | missingValue (s : Switch)
  | invalidInt (s : Switch) (text : String)
  | unwantedValue (s : Switch) (text : String)
  | unrecognized (args : List String)
  deriving DecidableEq, Inhabited

def UsageError.message : UsageError → String
  | ambiguous arg candidates =>
    "ambiguous option: " ++ arg ++ " could match " ++ ", ".intercalate candidates
  | missingValue s => "argument " ++ s.display ++ ": expected one argument"
  | invalidInt s text =>
    "argument " ++ s.display ++ ": invalid int value: " ++ inspectedLiteral text
  | unwantedValue s text =>
    "argument " ++ s.display ++ ": ignored explicit argument " ++ inspectedLiteral text
  | unrecognized args => "unrecognized arguments: " ++ " ".intercalate args

/-- An argument by its looks. -/
inductive Argument where
  | operand (text : String)
  -- An option, and the value written to it.
  | switch (s : Switch) (value : Option String)
  -- The short option for help, and the letters behind it or behind its equals sign.
  | helpLetters (letters : List Char)
  -- Looks like an option and is none.
  | unknown (text : String)
  | terminator
  deriving DecidableEq, Inhabited

/-- The text before the first equals sign and, if there is one, the text after it. -/
def splitEquals (cs : List Char) : List Char × Option (List Char) :=
  match cs.span (· != '=') with
  | (before, '=' :: after) => (before, some after)
  | (before, _) => (before, none)

/-- All characters are digits, and there is at least one. -/
def isDigits (cs : List Char) : Bool :=
  !cs.isEmpty && cs.all isDigit

/-- The text after a minus sign makes a negative number: digits, or digits around a point of which
those after it are there. One line break may follow. -/
def isNegativeNumber (cs : List Char) : Bool :=
  let cs := if cs.getLast? = some '\n' then cs.dropLast else cs
  isDigits cs ||
    match cs.span (· != '.') with
    | (whole, '.' :: fraction) => whole.all isDigit && isDigits fraction
    | _ => false

/-- An argument that starts with a minus sign and matches no spelling. -/
def classifyOther (arg : String) (rest : List Char) : Argument :=
  if isNegativeNumber rest || arg.toList.contains ' ' then .operand arg else .unknown arg

/-- An argument by its looks, before the options have ended. -/
def classify (arg : String) : Except UsageError Argument :=
  match arg.toList, spellings.lookup arg with
  | _, some s => .ok (.switch s none)
  | '-' :: second :: rest, none =>
    let (start, value) := splitEquals arg.toList
    match value, spellings.lookup (String.ofList start) with
    | some value, some s =>
      .ok (if second = '-' then .switch s (some (String.ofList value)) else .helpLetters value)
    | value, _ =>
      if second = '-' then
        match spellings.filter fun p => start.isPrefixOf p.1.toList with
        | [] => .ok (classifyOther arg (second :: rest))
        | [(_, s)] => .ok (.switch s (value.map String.ofList))
        | many => .error (.ambiguous arg (many.map Prod.fst))
      else if second = 'h' then .ok (.helpLetters rest)
      else .ok (classifyOther arg (second :: rest))
  | _, none => .ok (.operand arg)

/-- The arguments by their looks; `--` ends the options. -/
def classifyAll : List String → Except UsageError (List Argument)
  | [] => .ok []
  | arg :: args =>
    if arg == "--" then .ok (.terminator :: args.map .operand)
    else do return (← classify arg) :: (← classifyAll args)

/-- Digits with single underscores between them, as digit values. -/
def scanIntDigits? : List Char → Option (List Nat)
  | [] => none
  | c :: cs =>
    match digitValue? c, cs with
    | none, _ => none
    | some d, [] => some [d]
    | some d, '_' :: cs => (scanIntDigits? cs).map (d :: ·)
    | some d, cs => (scanIntDigits? cs).map (d :: ·)

/-- The largest number of digits that an integer may be written with. -/
def intDigitLimit : Nat := 4300

/-- The natural number that digits of any script write, with single underscores between them. -/
def parseNat? (cs : List Char) : Option Nat :=
  (scanIntDigits? cs).bind fun digits =>
    if digits.length ≤ intDigitLimit then some (ofDigits digits) else none

/-- The integer that a text writes: blanks around it, a sign, and digits. -/
def parseInt? (text : String) : Option Int :=
  match trim text.toList with
  | '-' :: cs => (parseNat? cs).map fun n => -(n : Int)
  | '+' :: cs => (parseNat? cs).map fun n => (n : Int)
  | cs => (parseNat? cs).map fun n => (n : Int)

/-- What an option that takes a value was given. -/
inductive Given (α : Type) where
  -- The option does not occur.
  | absent
  -- The option occurs with a lone `--`, which is not a value.
  | blank
  | value (a : α)
  deriving DecidableEq, Inhabited

/-- What the arguments ask for. -/
structure Options where
  -- The expression; a single minus sign stands for the standard input.
  expression : String
  defs : Given String
  -- Show every program on the way.
  step : Bool
  -- The largest number of steps to show.
  maxSteps : Given Int
  deriving DecidableEq, Inhabited

/-- The arguments taken so far. -/
structure Progress where
  options : Options
  -- The place of the expression is taken.
  filled : Bool
  -- What has no place, the latest first.
  extras : List String
  deriving Inhabited

def Progress.initial : Progress :=
  ⟨⟨"-", .absent, false, .absent⟩, false, []⟩

/-- How taking the arguments may end early. -/
inductive Stop where
  | help
  | failed (e : UsageError)
  deriving DecidableEq, Inhabited

def Given.ofText (text : String) : Given String :=
  if text == "--" then .blank else .value text

def Progress.give (p : Progress) (s : Switch) (text : String) : Except Stop Progress :=
  match s with
  | .defs => .ok { p with options := { p.options with defs := Given.ofText text } }
  | .maxSteps =>
    match Given.ofText text, parseInt? text with
    | .value _, none => .error (.failed (.invalidInt s text))
    | .value _, some n => .ok { p with options := { p.options with maxSteps := .value n } }
    | _, _ => .ok { p with options := { p.options with maxSteps := .blank } }
  | _ => .error (.failed (.unwantedValue s text))

/-- Takes an option that stands without a value. -/
def Progress.set (p : Progress) : Switch → Except Stop Progress
  | .help => .error .help
  | .step => .ok { p with options := { p.options with step := true } }
  | s => .error (.failed (.missingValue s))

/-- Letters behind the short option for help: more of the same option to the end, or from some
letter on a value that it does not take. -/
def helpLetters : List Char → Stop
  | ['h'] => .help
  | 'h' :: cs => helpLetters cs
  | cs => .failed (.unwantedValue .help (String.ofList cs))

/-- Puts an operand into the place of the expression, or among what has no place. -/
def Progress.fill (p : Progress) (text : String) : Progress :=
  if p.filled then { p with extras := text :: p.extras }
  else { p with options := { p.options with expression := text }, filled := true }

/-- Takes the arguments in order. The end of the options belongs to the expression next to it, if
that has not been taken before. -/
def takeAll : List Argument → Progress → Except Stop Progress
  | [], p => .ok p
  | .operand text :: .terminator :: args, p =>
    if p.filled then takeAll args { p with extras := "--" :: text :: p.extras }
    else takeAll args (p.fill text)
  | .operand text :: args, p => takeAll args (p.fill text)
  | .terminator :: args, p =>
    if p.filled then takeAll args { p with extras := "--" :: p.extras } else takeAll args p
  | .switch s (some value) :: args, p => do takeAll args (← p.give s value)
  | .switch s none :: args, p =>
    if s.takesValue then
      match args with
      | .operand value :: args => do takeAll args (← p.give s value)
      | _ => .error (.failed (.missingValue s))
    else do takeAll args (← p.set s)
  | .helpLetters letters :: _, _ => .error (helpLetters letters)
  | .unknown text :: args, p => takeAll args { p with extras := text :: p.extras }

def parse (args : List String) : Except Stop Options := do
  match classifyAll args with
  | .error e => .error (.failed e)
  | .ok args =>
    let p ← takeAll args Progress.initial
    if p.extras.isEmpty then return p.options
    .error (.failed (.unrecognized p.extras.reverse))

end Redex.CommandLine
