import Redex.Text.Blank

/-!
# Settings

What environment variables set: the level from which notices are shown, whether reading is strict,
and the file of definitions. A variable that is unset, or that says nothing, leaves the default.
-/

namespace Redex

open Text

/-- The values of environment variables. -/
abbrev Variables := String → Option String

/-- The words that switch a flag on. -/
def trueWords : List String :=
  ["1", "true", "yes", "on"]

/-- A flag set by a variable. Blanks around the word and the case of its letters do not matter;
only ASCII letters have a small form in one of the words. -/
def flag (vars : Variables) (name : String) (default : Bool) : Bool :=
  match vars name with
  | none => default
  | some raw =>
    let word := trim raw.toList
    if word.isEmpty then default
    else trueWords.contains (String.ofList (word.map Char.toLower))

def levelNames : List (String × Nat) :=
  [("CRITICAL", 50), ("FATAL", 50), ("ERROR", 40), ("WARNING", 30), ("WARN", 30), ("INFO", 20),
    ("DEBUG", 10), ("NOTSET", 0)]

/-- The level of warnings, from which notices are shown by default. -/
def warningLevel : Nat := 30

def debugLevel : Nat := 10

/-- The capital form of a letter, as far as it is an ASCII letter: the dotless `ı` and the long `ſ`
have one too. -/
def capital (c : Char) : Char :=
  if c = 'ı' then 'I' else if c = 'ſ' then 'S' else c.toUpper

def level (vars : Variables) (name : String) : Nat :=
  let word := String.ofList (((vars name).getD "").toList.map capital)
  (levelNames.lookup word).getD warningLevel

/-- The components of a path between slashes, without the empty ones and those that stay in
place. -/
def pathComponents (path : List Char) : List String :=
  ((String.ofList path).splitOn "/").filter fun part => !(part.isEmpty || part == ".")

/-- The slashes that a path starts with: two are kept, and more count as one. -/
def pathRoot (path : List Char) : String :=
  match (path.takeWhile (· == '/')).length with
  | 0 => ""
  | 2 => "//"
  | _ => "/"

def plainPath (path : List Char) : String :=
  let plain := pathRoot path ++ "/".intercalate (pathComponents path)
  if plain.isEmpty then "." else plain

def path? (vars : Variables) (name : String) : Option String :=
  let word := trim ((vars name).getD "").toList
  if word.isEmpty then none else some (plainPath word)

/-- What environment variables set. -/
structure Settings where
  level : Nat
  -- Whether a source that needs repairs is rejected.
  strict : Bool
  definitions : Option String
  deriving DecidableEq, Inhabited

namespace Settings

def levelVariable : String := "STEPWISE_LOGLEVEL"

def strictVariable : String := "STEPWISE_STRICT_READER"

def definitionsVariable : String := "STEPWISE_DEFINITIONS"

def ofVariables (vars : Variables) : Settings :=
  ⟨Redex.level vars levelVariable, flag vars strictVariable false,
    path? vars definitionsVariable⟩

end Settings

end Redex
