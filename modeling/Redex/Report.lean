import Redex.Error

/-!
# Reports

What a user is told of an evaluation or of a single step: the program with its text, or the label
and the message of the failure.
-/

namespace Redex

/-- The outcome of an evaluation, or of a single step, for the user. -/
structure Report where
  succeeded : Bool
  value : Option Program
  -- The report is of a single step that was made.
  stepped : Bool
  label : Option String
  message : Option String
  deriving Inhabited

namespace Report

def success (stepped : Bool) (program : Program) : Report :=
  ⟨true, some program, stepped, none, none⟩

def failure (e : Error) : Report :=
  ⟨false, none, false, some e.kind.label, some e.message⟩

def text (r : Report) : String :=
  (r.value.map Program.surface).getD ""

/-- The failure as displayed; nothing for a success. -/
def formatted (r : Report) : String :=
  if r.succeeded then ""
  else
    let message := r.message.getD ""
    r.label.getD "Error" ++ ": " ++ (if message.isEmpty then "Unknown error" else message)

end Report

end Redex
