import Redex.Text.Printable

/-!
# Text literals

Two ways to write a text between quotes. A *surface literal* is what a program shows: double
quotes, with escapes only for the quote, the backslash and control characters. An *inspected
literal* is what a message shows: the quote that needs no escape is chosen, and every character
that is not printable is written by its code point.
-/

namespace Redex.Text

/-- The `width` lowest hexadecimal digits of `n`, in lower case. -/
def hex (width n : Nat) : List Char :=
  let digits := Nat.toDigits 16 n
  List.replicate (width - digits.length) '0' ++ digits

def surfaceChar (c : Char) : List Char :=
  match c with
  | '"' => ['\\', '"']
  | '\\' => ['\\', '\\']
  | '\n' => ['\\', 'n']
  | '\r' => ['\\', 'r']
  | '\t' => ['\\', 't']
  | '\x08' => ['\\', 'b']
  | '\x0c' => ['\\', 'f']
  | c => if c.toNat < 0x20 then '\\' :: 'u' :: hex 4 c.toNat else [c]

def surfaceBody (cs : List Char) : List Char :=
  cs.flatMap surfaceChar

/-- The surface literal of a text: its body between double quotes. -/
def surfaceLiteral (s : String) : String :=
  String.ofList ('"' :: surfaceBody s.toList ++ ['"'])

/-- A character inside an inspected literal whose quote is `quote`. -/
def inspectedChar (quote c : Char) : List Char :=
  if c = quote || c = '\\' then ['\\', c]
  else if c = '\n' then ['\\', 'n']
  else if c = '\r' then ['\\', 'r']
  else if c = '\t' then ['\\', 't']
  else if isPrintable c then [c]
  else if c.toNat < 0x100 then '\\' :: 'x' :: hex 2 c.toNat
  else if c.toNat < 0x10000 then '\\' :: 'u' :: hex 4 c.toNat
  else '\\' :: 'U' :: hex 8 c.toNat

/-- The quote of an inspected literal: single, unless the text has single quotes and no double
one. -/
def inspectedQuote (cs : List Char) : Char :=
  if cs.contains '\'' && !cs.contains '"' then '"' else '\''

def inspectedLiteral (s : String) : String :=
  let quote := inspectedQuote s.toList
  String.ofList (quote :: s.toList.flatMap (inspectedChar quote) ++ [quote])

/-- Without a quote, a backslash or a control character, the body of a surface literal is the
text itself. -/
theorem surfaceBody_eq_self {cs : List Char}
    (h : ∀ c ∈ cs, c ≠ '"' ∧ c ≠ '\\' ∧ 0x20 ≤ c.toNat) : surfaceBody cs = cs := by
  induction cs with
  | nil => rfl
  | cons c cs ih =>
    obtain ⟨hq, hb, hc⟩ := h c (by simp)
    have hself : surfaceChar c = [c] := by
      unfold surfaceChar
      split
      · exact absurd rfl hq
      · exact absurd rfl hb
      iterate 5 · exact absurd hc (by decide)
      · exact if_neg (by omega)
    simp only [surfaceBody, List.flatMap_cons, hself] at *
    simpa using ih fun d hd => h d (by simp [hd])

end Redex.Text
