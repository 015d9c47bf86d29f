import Redex.Proofs.Spelling

/-!
# Layout

How a program is laid out makes no difference to what is read. Blanks may stand anywhere around the
tokens, and must stand only where two words would run into one; a group may be opened and closed by
either kind of bracket.

* **`SourceTree`** — what a writer means: words and string literals, and groups of such.
* **`Renders`** — the sources that mean given trees.
* **`Renders.delimited`** — what stands behind a word in a rendering cannot go on with it, which is
  what the condition on neighbouring words is for.
* **`Renders.lexes`** — a rendering is lexed into the tokens of a derivation, whose brackets are those
  of the rendering and whose value is that of the trees.
* **`readProgram_rendering`** — every rendering of the trees is read as the trees.
-/

namespace Redex

open SyntaxTree (yieldAll valueAll)
open Text (isBlank)

/-! ## Trees and their renderings -/

/-- A tree as it is meant, apart from its layout and its brackets. -/
inductive SourceTree where
  -- A word, or a string with its quotes.
  | leaf (text : String) (written : IsBare text ∨ IsLiteral text)
  | group (items : List SourceTree)

namespace SourceTree

mutual

/-- The tree with the values of its leaves. -/
def baked : SourceTree → Expr
  | leaf text _ => Token.bake text
  | group items => .sequence (bakedAll items)
termination_by structural t => t

def bakedAll : List SourceTree → List Expr
  | [] => []
  | t :: ts => baked t :: bakedAll ts
termination_by structural ts => ts

end

/-- The first of the trees is a word. -/
def StartsBare : List SourceTree → Prop
  | leaf text _ :: _ => IsBare text
  | _ => False

end SourceTree

open SourceTree (bakedAll StartsBare)

/-- The characters start with a blank. -/
def StartsBlank (cs : List Char) : Prop :=
  ∃ c ∈ cs.head?, isBlank c = true

/-- The characters are a rendering of the trees, one behind the other. -/
inductive Renders : List SourceTree → List Char → Prop where
  | nil : Renders [] []
  | blank {c : Char} {trees : List SourceTree} {cs : List Char} (hc : isBlank c = true)
      (rest : Renders trees cs) : Renders trees (c :: cs)
  -- Between two words that are neighbours there is at least one blank.
  | leaf {text : String} (written : IsBare text ∨ IsLiteral text) {trees : List SourceTree}
      {cs : List Char} (apart : IsBare text → StartsBare trees → StartsBlank cs)
      (rest : Renders trees cs) : Renders (.leaf text written :: trees) (text.toList ++ cs)
  -- The brackets of a group need not be of one kind.
  | group {opener closer : Char} {items trees : List SourceTree} {inner cs : List Char}
      (opens : Token.isOpener opener = true) (inside : Renders items inner)
      (closes : Token.isCloser closer = true) (rest : Renders trees cs) :
      Renders (.group items :: trees) (opener :: (inner ++ closer :: cs))

/-! ## Reading a rendering -/

variable {trees : List SourceTree} {cs rest : List Char}

theorem StartsBlank.delimited (h : StartsBlank cs) (rest : List Char) : Delimited (cs ++ rest) := by
  obtain ⟨c, hc, hblank⟩ := h
  obtain ⟨cs, rfl⟩ := List.head?_eq_some_iff.mp hc
  rintro d ⟨⟩
  exact isDelimiter_of_isBlank hblank

/-- A rendering goes on with a word before it only if it starts with a word itself. -/
theorem Renders.delimited (h : Renders trees cs) (apart : StartsBare trees → StartsBlank cs)
    (hrest : Delimited rest) : Delimited (cs ++ rest) := by
  cases h with
  | nil => exact hrest
  | blank hc _ =>
    rintro d ⟨⟩
    exact isDelimiter_of_isBlank hc
  | leaf written _ _ =>
    rcases written with hbare | ⟨body, hbody, htext⟩
    · exact (apart hbare).delimited rest
    · rw [htext]
      rintro d ⟨⟩
      decide
  | group opens _ _ _ =>
    rintro d ⟨⟩
    simp [Token.isDelimiter, opens]

/-- A rendering is lexed into the tokens of a derivation of its trees. -/
theorem Renders.lexes (h : Renders trees cs) : ∃ forest, valueAll forest = bakedAll trees ∧
    ∀ rest, Delimited rest → lexFrom .between (cs ++ rest) =
      yieldAll forest ++ lexFrom .between rest := by
  induction h with
  | nil => exact ⟨[], rfl, fun _ _ => rfl⟩
  | blank hc h ih =>
    obtain ⟨forest, hvalue, hlex⟩ := ih
    refine ⟨forest, hvalue, ?_⟩
    intro rest hrest
    rw [List.cons_append, lexFrom_blank hc, hlex rest hrest]
  | @leaf text written trees cs apart h ih =>
    obtain ⟨forest, hvalue, hlex⟩ := ih
    rcases written with hbare | hliteral
    · refine ⟨.atom ⟨.word, text⟩ (Or.inl rfl) :: forest, ?_, ?_⟩
      · rw [valueAll, hvalue]
        rfl
      · intro rest hrest
        rw [List.append_assoc, lexFrom_word hbare (h.delimited (apart hbare) hrest),
          hlex rest hrest]
        rfl
    · refine ⟨.atom ⟨.string, text⟩ (Or.inr rfl) :: forest, ?_, ?_⟩
      · rw [valueAll, hvalue]
        rfl
      · intro rest hrest
        -- nothing needs to stand behind the closing quote
        rw [List.append_assoc, lexFrom_literal hliteral, hlex rest hrest]
        rfl
  | @group opener closer items trees inner cs opens _ closes _ ihInside ihRest =>
    obtain ⟨inside, hinsideValue, hinside⟩ := ihInside
    obtain ⟨forest, hvalue, hlex⟩ := ihRest
    have hopens : (LexState.emit .opening [opener]).kind = .opening := rfl
    have hcloses : (LexState.emit .closing [closer]).kind = .closing := rfl
    refine ⟨.group _ hopens inside _ hcloses :: forest, ?_, ?_⟩
    · rw [valueAll, SyntaxTree.value, hinsideValue, hvalue]
      rfl
    · intro rest hrest
      have hcloser : Delimited (closer :: (cs ++ rest)) := by
        rintro d ⟨⟩
        simp [Token.isDelimiter, closes]
      have hchars : opener :: (inner ++ closer :: cs) ++ rest =
          opener :: (inner ++ closer :: (cs ++ rest)) := by simp
      rw [hchars, lexFrom_opener opens, hinside _ hcloser, lexFrom_closer closes, hlex rest hrest,
        yieldAll, SyntaxTree.yield]
      simp

/-- Layout makes no difference. Every rendering of the trees, with whatever blanks and brackets, is
read as the trees with the values of their leaves, and nothing has to be repaired. -/
theorem readProgram_rendering {trees : List SourceTree} {source : String}
    (h : Renders trees source.toList) :
    (TokenStream.ofTokens (lex source)).parseAll.1 = bakedAll trees ∧
    (TokenStream.ofTokens (lex source)).parseAll.2.truncated = false ∧
    ∀ strict, readProgram strict source = .ok (bakedAll trees) := by
  obtain ⟨forest, hvalue, hlex⟩ := h.lexes
  have hderives : Derives forest (lex source) := by
    have hwhole := hlex [] nofun
    rw [List.append_nil, lexFrom, LexState.finish, List.append_nil] at hwhole
    exact hwhole.symm
  obtain ⟨hwhole, hprogram⟩ := hderives.readTokens
  obtain ⟨hparsed, htruncated⟩ := TokenStream.parseAll_eq (lex source)
  refine ⟨?_, ?_, ?_⟩
  · rw [hparsed, hprogram, hvalue]
  · rw [htruncated, hwhole]
  · intro strict
    simp [readProgram, hwhole, hprogram, hvalue]

/-- Blanks are needed between words alone, and a group may close with the other kind of bracket. -/
theorem readProgram_rendering_tight : ∃ trees,
    Renders trees " [f\"a)\\\"\"g(h]\t) x y".toList ∧
    bakedAll trees = [.sequence [.symbol "f", .text "a)\\\"", .symbol "g", .sequence [.symbol "h"]],
      .symbol "x", .symbol "y"] ∧
    readProgram true " [f\"a)\\\"\"g(h]\t) x y" = .ok (bakedAll trees) := by
  have hf : IsBare "f" := by decide
  have hg : IsBare "g" := by decide
  have hh : IsBare "h" := by decide
  have hx : IsBare "x" := by decide
  have hy : IsBare "y" := by decide
  have hbody : LiteralBody ['a', ')', '\\', '"'] :=
    .plain (by decide) (by decide) (.plain (by decide) (by decide) (.escaped '"' .nil))
  have hliteral : IsLiteral "\"a)\\\"\"" := ⟨_, hbody, by decide⟩
  have hend : Renders [.leaf "y" (Or.inl hy)] ['y'] := .leaf _ (fun _ => False.elim) .nil
  have hpair : Renders [.leaf "x" (Or.inl hx), .leaf "y" (Or.inl hy)] [' ', 'x', ' ', 'y'] :=
    .blank (by decide) (.leaf _ (fun _ _ => ⟨' ', by decide, by decide⟩) (.blank (by decide) hend))
  have hgroup : Renders [.group [.leaf "h" (Or.inl hh)]] ['(', 'h', ']', '\t'] :=
    .group (by decide) (.leaf _ (fun _ => False.elim) .nil) (by decide) (.blank (by decide) .nil)
  have hinside : Renders [.leaf "f" (Or.inl hf), .leaf _ (Or.inr hliteral),
      .leaf "g" (Or.inl hg), .group [.leaf "h" (Or.inl hh)]]
      ("f".toList ++ ("\"a)\\\"\"".toList ++ ("g".toList ++ ['(', 'h', ']', '\t']))) := by
    refine .leaf _ ?_ (.leaf _ ?_ (.leaf _ (fun _ => False.elim) hgroup))
    · intro _ hnext
      exact absurd (hnext.2 '"' (by decide)) (by decide)
    · intro hquote _
      exact absurd (hquote.2 '"' (by decide)) (by decide)
  have hprogram : Renders _ ('[' :: (_ ++ ')' :: _)) := .group (by decide) hinside (by decide) hpair
  have hrenders : Renders _ (' ' :: _) := .blank (by decide) hprogram
  exact ⟨_, hrenders, rfl, (readProgram_rendering hrenders).2.2 true⟩

end Redex
