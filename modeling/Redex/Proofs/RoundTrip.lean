import Redex.Expr.Printer
import Redex.Proofs.Grammar
import Redex.Proofs.Number.Decimal
import Redex.Proofs.Spelling

/-!
# Printing and reading

The surface text of a program reads back as the program. Only texts do not come back as they were: a
surface literal escapes quotes, backslashes and control characters, and the reader keeps escapes as
they are written.

* **`Expr.Readable`** — the expressions with a syntax of their own, and **`Expr.escaped`** — an
  expression with its texts as their literals write them.
* **`surfaceLiteral_isLiteral`** — the surface text of a text is a string literal.
* **`spells_group`** — the surface text of a sequence spells a tree, if those of its items do.
* **`Expr.Readable.spells`** — the surface text of an expression spells a tree of its value.
* **`readProgram_surface`** — so the surface text of a program reads back.
-/

namespace Redex

open SyntaxTree (yieldAll valueAll)
open Text (surfaceChar surfaceBody surfaceLiteral)

variable {c : Char} {cs rest : List Char} {s name : String} {e : Expr}

/-! ## Expressions with a syntax -/

namespace Expr

/-- The expressions that can be written down in a source: values, names, and sequences of such. -/
inductive Readable : Expr → Prop where
  | boolean (b : Bool) : Readable (.boolean b)
  | number {x : Float} {negative : Bool} {m : ℕ} {k : ℤ}
      (finite : Number.parts x = .finite negative m k) (hzero : x ≠ -0.0) : Readable (.number x)
  | text (s : String) : Readable (.text s)
  | symbol {name : String} (hne : name ≠ "") (word : IsWord name)
      (noBoolean : Token.boolean? name = none) (noNumber : Numeral.ofChars? name.toList = none) :
      Readable (.symbol name)
  | sequence {items : List Expr} (h : ∀ e ∈ items, Readable e) : Readable (.sequence items)

mutual

/-- The expression with every text replaced by the body of its surface literal. -/
def escaped : Expr → Expr
  | text s => .text (String.ofList (surfaceBody s.toList))
  | sequence items => .sequence (escapedAll items)
  | e => e

def escapedAll : List Expr → List Expr
  | [] => []
  | e :: es => escaped e :: escapedAll es

end

theorem escapedAll_eq_map (es : List Expr) : escapedAll es = es.map escaped := by
  induction es with
  | nil => rfl
  | cons e es ih => rw [escapedAll, ih, List.map_cons]

/-- The expression has the text in it. -/
inductive HasText (s : String) : Expr → Prop where
  | text : HasText s (.text s)
  | item {e : Expr} {items : List Expr} (he : e ∈ items) (h : HasText s e) :
      HasText s (.sequence items)

/-- Texts without a quote, a backslash or a control character are their own bodies. -/
theorem Readable.escaped_eq_self (h : Readable e)
    (plain : ∀ s, HasText s e → ∀ c ∈ s.toList, c ≠ '"' ∧ c ≠ '\\' ∧ 0x20 ≤ c.toNat) :
    e.escaped = e := by
  induction h with
  | boolean b => rfl
  | number finite hzero => rfl
  | text s => rw [escaped, Text.surfaceBody_eq_self (plain s .text), String.ofList_toList]
  | symbol hne word noBoolean noNumber => rfl
  | sequence h ih =>
    have hitems := List.map_congr_left fun e he => ih e he fun s hs => plain s (.item he hs)
    rw [escaped, escapedAll_eq_map, hitems, List.map_id']

end Expr

/-! ## Literals -/

theorem hex_plain {n : ℕ} (hn : n < 0x20) : ∀ c ∈ Text.hex 4 n, c ≠ '\\' ∧ c ≠ '"' := by
  have hall : ∀ n < 0x20, (Text.hex 4 n).all (fun c => c != '\\' && c != '"') = true := by
    decide +kernel
  simpa using List.all_eq_true.mp (hall n hn)

/-- A character of a text is written so that the string goes on behind it. -/
theorem LiteralBody.surfaceChar (c : Char) (h : LiteralBody cs) :
    LiteralBody (surfaceChar c ++ cs) := by
  unfold Text.surfaceChar
  split
  iterate 7 · exact .escaped _ h
  · rename_i hquote hbackslash _ _ _ _ _
    split
    · rename_i hcontrol
      -- the backslash takes the mark behind it, and the digits stand for themselves
      exact .escaped 'u' (h.plain_append (hex_plain hcontrol))
    · exact .plain hbackslash hquote h

theorem surfaceBody_literalBody (cs : List Char) : LiteralBody (surfaceBody cs) := by
  induction cs with
  | nil => exact .nil
  | cons c cs ih =>
    rw [surfaceBody, List.flatMap_cons]
    exact ih.surfaceChar c

theorem surfaceLiteral_isLiteral (s : String) : IsLiteral (surfaceLiteral s) :=
  ⟨surfaceBody s.toList, surfaceBody_literalBody _, by simp [surfaceLiteral]⟩

/-! ## Groups and lines -/

/-- Texts with a blank between them spell one tree each. -/
theorem lexFrom_intercalate (sep : Char) (hsep : Text.isBlank sep = true) {texts : List String}
    {trees : List SyntaxTree} (h : List.Forall₂ (fun s t => Spells s.toList t) texts trees)
    (hrest : Delimited rest) :
    lexFrom .between (((String.singleton sep).intercalate texts).toList ++ rest) =
      yieldAll trees ++ lexFrom .between rest := by
  have hdelimited : ∀ cs, Delimited (sep :: cs) := by
    rintro cs c ⟨⟩
    exact isDelimiter_of_isBlank hsep
  induction h with
  | nil => simp [yieldAll]
  | cons hfirst hothers ih =>
    cases hothers with
    | nil => simpa [yieldAll] using hfirst rest hrest
    | cons hsecond hothers =>
      rw [String.intercalate_cons_cons, String.toList_append, String.toList_append,
        String.toList_singleton, List.append_assoc, List.append_assoc, List.singleton_append,
        hfirst _ (hdelimited _), lexFrom_blank hsep, ih]
      simp only [yieldAll, List.append_assoc]

theorem spells_group {texts : List String} {trees : List SyntaxTree}
    (h : List.Forall₂ (fun s t => Spells s.toList t) texts trees) :
    Spells ("(" ++ " ".intercalate texts ++ ")").toList
      (.group ⟨.opening, "("⟩ rfl trees ⟨.closing, ")"⟩ rfl) := by
  intro rest _
  have hdelimited : Delimited (')' :: rest) := by
    rintro c ⟨⟩
    decide
  have hopen : ∀ cs, lexFrom .between ('(' :: cs) = ⟨.opening, "("⟩ :: lexFrom .between cs :=
    fun _ => rfl
  have hclose : lexFrom .between (')' :: rest) = ⟨.closing, ")"⟩ :: lexFrom .between rest := rfl
  have hitems : lexFrom .between ((" ".intercalate texts).toList ++ ')' :: rest) =
      yieldAll trees ++ lexFrom .between (')' :: rest) :=
    lexFrom_intercalate ' ' (by decide) h hdelimited
  have hchars : ("(" ++ " ".intercalate texts ++ ")").toList ++ rest =
      '(' :: ((" ".intercalate texts).toList ++ ')' :: rest) := by simp
  rw [hchars, hopen, hitems, hclose, SyntaxTree.yield]
  simp

/-! ## What a token stands for -/

theorem boolean?_eq_none (h : s.toList.head? ≠ some '#') : Token.boolean? s = none := by
  have hne : ∀ t : String, t.toList.head? = some '#' → s ≠ t := by
    rintro t ht rfl
    exact h ht
  simp [Token.boolean?, hne "#t" rfl, hne "#true" rfl, hne "#f" rfl, hne "#false" rfl]

theorem bake_number {x : Float} (h : Number.ReadsAs cs x) :
    Token.bake (String.ofList cs) = .number x := by
  obtain ⟨n, hn, rfl⟩ := h.read
  have hboolean : Token.boolean? (String.ofList cs) = none := by
    refine boolean?_eq_none ?_
    intro hhash
    rw [String.toList_ofList] at hhash
    exact absurd (h.numeric '#' (List.mem_of_mem_head? hhash)) (by decide)
  rw [Token.bake, hboolean, String.toList_ofList, hn]

theorem bake_literal (s : String) :
    Token.bake (surfaceLiteral s) = .text (String.ofList (surfaceBody s.toList)) := by
  have hchars : (surfaceLiteral s).toList = '"' :: (surfaceBody s.toList ++ ['"']) := by
    simp [surfaceLiteral]
  have hboolean : Token.boolean? (surfaceLiteral s) = none := boolean?_eq_none (by simp [hchars])
  have hnumber : Numeral.ofChars? (surfaceLiteral s).toList = none := by
    rw [hchars]
    rfl
  have hbody : Token.quotedBody? (surfaceLiteral s).toList = some (surfaceBody s.toList) := by
    simp [hchars, Token.quotedBody?]
  rw [Token.bake, hboolean, hnumber, hbody]

theorem bake_symbol (word : IsWord name) (noBoolean : Token.boolean? name = none)
    (noNumber : Numeral.ofChars? name.toList = none) : Token.bake name = .symbol name := by
  have hbody : Token.quotedBody? name.toList = none := by
    unfold Token.quotedBody?
    split
    · rename_i cs hcs
      have hquote := word '"' (by simp [hcs])
      cases hquote
    · rfl
  rw [Token.bake, noBoolean, noNumber, hbody]

/-! ## Reading back -/

/-- Expressions whose texts spell trees have a tree each. -/
theorem spells_all {items : List Expr}
    (h : ∀ e ∈ items, ∃ t : SyntaxTree, Spells e.surface.toList t ∧ t.value = e.escaped) :
    ∃ trees, List.Forall₂ (fun s t => Spells s.toList t) (Expr.surfaceAll items) trees ∧
      valueAll trees = Expr.escapedAll items := by
  induction items with
  | nil => exact ⟨[], .nil, rfl⟩
  | cons e items ih =>
    obtain ⟨⟨t, hspells, hvalue⟩, hothers⟩ := List.forall_mem_cons.mp h
    obtain ⟨trees, hspellsAll, hvalueAll⟩ := ih hothers
    refine ⟨t :: trees, .cons hspells hspellsAll, ?_⟩
    rw [valueAll, hvalue, hvalueAll, Expr.escapedAll]

/-- The surface text of an expression that can be written down spells a tree, which stands for the
expression with its texts as the literals write them. -/
theorem Expr.Readable.spells (h : Readable e) :
    ∃ t : SyntaxTree, Spells e.surface.toList t ∧ t.value = e.escaped := by
  induction h with
  | boolean b =>
    cases b with
    | true => exact ⟨_, spells_word ⟨by decide, (by decide : IsWord "#t")⟩, rfl⟩
    | false => exact ⟨_, spells_word ⟨by decide, (by decide : IsWord "#f")⟩, rfl⟩
  | @number x negative m k finite hzero =>
    have hreads := Number.surfaceChars_reads finite hzero
    have hword : IsWord (Number.surface x) := by
      intro c hc
      rw [Number.surface, String.toList_ofList] at hc
      exact (hreads.numeric c hc).isDelimiter
    have hne : Number.surface x ≠ "" := by
      intro hempty
      obtain ⟨n, hn, -⟩ := hreads.read
      rw [Number.surface, String.ofList_eq_empty_iff] at hempty
      rw [hempty] at hn
      cases hn
    exact ⟨_, spells_word ⟨hne, hword⟩, bake_number hreads⟩
  | text s => exact ⟨_, spells_literal (surfaceLiteral_isLiteral s), bake_literal s⟩
  | symbol hne word noBoolean noNumber =>
    exact ⟨_, spells_word ⟨hne, word⟩, bake_symbol word noBoolean noNumber⟩
  | sequence h ih =>
    obtain ⟨trees, hspells, hvalue⟩ := spells_all ih
    refine ⟨_, spells_group hspells, ?_⟩
    rw [SyntaxTree.value, hvalue, escaped]

/-- The surface text of a program whose forms can be written down is derived by the grammar. -/
theorem derives_surface {program : Program} (h : ∀ e ∈ program, e.Readable) :
    ∃ forest, Derives forest (lex program.surface) ∧
      valueAll forest = program.map Expr.escaped := by
  obtain ⟨forest, hspells, hvalue⟩ := spells_all fun e he => (h e he).spells
  refine ⟨forest, ?_, hvalue.trans (Expr.escapedAll_eq_map program)⟩
  have hlex : lexFrom .between (program.surface.toList ++ []) =
      yieldAll forest ++ lexFrom .between [] :=
    lexFrom_intercalate '\n' (by decide) hspells nofun
  rw [lexFrom, LexState.finish, List.append_nil, List.append_nil] at hlex
  exact hlex.symm

/-- A program whose forms can be written down reads back from its surface text, with its texts as
the literals write them. Nothing is repaired on the way, and texts that need no escapes come back as
they were. -/
theorem readProgram_surface (program : Program) (h : ∀ e ∈ program, e.Readable) :
    (TokenStream.ofTokens (lex program.surface)).parseAll.1 = program.map Expr.escaped ∧
    (TokenStream.ofTokens (lex program.surface)).parseAll.2.truncated = false ∧
    (∀ strict, readProgram strict program.surface = .ok (program.map Expr.escaped)) ∧
    ((∀ e ∈ program, ∀ s, e.HasText s → ∀ c ∈ s.toList, c ≠ '"' ∧ c ≠ '\\' ∧ 0x20 ≤ c.toNat) →
      ∀ strict, readProgram strict program.surface = .ok program) := by
  obtain ⟨forest, hderives, hvalue⟩ := derives_surface h
  obtain ⟨hwhole, hprogram⟩ := hderives.readTokens
  obtain ⟨hparsed, htruncated⟩ := TokenStream.parseAll_eq (lex program.surface)
  have hread : ∀ strict, readProgram strict program.surface = .ok (program.map Expr.escaped) := by
    intro strict
    simp [readProgram, hwhole, hprogram, hvalue]
  refine ⟨by rw [hparsed, hprogram, hvalue], by rw [htruncated, hwhole], hread, ?_⟩
  intro plain strict
  have hself := List.map_congr_left fun e he => (h e he).escaped_eq_self (plain e he)
  rw [hread, hself, List.map_id']

/-- A quote comes back with the backslash before it, and a text without one as it was. -/
theorem readProgram_surface_quote :
    (∀ e ∈ [Expr.sequence [.symbol "f", .sequence [.number 2.5, .text "a\"b"]], .boolean true],
      e.Readable) ∧
    readProgram true (Program.surface
        [.sequence [.symbol "f", .sequence [.number 2.5, .text "a\"b"]], .boolean true]) =
      .ok [.sequence [.symbol "f", .sequence [.number 2.5, .text "a\\\"b"]], .boolean true] ∧
    readProgram true (Program.surface [.sequence [.text "a b"]]) = .ok [.sequence [.text "a b"]] := by
  have hnumber : (Expr.number 2.5).Readable :=
    .number (show Number.parts 2.5 = .finite false 5629499534213120 (-51) by decide +kernel)
      (by decide +kernel)
  have hreadable : ∀ e ∈ [Expr.sequence [.symbol "f", .sequence [.number 2.5, .text "a\"b"]],
      .boolean true], e.Readable := by
    have hinner : (Expr.sequence [.number 2.5, .text "a\"b"]).Readable :=
      .sequence (List.forall_mem_cons.mpr ⟨hnumber, List.forall_mem_singleton.mpr (.text _)⟩)
    have hsymbol : (Expr.symbol "f").Readable := .symbol (by decide) (by decide) rfl rfl
    have houter : (Expr.sequence [.symbol "f", .sequence [.number 2.5, .text "a\"b"]]).Readable :=
      .sequence (List.forall_mem_cons.mpr ⟨hsymbol, List.forall_mem_singleton.mpr hinner⟩)
    exact List.forall_mem_cons.mpr ⟨houter, List.forall_mem_singleton.mpr (.boolean true)⟩
  have hplain : ∀ e ∈ [Expr.sequence [.text "a b"]], e.Readable :=
    List.forall_mem_singleton.mpr (.sequence (List.forall_mem_singleton.mpr (.text _)))
  refine ⟨hreadable, (readProgram_surface _ hreadable).2.2.1 true, ?_⟩
  refine (readProgram_surface _ hplain).2.2.2 (List.forall_mem_singleton.mpr ?_) true
  rintro s (_ | ⟨he, h⟩) c hc
  rw [List.mem_singleton.mp he] at h
  cases h
  have hchars : c = 'a' ∨ c = ' ' ∨ c = 'b' := by simpa using hc
  rcases hchars with rfl | rfl | rfl <;> decide

end Redex
