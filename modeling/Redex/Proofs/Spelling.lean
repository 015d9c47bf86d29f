import Redex.Proofs.Grammar

/-!
# Characters that spell a tree

What a token looks like in a source, and what the lexer makes of it there. A word goes on until a
delimiter stands behind it; brackets and string literals end by themselves.

* **`IsLiteral`** — the string literals: quotes around characters that are neither quotes nor
  backslashes, and pairs of a backslash and the character behind it.
* **`lexFrom_blank`**, **`lexFrom_word`**, **`lexFrom_literal`**, **`lexFrom_opener`** and
  **`lexFrom_closer`** — one piece of a source, whatever stands behind it.
* **`Spells`** — characters that are lexed into the tokens of a tree wherever they stand before a
  delimiter: **`spells_word`** and **`spells_literal`** for the trees of one token.
-/

namespace Redex

variable {c : Char} {cs ds rest : List Char} {s : String}

/-! ## The texts of tokens -/

/-- The text of a word: a run of characters that none of them ends, and at least one. -/
def IsBare (s : String) : Prop :=
  s ≠ "" ∧ IsWord s

/-- What may stand between the quotes of a string: a backslash takes the character behind it with
it, so that no quote is left that would end the string. -/
inductive LiteralBody : List Char → Prop where
  | nil : LiteralBody []
  | escaped (c : Char) {cs : List Char} (h : LiteralBody cs) : LiteralBody ('\\' :: c :: cs)
  | plain {c : Char} {cs : List Char} (hbackslash : c ≠ '\\') (hquote : c ≠ '"')
      (h : LiteralBody cs) : LiteralBody (c :: cs)

/-- The text of a string with its closing quote. -/
def IsLiteral (s : String) : Prop :=
  ∃ body, LiteralBody body ∧ s.toList = '"' :: body ++ ['"']

instance (s : String) : Decidable (IsWord s) :=
  List.decidableBAll (fun c => Token.isDelimiter c = false) s.toList

instance (s : String) : Decidable (IsBare s) :=
  inferInstanceAs (Decidable (s ≠ "" ∧ IsWord s))

theorem LiteralBody.plain_append (h : LiteralBody cs) (hds : ∀ c ∈ ds, c ≠ '\\' ∧ c ≠ '"') :
    LiteralBody (ds ++ cs) := by
  induction ds with
  | nil => exact h
  | cons d ds ih =>
    obtain ⟨⟨hbackslash, hquote⟩, hds⟩ := List.forall_mem_cons.mp hds
    exact .plain hbackslash hquote (ih hds)

/-! ## Pieces of a source -/

/-- Characters that cannot go on with a word. -/
def Delimited (rest : List Char) : Prop :=
  ∀ c ∈ rest.head?, Token.isDelimiter c = true

theorem isDelimiter_of_isBlank (hc : Text.isBlank c = true) : Token.isDelimiter c = true := by
  simp [Token.isDelimiter, hc]

theorem start_of_not_isDelimiter (hc : Token.isDelimiter c = false) :
    LexState.start c = ([], .word [c]) := by
  simp only [Token.isDelimiter, Bool.or_eq_false_iff] at hc
  obtain ⟨⟨⟨hblank, hopener⟩, hcloser⟩, hquote⟩ := hc
  simp [LexState.start, hblank, hopener, hcloser, hquote]

theorem lexFrom_blank (hc : Text.isBlank c = true) (rest : List Char) :
    lexFrom .between (c :: rest) = lexFrom .between rest := by
  simp [lexFrom, LexState.next, LexState.start, hc]

theorem lexFrom_opener (hc : Token.isOpener c = true) (rest : List Char) :
    lexFrom .between (c :: rest) = LexState.emit .opening [c] :: lexFrom .between rest := by
  have hcases : c = '(' ∨ c = '[' := by simpa [Token.isOpener] using hc
  rcases hcases with rfl | rfl <;> rfl

theorem lexFrom_closer (hc : Token.isCloser c = true) (rest : List Char) :
    lexFrom .between (c :: rest) = LexState.emit .closing [c] :: lexFrom .between rest := by
  have hcases : c = ')' ∨ c = ']' := by simpa [Token.isCloser] using hc
  rcases hcases with rfl | rfl <;> rfl

/-- Inside a word the lexer goes on until a delimiter stands next. -/
theorem lexFrom_inside_word (hcs : ∀ c ∈ cs, Token.isDelimiter c = false) (hrest : Delimited rest)
    (read : List Char) : lexFrom (.word read) (cs ++ rest) =
      LexState.emit .word (cs.reverse ++ read) :: lexFrom .between rest := by
  induction cs generalizing read with
  | nil =>
    cases rest with
    | nil => rfl
    | cons c rest =>
      have hc : Token.isDelimiter c = true := hrest c rfl
      simp [lexFrom, LexState.next, hc]
  | cons c cs ih =>
    obtain ⟨hc, hcs⟩ := List.forall_mem_cons.mp hcs
    simp [lexFrom, LexState.next, hc, ih hcs]

theorem lexFrom_word (h : IsBare s) (hrest : Delimited rest) :
    lexFrom .between (s.toList ++ rest) = ⟨.word, s⟩ :: lexFrom .between rest := by
  obtain ⟨hne, hword⟩ := h
  obtain ⟨c, cs, hs⟩ := List.exists_cons_of_ne_nil (mt String.toList_eq_nil_iff.mp hne)
  rw [IsWord, hs] at hword
  obtain ⟨hc, hcs⟩ := List.forall_mem_cons.mp hword
  have htoken : LexState.emit .word (cs.reverse ++ [c]) = ⟨.word, s⟩ := by
    rw [LexState.emit, ← List.reverse_cons, List.reverse_reverse, ← hs, String.ofList_toList]
  rw [hs, List.cons_append, lexFrom, LexState.next, start_of_not_isDelimiter hc, List.nil_append,
    lexFrom_inside_word hcs hrest, htoken]

/-- Inside a string the lexer takes what may stand between quotes as it is. -/
theorem lexFrom_inside_string (h : LiteralBody cs) (read rest : List Char) :
    lexFrom (.string read false) (cs ++ rest) =
      lexFrom (.string (cs.reverse ++ read) false) rest := by
  induction h generalizing read with
  | nil => rfl
  | escaped c h ih =>
    have hpair : ∀ cs, lexFrom (.string read false) ('\\' :: c :: cs) =
        lexFrom (.string (c :: '\\' :: read) false) cs := fun _ => rfl
    rw [List.cons_append, List.cons_append, hpair, ih]
    simp
  | plain hbackslash hquote h ih => simp [lexFrom, LexState.next, hbackslash, hquote, ih]

/-- A string literal ends at its closing quote, whatever stands behind it. -/
theorem lexFrom_literal (h : IsLiteral s) (rest : List Char) :
    lexFrom .between (s.toList ++ rest) = ⟨.string, s⟩ :: lexFrom .between rest := by
  obtain ⟨body, hbody, hs⟩ := h
  have hopen : ∀ cs, lexFrom .between ('"' :: cs) = lexFrom (.string ['"'] false) cs := fun _ => rfl
  have hclose : ∀ read, lexFrom (.string read false) ('"' :: rest) =
      LexState.emit .string ('"' :: read) :: lexFrom .between rest := fun _ => rfl
  have htoken : LexState.emit .string ('"' :: (body.reverse ++ ['"'])) = ⟨.string, s⟩ := by
    rw [LexState.emit, List.reverse_cons, List.reverse_append, List.reverse_reverse,
      List.reverse_singleton, List.singleton_append, ← hs, String.ofList_toList]
  have hchars : s.toList ++ rest = '"' :: (body ++ '"' :: rest) := by simp [hs]
  rw [hchars, hopen, lexFrom_inside_string hbody, hclose, htoken]

/-! ## Trees -/

/-- The characters are lexed into the tokens of the tree, and the lexer stands between tokens behind
them, if they end there or before a delimiter. -/
def Spells (cs : List Char) (t : SyntaxTree) : Prop :=
  ∀ rest, Delimited rest → lexFrom .between (cs ++ rest) = t.yield ++ lexFrom .between rest

theorem spells_word (h : IsBare s) : Spells s.toList (.atom ⟨.word, s⟩ (Or.inl rfl)) :=
  fun _ hrest => lexFrom_word h hrest

theorem spells_literal (h : IsLiteral s) : Spells s.toList (.atom ⟨.string, s⟩ (Or.inr rfl)) :=
  fun rest _ => lexFrom_literal h rest

end Redex
