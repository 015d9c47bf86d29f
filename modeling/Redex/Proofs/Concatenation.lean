import Redex.Proofs.Spelling

/-!
# Texts one behind the other

A text that needs no repair leaves neither a string nor a group open. With a blank behind it, which
ends its last word, it may stand in front of any other text: each of them is read as if it stood
alone.

* **`lexFrom_append_blank`** — a blank ends every token but an open string, and **`lex_append`** — so
  the tokens are those of both texts.
* **`Reading.behind`** — a reading with forms that were read before, and
  **`Reading.foldl_take_behind`** — these take no part in what is read of more tokens.
* **`readTokens_append`** — behind tokens that need no repair the reader starts anew.
* **`readProgram_append`** — reading turns the concatenation of texts into that of programs.
-/

namespace Redex

open Text (isBlank)

variable {c : Char}

/-! ## Tokens -/

/-- A blank ends whatever token came before it, unless a string is open. -/
theorem lexFrom_append_blank (hc : isBlank c = true) (state : LexState) (cs ds : List Char)
    (closed : ∀ t ∈ lexFrom state cs, t.kind ≠ .openString) :
    lexFrom state (cs ++ c :: ds) = lexFrom state cs ++ lexFrom .between ds := by
  induction cs generalizing state with
  | nil =>
    cases state with
    | between => exact lexFrom_blank hc ds
    | word read =>
      simp [lexFrom, LexState.next, LexState.start, LexState.finish, isDelimiter_of_isBlank hc, hc]
    | string read escaped => exact absurd rfl (closed _ List.mem_cons_self)
  | cons c cs ih =>
    rw [lexFrom, List.forall_mem_append] at closed
    rw [List.cons_append, lexFrom, lexFrom, ih _ closed.2, List.append_assoc]

theorem lexFrom_blanks {ws : List Char} (hws : ∀ c ∈ ws, isBlank c = true) (ds : List Char) :
    lexFrom .between (ws ++ ds) = lexFrom .between ds := by
  induction ws with
  | nil => rfl
  | cons c ws ih =>
    obtain ⟨hc, hws⟩ := List.forall_mem_cons.mp hws
    rw [List.cons_append, lexFrom_blank hc, ih hws]

theorem isBlank_newline : ∀ c ∈ "\n".toList, isBlank c = true := by
  have hchars : "\n".toList = ['\n'] := rfl
  rw [hchars, List.forall_mem_singleton]
  decide

/-- Blanks part the tokens of two texts, unless the first leaves a string open. -/
theorem lex_append {s w : String} (closed : ∀ t ∈ lex s, t.kind ≠ .openString) (hne : w ≠ "")
    (hblank : ∀ c ∈ w.toList, isBlank c = true) (t : String) : lex (s ++ w ++ t) = lex s ++ lex t := by
  obtain ⟨c, ws, hw⟩ := List.exists_cons_of_ne_nil (mt String.toList_eq_nil_iff.mp hne)
  rw [hw] at hblank
  obtain ⟨hc, hws⟩ := List.forall_mem_cons.mp hblank
  have hchars : (s ++ w ++ t).toList = s.toList ++ c :: (ws ++ t.toList) := by simp [hw]
  rw [lex, hchars, lexFrom_append_blank hc .between s.toList _ closed, lexFrom_blanks hws]
  rfl

/-! ## Readings -/

namespace Reading

variable {r : Reading}

/-- The reading with forms that were read before. -/
def behind (forms : List Expr) (r : Reading) : Reading :=
  { r with forms := r.forms ++ forms }

theorem take_behind (forms : List Expr) (t : Token) :
    (r.behind forms).take t = (r.take t).behind forms := by
  have hadd : ∀ (e : Expr) (r : Reading), (r.behind forms).add e = (r.add e).behind forms := by
    intro e r
    unfold add behind
    cases r.groups with
    | nil => rfl
    | cons items groups => rfl
  unfold take
  cases t.kind with
  | opening => rfl
  | closing =>
    simp only [behind]
    cases hgroups : r.groups with
    | nil => rfl
    | cons items groups => exact hadd (group items) { r with groups := groups }
  | openString => rfl
  | string => exact hadd _ r
  | word => exact hadd _ r

theorem foldl_take_behind (forms : List Expr) (tokens : List Token) :
    tokens.foldl take (r.behind forms) = (tokens.foldl take r).behind forms := by
  induction tokens generalizing r with
  | nil => rfl
  | cons t tokens ih => rw [List.foldl_cons, List.foldl_cons, take_behind, ih]

theorem program_behind (forms : List Expr) :
    (r.behind forms).program = forms.reverse ++ r.program := by
  unfold program behind
  cases r.groups with
  | nil => simp
  | cons items groups => simp

/-- Forms that were read before mark nothing. -/
theorem isTruncated_behind (forms : List Expr) : (r.behind forms).isTruncated = r.isTruncated :=
  rfl

/-- A reading without repairs has nothing but forms. -/
theorem eq_behind_of_isTruncated (whole : r.isTruncated = false) : r = empty.behind r.forms := by
  obtain ⟨groups, forms, truncated⟩ := r
  simp only [isTruncated, Bool.or_eq_false_iff, Bool.not_eq_false', List.isEmpty_iff] at whole
  obtain ⟨rfl, rfl⟩ := whole
  rfl

end Reading

/-- Behind tokens that need no repair, the reader reads as from the start. -/
theorem readTokens_append {first : List Token} (whole : (readTokens first).isTruncated = false)
    (second : List Token) :
    readTokens (first ++ second) = (readTokens second).behind (readTokens first).program.reverse := by
  have hforms : (readTokens first).program.reverse = (readTokens first).forms := by
    rw [Reading.eq_behind_of_isTruncated whole]
    simp [Reading.program, Reading.behind, Reading.empty]
  rw [hforms, readTokens, List.foldl_append, ← readTokens, Reading.eq_behind_of_isTruncated whole,
    Reading.foldl_take_behind]
  rfl

/-! ## Programs -/

/-- A text that needs no repair is closed by any blanks behind it. -/
theorem readTokens_lex_append {s w : String} (whole : (readTokens (lex s)).isTruncated = false)
    (hne : w ≠ "") (hblank : ∀ c ∈ w.toList, isBlank c = true) (t : String) :
    (readTokens (lex (s ++ w ++ t))).program =
      (readTokens (lex s)).program ++ (readTokens (lex t)).program ∧
    (readTokens (lex (s ++ w ++ t))).isTruncated = (readTokens (lex t)).isTruncated := by
  have hclosed : ∀ t ∈ lex s, t.kind ≠ .openString := by
    rw [Reading.isTruncated, Bool.or_eq_false_iff] at whole
    exact (Reading.closed_of_truncated (lex s) whole.1).2
  rw [lex_append hclosed hne hblank, readTokens_append whole]
  refine ⟨?_, Reading.isTruncated_behind _⟩
  rw [Reading.program_behind, List.reverse_reverse]

/-- Reading turns the concatenation of texts into that of programs. Behind a text that needs no
repair and any blanks, another text is read as if it stood alone, and whether anything has to be
repaired depends on it alone. -/
theorem readProgram_append {s w : String}
    (whole : (TokenStream.ofTokens (lex s)).parseAll.2.truncated = false) (hne : w ≠ "")
    (hblank : ∀ c ∈ w.toList, isBlank c = true) (t : String) :
    (TokenStream.ofTokens (lex (s ++ w ++ t))).parseAll.1 =
      (TokenStream.ofTokens (lex s)).parseAll.1 ++ (TokenStream.ofTokens (lex t)).parseAll.1 ∧
    (TokenStream.ofTokens (lex (s ++ w ++ t))).parseAll.2.truncated =
      (TokenStream.ofTokens (lex t)).parseAll.2.truncated ∧
    ∀ strict, readProgram strict (s ++ w ++ t) = do
      let first ← readProgram strict s
      let second ← readProgram strict t
      return first ++ second := by
  simp only [(TokenStream.parseAll_eq _).1, (TokenStream.parseAll_eq _).2] at whole ⊢
  obtain ⟨hprogram, htruncated⟩ := readTokens_lex_append whole hne hblank t
  refine ⟨hprogram, htruncated, ?_⟩
  intro strict
  have hfirst : readProgram strict s = .ok (readTokens (lex s)).program := by
    simp [readProgram, whole]
  rw [hfirst, readProgram, hprogram, htruncated, readProgram]
  -- strict reading rejects both texts or neither
  cases strict && (readTokens (lex t)).isTruncated with
  | true => rfl
  | false => rfl

/-- A word is not run into the next one, and a group that the second text leaves open stays its
own. -/
theorem readProgram_append_words :
    (TokenStream.ofTokens (lex "(f x) y")).parseAll.2.truncated = false ∧
    (TokenStream.ofTokens (lex ("(f x) y" ++ "\n" ++ "z (g"))).parseAll.1 =
      [.sequence [.symbol "f", .symbol "x"], .symbol "y", .symbol "z", .sequence [.symbol "g"]] ∧
    (TokenStream.ofTokens (lex ("(f x) y" ++ "\n" ++ "z (g"))).parseAll.2.truncated = true := by
  have hwhole : (TokenStream.ofTokens (lex "(f x) y")).parseAll.2.truncated = false := by
    rw [(TokenStream.parseAll_eq _).2]
    decide +kernel
  obtain ⟨hprogram, htruncated, -⟩ :=
    readProgram_append hwhole (show "\n" ≠ "" by decide) isBlank_newline "z (g"
  refine ⟨hwhole, ?_, ?_⟩
  · rw [hprogram, (TokenStream.parseAll_eq _).1, (TokenStream.parseAll_eq _).1]
    rfl
  · rw [htruncated, (TokenStream.parseAll_eq _).2]
    decide +kernel

end Redex
