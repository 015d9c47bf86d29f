import Redex.Proofs.Concatenation

/-!
# The pieces of a source

The lexer goes through a source one character at a time. What it finds can also be said by patterns:
blanks, brackets, strings with and without their end, and words. Wherever characters are left, one of
the patterns takes the next piece, and the pieces follow each other without a hole until nothing is
left.

* **`Closes`** — a string has its end; **`closes_or_open`** says what stands behind a quote without
  one, and **`LiteralBody.not_closes`** that there is none then.
* **`Piece`** — what the patterns take. **`exists_piece`** takes the next piece of any characters,
  **`Piece.unique`** leaves no choice in it, and **`Piece.lexes`** is what the lexer makes of it.
* **`Scans`** — the loop over the pieces, and **`scans_iff`**: it ends with the tokens of the lexer.
* **`Cut`** — a source as tokens with blanks around them, each token as its neighbours allow it.
  **`Scans.exists_cut`** finds one along the loop, and by **`Cut.tokens_eq`** there is no other.
* **`lex_covers`** — the lexer covers every source.
-/

namespace Redex

open Text (isBlank)

variable {kind : Option TokenKind} {text rest before behind body tail : List Char}

/-! ## Strings and their ends -/

/-- Behind an opening quote stands the one that ends the string: no backslash takes it along. -/
def Closes (cs : List Char) : Prop :=
  ∃ body rest, LiteralBody body ∧ cs = body ++ '"' :: rest

/-- The source may end between a backslash and the character that it would take along. -/
def EndsOpen (tail : List Char) : Prop :=
  tail = [] ∨ tail = ['\\']

/-- Behind a quote, the string ends or takes the rest of the source. -/
theorem closes_or_open : ∀ cs : List Char,
    Closes cs ∨ ∃ body tail, LiteralBody body ∧ EndsOpen tail ∧ cs = body ++ tail
  | [] => Or.inr ⟨[], [], .nil, Or.inl rfl, rfl⟩
  | [c] => by
    by_cases hbackslash : c = '\\'
    · exact Or.inr ⟨[], [c], .nil, Or.inr (by rw [hbackslash]), rfl⟩
    · by_cases hquote : c = '"'
      · exact Or.inl ⟨[], [], .nil, by rw [hquote]; rfl⟩
      · exact Or.inr ⟨[c], [], .plain hbackslash hquote .nil, Or.inl rfl, rfl⟩
  | c :: d :: cs => by
    by_cases hbackslash : c = '\\'
    · -- the backslash takes `d` along, whatever it is
      subst hbackslash
      rcases closes_or_open cs with ⟨body, rest, hbody, rfl⟩ | ⟨body, tail, hbody, htail, rfl⟩
      · exact Or.inl ⟨'\\' :: d :: body, rest, .escaped d hbody, rfl⟩
      · exact Or.inr ⟨'\\' :: d :: body, tail, .escaped d hbody, htail, rfl⟩
    · by_cases hquote : c = '"'
      · exact Or.inl ⟨[], d :: cs, .nil, by rw [hquote]; rfl⟩
      · rcases closes_or_open (d :: cs) with ⟨body, rest, hbody, h⟩ | ⟨body, tail, hbody, htail, h⟩
        · exact Or.inl ⟨c :: body, rest, .plain hbackslash hquote hbody, by rw [h]; rfl⟩
        · exact Or.inr ⟨c :: body, tail, .plain hbackslash hquote hbody, htail, by rw [h]; rfl⟩

/-- A string that takes the rest of the source is left open by the lexer. -/
theorem lexFrom_open (h : LiteralBody body) (htail : EndsOpen tail) (read : List Char) :
    lexFrom (.string read false) (body ++ tail) =
      [LexState.emit .openString ((body ++ tail).reverse ++ read)] := by
  rw [lexFrom_inside_string h]
  rcases htail with rfl | rfl
  · rw [List.append_nil]
    rfl
  · rw [List.reverse_append, List.append_assoc]
    rfl

theorem LiteralBody.not_closes (h : LiteralBody body) (htail : EndsOpen tail) :
    ¬ Closes (body ++ tail) := by
  rintro ⟨start, rest, hstart, hsplit⟩
  -- the lexer would both leave the string open and end it
  have hopen := lexFrom_open h htail []
  rw [hsplit, lexFrom_inside_string hstart] at hopen
  have hclosed : lexFrom (.string (start.reverse ++ []) false) ('"' :: rest) =
      LexState.emit .string ('"' :: (start.reverse ++ [])) :: lexFrom .between rest := rfl
  rw [hclosed] at hopen
  have hkind : TokenKind.string = TokenKind.openString := congrArg Token.kind (List.cons.inj hopen).1
  cases hkind

/-! ## Pieces -/

/-- A pattern takes the text and leaves the rest: as blanks, or as a token of the kind. Blanks and
words take as much as they can. -/
inductive Piece : Option TokenKind → List Char → List Char → Prop where
  | blanks {text rest : List Char} (hne : text ≠ []) (hblank : ∀ c ∈ text, isBlank c = true)
      (stops : ∀ c ∈ rest.head?, isBlank c = false) : Piece none text rest
  | opening {c : Char} {rest : List Char} (hc : Token.isOpener c = true) :
      Piece (some .opening) [c] rest
  | closing {c : Char} {rest : List Char} (hc : Token.isCloser c = true) :
      Piece (some .closing) [c] rest
  | string {body rest : List Char} (hbody : LiteralBody body) :
      Piece (some .string) ('"' :: (body ++ ['"'])) rest
  | openString {body tail : List Char} (hbody : LiteralBody body) (htail : EndsOpen tail) :
      Piece (some .openString) ('"' :: (body ++ tail)) []
  | word {text rest : List Char} (hne : text ≠ [])
      (hword : ∀ c ∈ text, Token.isDelimiter c = false) (stops : Delimited rest) :
      Piece (some .word) text rest

/-- The token that a piece is, unless it is blank. -/
def tokensOf (kind : Option TokenKind) (text : List Char) : List Token :=
  (kind.map fun k => (⟨k, String.ofList text⟩ : Token)).toList

theorem Piece.ne_nil (h : Piece kind text rest) : text ≠ [] := by
  cases h with
  | blanks hne _ _ => exact hne
  | opening _ => exact List.cons_ne_nil _ _
  | closing _ => exact List.cons_ne_nil _ _
  | string _ => exact List.cons_ne_nil _ _
  | openString _ _ => exact List.cons_ne_nil _ _
  | word hne _ _ => exact hne

/-- A run of characters is what a test admits, if it stops where the test admits no more. -/
theorem takeWhile_run {p : Char → Bool} (hrun : ∀ c ∈ text, p c = true)
    (stops : ∀ c ∈ rest.head?, p c = false) : (text ++ rest).takeWhile p = text := by
  rw [List.takeWhile_append_of_pos hrun]
  cases rest with
  | nil => exact List.append_nil text
  | cons c rest => rw [List.takeWhile_cons_of_neg (by simp [stops c rfl]), List.append_nil]

/-- The characters that a test admits, up to the first that it does not. -/
theorem exists_run {p : Char → Bool} {c : Char} (hc : p c = true) (cs : List Char) :
    ∃ text rest, text ++ rest = c :: cs ∧ text ≠ [] ∧ (∀ d ∈ text, p d = true) ∧
      ∀ d ∈ rest.head?, p d = false := by
  refine ⟨(c :: cs).takeWhile p, (c :: cs).dropWhile p, List.takeWhile_append_dropWhile, ?_, ?_, ?_⟩
  · rw [List.takeWhile_cons_of_pos hc]
    exact List.cons_ne_nil _ _
  · exact List.all_eq_true.mp List.all_takeWhile
  · intro d hd
    have hstops := List.head?_dropWhile_not p (c :: cs)
    rw [Option.mem_def.mp hd] at hstops
    exact hstops

/-- Where characters are left, a pattern takes the next piece. -/
theorem exists_piece {left : List Char} (hne : left ≠ []) :
    ∃ kind text rest, text ++ rest = left ∧ Piece kind text rest := by
  obtain ⟨c, cs, rfl⟩ := List.exists_cons_of_ne_nil hne
  cases hdelimiter : Token.isDelimiter c with
  | false =>
    obtain ⟨text, rest, hleft, hne, hword, hstops⟩ :=
      exists_run (p := fun d => !Token.isDelimiter d) (by rw [hdelimiter]; rfl) cs
    simp only [Bool.not_eq_true', Bool.not_eq_false'] at hword hstops
    exact ⟨some .word, text, rest, hleft, .word hne hword hstops⟩
  | true =>
    simp only [Token.isDelimiter, Bool.or_eq_true, beq_iff_eq] at hdelimiter
    rcases hdelimiter with ((hblank | hopener) | hcloser) | rfl
    · obtain ⟨text, rest, hleft, hne, hall, hstops⟩ := exists_run hblank cs
      exact ⟨none, text, rest, hleft, .blanks hne hall hstops⟩
    · exact ⟨some .opening, [c], cs, rfl, .opening hopener⟩
    · exact ⟨some .closing, [c], cs, rfl, .closing hcloser⟩
    · rcases closes_or_open cs with ⟨body, rest, hbody, rfl⟩ | ⟨body, tail, hbody, htail, rfl⟩
      · exact ⟨some .string, '"' :: (body ++ ['"']), rest, by simp, .string hbody⟩
      · exact ⟨some .openString, '"' :: (body ++ tail), [], List.append_nil _,
          .openString hbody htail⟩

theorem isBare_ofList (hne : text ≠ []) (hword : ∀ c ∈ text, Token.isDelimiter c = false) :
    IsBare (String.ofList text) := by
  refine ⟨?_, ?_⟩
  · intro hempty
    exact hne (by simpa using congrArg String.toList hempty)
  · rw [IsWord, String.toList_ofList]
    exact hword

/-- The lexer finds the token that the piece is, and goes on behind it. -/
theorem Piece.lexes (h : Piece kind text rest) :
    lexFrom .between (text ++ rest) = tokensOf kind text ++ lexFrom .between rest := by
  cases h with
  | blanks _ hblank _ => exact lexFrom_blanks hblank rest
  | opening hc => exact lexFrom_opener hc rest
  | closing hc => exact lexFrom_closer hc rest
  | @string body _ hbody =>
    have hliteral : IsLiteral (String.ofList ('"' :: (body ++ ['"']))) :=
      ⟨body, hbody, String.toList_ofList⟩
    have hlex := lexFrom_literal hliteral rest
    rw [String.toList_ofList] at hlex
    exact hlex
  | openString hbody htail =>
    have hquote : ∀ cs, lexFrom .between ('"' :: cs) = lexFrom (.string ['"'] false) cs :=
      fun _ => rfl
    rw [List.append_nil, hquote, lexFrom_open hbody htail, LexState.emit, ← List.reverse_cons,
      List.reverse_reverse]
    rfl
  | word hne hword stops =>
    have hlex := lexFrom_word (isBare_ofList hne hword) stops
    rw [String.toList_ofList] at hlex
    exact hlex

/-- Blanks stand in front of no other piece. -/
theorem Piece.takeWhile_isBlank (h : Piece kind text rest) :
    (text ++ rest).takeWhile isBlank = if kind = none then text else [] := by
  cases h with
  | blanks _ hblank stops => exact takeWhile_run hblank stops
  | @opening c _ hc =>
    have hcases : c = '(' ∨ c = '[' := by simpa [Token.isOpener] using hc
    rcases hcases with rfl | rfl <;> exact List.takeWhile_cons_of_neg (by decide)
  | @closing c _ hc =>
    have hcases : c = ')' ∨ c = ']' := by simpa [Token.isCloser] using hc
    rcases hcases with rfl | rfl <;> exact List.takeWhile_cons_of_neg (by decide)
  | string _ => exact List.takeWhile_cons_of_neg (by decide)
  | openString _ _ => exact List.takeWhile_cons_of_neg (by decide)
  | word hne hword _ =>
    obtain ⟨c, cs, rfl⟩ := List.exists_cons_of_ne_nil hne
    have hc : Token.isDelimiter c = false := hword c List.mem_cons_self
    simp only [Token.isDelimiter, Bool.or_eq_false_iff] at hc
    exact List.takeWhile_cons_of_neg (by simp [hc.1.1.1])

/-- The same characters have no other next piece. -/
theorem Piece.unique {kind' : Option TokenKind} {text' rest' : List Char}
    (h : Piece kind text rest) (h' : Piece kind' text' rest') (hsame : text' ++ rest' = text ++ rest) :
    kind' = kind ∧ text' = text ∧ rest' = rest := by
  have htext : kind' = kind ∧ text' = text := by
    have hblanks := h'.takeWhile_isBlank
    rw [hsame, h.takeWhile_isBlank] at hblanks
    cases kind with
    | none =>
      cases kind' with
      | none => exact ⟨rfl, hblanks.symm⟩
      | some k' => exact absurd hblanks h.ne_nil
    | some k =>
      cases kind' with
      | none => exact absurd hblanks.symm h'.ne_nil
      | some k' =>
        -- both are the first token that the lexer finds
        have hlex := h'.lexes
        rw [hsame, h.lexes] at hlex
        obtain ⟨htoken, -⟩ := List.cons.inj hlex
        obtain ⟨rfl, hchars⟩ := Token.mk.inj htoken
        exact ⟨rfl, (String.ofList_injective hchars).symm⟩
  obtain ⟨rfl, rfl⟩ := htext
  exact ⟨rfl, rfl, List.append_cancel_left hsame⟩

/-! ## The loop over the pieces -/

/-- Piece by piece is taken until nothing is left; the tokens are those among the pieces. -/
inductive Scans : List Char → List Token → Prop where
  | done : Scans [] []
  | piece {kind : Option TokenKind} {text rest : List Char} {tokens : List Token}
      (first : Piece kind text rest) (more : Scans rest tokens) :
      Scans (text ++ rest) (tokensOf kind text ++ tokens)

/-- The loop ends: every piece takes a character at least. -/
theorem scans_lexFrom (cs : List Char) : Scans cs (lexFrom .between cs) := by
  by_cases hne : cs = []
  · subst hne
    exact .done
  · obtain ⟨kind, text, rest, hleft, hpiece⟩ := exists_piece hne
    have hshorter : rest.length < cs.length := by
      have hlength := congrArg List.length hleft
      have hpos := List.length_pos_iff.mpr hpiece.ne_nil
      rw [List.length_append] at hlength
      omega
    rw [← hleft, hpiece.lexes]
    exact .piece hpiece (scans_lexFrom rest)
termination_by cs.length

theorem scans_iff {cs : List Char} {tokens : List Token} :
    Scans cs tokens ↔ tokens = lexFrom .between cs := by
  constructor
  · intro h
    induction h with
    | done => rfl
    | piece first _ ih => rw [first.lexes, ih]
  · rintro rfl
    exact scans_lexFrom cs

/-! ## Tokens with blanks around them -/

/-- The token as it stands between other characters. A word is not part of a longer one on either
side; a string without its end takes all that is left. -/
def Token.Stands (before behind : List Char) (t : Token) : Prop :=
  match t.kind with
  | .opening => ∃ c, Token.isOpener c = true ∧ t.text.toList = [c]
  | .closing => ∃ c, Token.isCloser c = true ∧ t.text.toList = [c]
  | .string => IsLiteral t.text
  | .openString => behind = [] ∧ ∃ cs, ¬ Closes cs ∧ t.text.toList = '"' :: cs
  | .word => IsBare t.text ∧ Delimited before.reverse ∧ Delimited behind

/-- The characters of tokens, each with the blanks behind it. -/
def spaced (pieces : List (Token × List Char)) : List Char :=
  pieces.flatMap fun p => p.1.text.toList ++ p.2

/-- What stands behind other characters, cut into tokens and the blanks around them. -/
structure Cut (before source : List Char) where
  -- The blanks in front of the first token.
  lead : List Char
  pieces : List (Token × List Char)
  whole : lead ++ spaced pieces = source
  blank_lead : ∀ c ∈ lead, isBlank c = true
  blank_gaps : ∀ p ∈ pieces, ∀ c ∈ p.2, isBlank c = true
  -- A token stands between all that comes before it and all that comes behind it.
  stands : ∀ front t gap back, pieces = front ++ (t, gap) :: back →
    t.Stands (before ++ lead ++ spaced front) (gap ++ spaced back)

namespace Cut

def tokens {source : List Char} (cut : Cut before source) : List Token :=
  cut.pieces.map Prod.fst

def nil (before : List Char) : Cut before [] where
  lead := []
  pieces := []
  whole := rfl
  blank_lead := nofun
  blank_gaps := nofun
  stands := by simp

/-- More blanks go in front of the first token. -/
def blanksBefore (hblank : ∀ c ∈ text, isBlank c = true) (cut : Cut (before ++ text) rest) :
    Cut before (text ++ rest) where
  lead := text ++ cut.lead
  pieces := cut.pieces
  whole := by rw [List.append_assoc, cut.whole]
  blank_lead := List.forall_mem_append.mpr ⟨hblank, cut.blank_lead⟩
  blank_gaps := cut.blank_gaps
  stands := by
    intro front t gap back h
    rw [← List.append_assoc before]
    exact cut.stands front t gap back h

/-- One more token goes in front, and the blanks there stand behind it. -/
def tokenBefore (t : Token) (htext : t.text.toList = text) (ht : t.Stands before rest)
    (cut : Cut (before ++ text) rest) : Cut before (text ++ rest) where
  lead := []
  pieces := (t, cut.lead) :: cut.pieces
  whole := by
    rw [List.nil_append, spaced, List.flatMap_cons, ← spaced, List.append_assoc, cut.whole, htext]
  blank_lead := nofun
  blank_gaps := List.forall_mem_cons.mpr ⟨cut.blank_lead, cut.blank_gaps⟩
  stands := by
    intro front u gap back h
    cases front with
    | nil =>
      obtain ⟨hfirst, rfl⟩ := List.cons.inj h
      obtain ⟨rfl, rfl⟩ := Prod.mk.inj hfirst
      rw [cut.whole]
      simpa [spaced] using ht
    | cons p front =>
      obtain ⟨rfl, hpieces⟩ := List.cons.inj h
      have hstands := cut.stands front u gap back hpieces
      simpa [spaced, htext] using hstands

end Cut

/-- Behind a piece, or before what is left, a word could not go on. -/
theorem Piece.parts (h : Piece kind text rest) (before : List Char) :
    Delimited (before ++ text).reverse ∨ Delimited rest := by
  -- in front of the rest stands the last character of the piece
  have hlast : ∀ (front : List Char) {c : Char}, text = front ++ [c] →
      Token.isDelimiter c = true → Delimited (before ++ text).reverse := by
    rintro front c rfl hc d hd
    have hcd : c = d := by simpa using hd
    rw [← hcd]
    exact hc
  cases h with
  | blanks hne hblank _ =>
    refine Or.inl (hlast _ (List.dropLast_concat_getLast hne).symm ?_)
    exact isDelimiter_of_isBlank (hblank _ (List.getLast_mem hne))
  | opening hc => exact Or.inl (hlast [] rfl (by simp [Token.isDelimiter, hc]))
  | closing hc => exact Or.inl (hlast [] rfl (by simp [Token.isDelimiter, hc]))
  | @string body _ _ => exact Or.inl (hlast ('"' :: body) rfl (by decide))
  | openString _ _ =>
    refine Or.inr ?_
    rintro d ⟨⟩
  | word _ _ stops => exact Or.inr stops

/-- A piece stands as its neighbours allow it, where no word goes on from one piece to the next. -/
theorem Piece.stands {k : TokenKind} (h : Piece (some k) text rest)
    (parted : Delimited before.reverse ∨ Delimited (text ++ rest)) :
    Token.Stands before rest ⟨k, String.ofList text⟩ := by
  cases h with
  | @opening c _ hc => exact ⟨c, hc, String.toList_ofList⟩
  | @closing c _ hc => exact ⟨c, hc, String.toList_ofList⟩
  | @string body _ hbody => exact ⟨body, hbody, String.toList_ofList⟩
  | openString hbody htail => exact ⟨rfl, _, hbody.not_closes htail, String.toList_ofList⟩
  | word hne hword stops =>
    refine ⟨isBare_ofList hne hword, ?_, stops⟩
    rcases parted with hbefore | htext
    · exact hbefore
    · -- the word itself starts with no delimiter
      obtain ⟨c, cs, rfl⟩ := List.exists_cons_of_ne_nil hne
      have hc : Token.isDelimiter c = false := hword c List.mem_cons_self
      rw [htext c rfl] at hc
      cases hc

/-- The loop cuts what it goes through into its tokens. -/
theorem Scans.exists_cut {cs : List Char} {tokens : List Token} (h : Scans cs tokens)
    (before : List Char) (parted : Delimited before.reverse ∨ Delimited cs) :
    ∃ cut : Cut before cs, cut.tokens = tokens := by
  induction h generalizing before with
  | done => exact ⟨.nil before, rfl⟩
  | @piece kind text rest tokens first _ ih =>
    obtain ⟨cut, hcut⟩ := ih (before ++ text) (first.parts before)
    cases kind with
    | none =>
      cases first with
      | blanks _ hblank _ => exact ⟨cut.blanksBefore hblank, hcut⟩
    | some k =>
      refine ⟨cut.tokenBefore ⟨k, String.ofList text⟩ String.toList_ofList (first.stands parted), ?_⟩
      exact congrArg (List.cons _) hcut

/-- A token that stands as it should is a piece. -/
theorem Token.Stands.piece {t : Token} (h : t.Stands before behind) :
    Piece (some t.kind) t.text.toList behind := by
  obtain ⟨kind, text⟩ := t
  cases kind with
  | opening =>
    obtain ⟨c, hc, htext⟩ := h
    rw [htext]
    exact .opening hc
  | closing =>
    obtain ⟨c, hc, htext⟩ := h
    rw [htext]
    exact .closing hc
  | string =>
    obtain ⟨body, hbody, htext⟩ := h
    rw [htext]
    exact .string hbody
  | openString =>
    obtain ⟨rfl, cs, hopen, htext⟩ := h
    rcases closes_or_open cs with hcloses | ⟨body, tail, hbody, htail, rfl⟩
    · exact absurd hcloses hopen
    · rw [htext]
      exact .openString hbody htail
  | word =>
    obtain ⟨⟨hne, hword⟩, -, hbehind⟩ := h
    exact .word (mt String.toList_eq_nil_iff.mp hne) hword hbehind

/-- Tokens that stand as they should are what the lexer finds, one after the other. -/
theorem lexFrom_spaced {pieces : List (Token × List Char)} {lead : List Char}
    (hlead : ∀ c ∈ lead, isBlank c = true) (hgaps : ∀ p ∈ pieces, ∀ c ∈ p.2, isBlank c = true)
    (hstands : ∀ front t gap back, pieces = front ++ (t, gap) :: back →
      ∃ before, t.Stands before (gap ++ spaced back)) :
    lexFrom .between (lead ++ spaced pieces) = pieces.map Prod.fst := by
  induction pieces generalizing lead with
  | nil => exact lexFrom_blanks hlead []
  | cons p pieces ih =>
    obtain ⟨t, gap⟩ := p
    obtain ⟨hgap, hgaps⟩ := List.forall_mem_cons.mp hgaps
    obtain ⟨before, ht⟩ := hstands [] t gap pieces rfl
    have hrest := ih hgap hgaps fun front u gap' back h =>
      hstands ((t, gap) :: front) u gap' back (by rw [h]; rfl)
    have hchars : spaced ((t, gap) :: pieces) = t.text.toList ++ (gap ++ spaced pieces) := by
      simp [spaced]
    rw [lexFrom_blanks hlead, hchars, ht.piece.lexes, hrest, tokensOf, String.ofList_toList]
    rfl

/-- However a source is cut into tokens that stand as they should, these are those of the lexer. -/
theorem Cut.tokens_eq {source : String} (cut : Cut [] source.toList) : cut.tokens = lex source := by
  have hlex := lexFrom_spaced cut.blank_lead cut.blank_gaps fun front t gap back h =>
    ⟨_, cut.stands front t gap back h⟩
  rw [cut.whole] at hlex
  exact hlex.symm

/-- Nothing is left behind a string without its end. -/
theorem Cut.open_last {source : List Char} (cut : Cut before source) {front back : List Token}
    {t : Token} (htokens : cut.tokens = front ++ t :: back) (hopen : t.kind = .openString) :
    back = [] := by
  obtain ⟨front', rest, hpieces, -, hrest⟩ := List.map_eq_append_iff.mp htokens
  obtain ⟨⟨u, gap⟩, back', rfl, rfl, hback⟩ := List.map_eq_cons_iff.mp hrest
  have hkind : u.kind = .openString := hopen
  have hnothing : gap ++ spaced back' = [] := by
    have hstands := cut.stands front' u gap back' hpieces
    rw [Token.Stands, hkind] at hstands
    exact hstands.1
  cases back' with
  | nil => exact hback.symm
  | cons p back' =>
    -- the next token would have a character at least
    have hpieces' : cut.pieces = (front' ++ [(u, gap)]) ++ (p.1, p.2) :: back' := by simp [hpieces]
    have hnext := (cut.stands _ _ _ _ hpieces').piece.ne_nil
    simp [spaced, hnext] at hnothing

/-! ## The whole source -/

/-- The lexer covers every source. Wherever characters are left in it, exactly one pattern takes the
next piece; the loop over the pieces ends, and with the tokens of the lexer alone. The source is cut
into these tokens and the blanks around them, and into no others; and a string without its end comes
last. -/
theorem lex_covers (source : String) :
    (∀ left, left <:+ source.toList → left ≠ [] →
      ∃ kind text rest, text ++ rest = left ∧ Piece kind text rest ∧
        ∀ kind' text' rest', text' ++ rest' = left → Piece kind' text' rest' →
          kind' = kind ∧ text' = text ∧ rest' = rest) ∧
    (∀ tokens, Scans source.toList tokens ↔ tokens = lex source) ∧
    (∃ cut : Cut [] source.toList, cut.tokens = lex source) ∧
    (∀ cut : Cut [] source.toList, cut.tokens = lex source) ∧
    ∀ front t back, lex source = front ++ t :: back → t.kind = .openString → back = [] := by
  obtain ⟨cut, hcut⟩ := (scans_lexFrom source.toList).exists_cut [] (Or.inl nofun)
  refine ⟨?_, fun tokens => scans_iff, ⟨cut, hcut⟩, Cut.tokens_eq, ?_⟩
  · intro left _ hne
    obtain ⟨kind, text, rest, hleft, hpiece⟩ := exists_piece hne
    refine ⟨kind, text, rest, hleft, hpiece, ?_⟩
    intro kind' text' rest' hleft' hpiece'
    exact hpiece.unique hpiece' (hleft'.trans hleft.symm)
  · intro front t back htokens hopen
    exact cut.open_last (hcut.trans htokens) hopen

/-- A backslash that the source ends with belongs to the string that it leaves open. -/
theorem lex_covers_backslash :
    (∃ kind text rest, text ++ rest = ['"', '\\'] ∧ Piece kind text rest) ∧
    Scans "f(\"\\".toList [⟨.word, "f"⟩, ⟨.opening, "("⟩, ⟨.openString, "\"\\"⟩] ∧
    ∃ cut : Cut [] "f(\"\\".toList,
      cut.tokens = [⟨.word, "f"⟩, ⟨.opening, "("⟩, ⟨.openString, "\"\\"⟩] := by
  have htokens : lex "f(\"\\" = [⟨.word, "f"⟩, ⟨.opening, "("⟩, ⟨.openString, "\"\\"⟩] := by
    decide +kernel
  obtain ⟨hpiece, hscans, hcut, -, -⟩ := lex_covers "f(\"\\"
  rw [htokens] at hcut hscans
  obtain ⟨kind, text, rest, hleft, hpiece, -⟩ :=
    hpiece ['"', '\\'] ⟨['f', '('], by decide +kernel⟩ (List.cons_ne_nil _ _)
  exact ⟨⟨kind, text, rest, hleft, hpiece⟩, (hscans _).mpr rfl, hcut⟩

end Redex
