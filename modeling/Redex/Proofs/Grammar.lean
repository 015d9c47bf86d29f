import Redex.Proofs.Reading
import Redex.Reader.Stream

/-!
# The grammar of programs

A program is any number of expressions, and an expression is a word, a string, or any number of
expressions between an opening and a closing bracket. The reader accepts what this grammar derives
and nothing else; everything else it repairs.

* **`SyntaxTree`** is a derivation of one expression, and **`Derives`** says that trees derive a list
  of tokens.
* **`Derives.unique`** — the grammar is unambiguous.
* **`Derives.readTokens`** — the reader takes a derivation apart into the values of its trees.
* **`Reading.Reads`** is what the reader has read while nothing had to be repaired, and
  **`Reading.Reads.take`** says that one more token keeps it.
* **`TokenStream.parseAll_eq`** — a stream that is parsed to its end gives what the reader reads.
* **`parseAll_grammar`** — the grammar of both.
-/

namespace Redex

/-! ## Derivations -/

/-- A derivation of an expression. -/
inductive SyntaxTree where
  -- A word or a string.
  | atom (t : Token) (isAtom : t.kind = .word ∨ t.kind = .string)
  -- Expressions between brackets, whichever these are.
  | group (opener : Token) (opens : opener.kind = .opening) (items : List SyntaxTree)
    (closer : Token) (closes : closer.kind = .closing)

namespace SyntaxTree

mutual

/-- The tokens that a tree derives. -/
def yield : SyntaxTree → List Token
  | atom t _ => [t]
  | group opener _ items closer _ => opener :: (yieldAll items ++ [closer])
termination_by structural t => t

def yieldAll : List SyntaxTree → List Token
  | [] => []
  | t :: ts => yield t ++ yieldAll ts
termination_by structural ts => ts

end

mutual

/-- The expression that a tree stands for. -/
def value : SyntaxTree → Expr
  | atom t _ => Token.bake t.text
  | group _ _ items _ _ => .sequence (valueAll items)
termination_by structural t => t

def valueAll : List SyntaxTree → List Expr
  | [] => []
  | t :: ts => value t :: valueAll ts
termination_by structural ts => ts

end

theorem yieldAll_concat (ts : List SyntaxTree) (t : SyntaxTree) :
    yieldAll (ts ++ [t]) = yieldAll ts ++ yield t := by
  induction ts with
  | nil => simp [yieldAll]
  | cons u ts ih => simp [yieldAll, ih]

theorem valueAll_concat (ts : List SyntaxTree) (t : SyntaxTree) :
    valueAll (ts ++ [t]) = valueAll ts ++ [value t] := by
  induction ts with
  | nil => simp [valueAll]
  | cons u ts ih => simp [valueAll, ih]

end SyntaxTree

open SyntaxTree (yieldAll valueAll)

/-- The trees derive the tokens as a program. -/
def Derives (forest : List SyntaxTree) (tokens : List Token) : Prop :=
  yieldAll forest = tokens

/-! ## The grammar is unambiguous

The first token of a tree tells its shape, and the items of a group end at the first closing bracket
where another item could start. -/

/-- No tree starts with a closing bracket. -/
theorem SyntaxTree.yield_ne_closing {t : SyntaxTree} {c : Token} {tokens rest : List Token}
    (h : t.yield ++ tokens = c :: rest) : c.kind ≠ .closing := by
  cases t with
  | atom a isAtom =>
    simp only [yield, List.cons_append, List.cons.injEq] at h
    obtain ⟨rfl, -⟩ := h
    rcases isAtom with h | h <;> simp [h]
  | group opener opens items closer closes =>
    simp only [yield, List.cons_append, List.cons.injEq] at h
    obtain ⟨rfl, -⟩ := h
    simp [opens]

mutual

/-- A tree is determined by any tokens that start with its own. -/
theorem SyntaxTree.yield_append_inj : ∀ {t u : SyntaxTree} {r s : List Token},
    t.yield ++ r = u.yield ++ s → t = u ∧ r = s
  | .atom a isAtom, .atom b _, r, s, h => by
    simp only [SyntaxTree.yield, List.cons_append, List.nil_append, List.cons.injEq] at h
    obtain ⟨rfl, rfl⟩ := h
    exact ⟨rfl, rfl⟩
  | .atom a isAtom, .group opener opens _ _ _, r, s, h => by
    simp only [SyntaxTree.yield, List.cons_append, List.cons.injEq] at h
    obtain ⟨rfl, -⟩ := h
    rw [opens] at isAtom
    rcases isAtom with h | h <;> cases h
  | .group opener opens _ _ _, .atom b isAtom, r, s, h => by
    simp only [SyntaxTree.yield, List.cons_append, List.cons.injEq] at h
    obtain ⟨rfl, -⟩ := h
    rw [opens] at isAtom
    rcases isAtom with h | h <;> cases h
  | .group opener opens items closer closes, .group opener' _ items' closer' closes', r, s, h => by
    simp only [SyntaxTree.yield, List.cons_append, List.append_assoc, List.nil_append,
      List.cons.injEq] at h
    obtain ⟨rfl, hitems⟩ := h
    obtain ⟨rfl, rfl, rfl⟩ := SyntaxTree.yieldAll_append_inj closes closes' hitems
    exact ⟨rfl, rfl⟩

/-- The items of a group are determined by its tokens up to a closing bracket. -/
theorem SyntaxTree.yieldAll_append_inj : ∀ {ts us : List SyntaxTree} {c d : Token}
    {r s : List Token}, c.kind = .closing → d.kind = .closing →
    yieldAll ts ++ c :: r = yieldAll us ++ d :: s → ts = us ∧ c = d ∧ r = s
  | [], [], c, d, r, s, _, _, h => by
    simp only [yieldAll, List.nil_append, List.cons.injEq] at h
    exact ⟨rfl, h⟩
  | [], u :: us, c, d, r, s, hc, _, h => by
    simp only [yieldAll, List.nil_append, List.append_assoc] at h
    exact absurd hc (SyntaxTree.yield_ne_closing h.symm)
  | t :: ts, [], c, d, r, s, _, hd, h => by
    simp only [yieldAll, List.nil_append, List.append_assoc] at h
    exact absurd hd (SyntaxTree.yield_ne_closing h)
  | t :: ts, u :: us, c, d, r, s, hc, hd, h => by
    simp only [yieldAll, List.append_assoc] at h
    obtain ⟨rfl, hrest⟩ := SyntaxTree.yield_append_inj h
    obtain ⟨rfl, hends⟩ := SyntaxTree.yieldAll_append_inj hc hd hrest
    exact ⟨rfl, hends⟩

end

theorem Derives.unique {forest other : List SyntaxTree} {tokens : List Token}
    (h : Derives forest tokens) (h' : Derives other tokens) : other = forest := by
  -- behind both lists of trees the same closing bracket is put
  have hclosed : yieldAll other ++ [⟨.closing, ")"⟩] = yieldAll forest ++ [⟨.closing, ")"⟩] := by
    rw [h, h']
  exact (SyntaxTree.yieldAll_append_inj rfl rfl hclosed).1

/-! ## Reading a derivation -/

namespace Reading

variable {r : Reading}

mutual

/-- The reader adds the value of a tree when it has taken its tokens. -/
theorem foldl_take_yield : ∀ (t : SyntaxTree) (r : Reading),
    t.yield.foldl take r = r.add t.value
  | .atom t isAtom, r => by
    rw [SyntaxTree.yield, List.foldl_cons, List.foldl_nil, SyntaxTree.value, take]
    rcases isAtom with h | h <;> rw [h]
  | .group opener opens items closer closes, r => by
    have hopener : r.take opener = { r with groups := [] :: r.groups } := by
      rw [take, opens]
    rw [SyntaxTree.yield, List.foldl_cons, hopener, List.foldl_append,
      foldl_take_yieldAll items, List.append_nil, List.foldl_cons, List.foldl_nil, take, closes]
    show add (group _) _ = _
    rw [group, List.reverse_reverse, SyntaxTree.value]

/-- Inside a group the reader collects the values of the items. -/
theorem foldl_take_yieldAll : ∀ (ts : List SyntaxTree) {items : List Expr}
    {groups : List (List Expr)} {forms : List Expr} {truncated : Bool},
    (yieldAll ts).foldl take ⟨items :: groups, forms, truncated⟩ =
      ⟨((valueAll ts).reverse ++ items) :: groups, forms, truncated⟩
  | [], items, groups, forms, truncated => rfl
  | t :: ts, items, groups, forms, truncated => by
    rw [yieldAll, List.foldl_append, foldl_take_yield t, add, foldl_take_yieldAll ts, valueAll,
      List.reverse_cons, List.append_assoc]
    rfl

end

theorem foldl_take_forms (ts : List SyntaxTree) (forms : List Expr) (truncated : Bool) :
    (yieldAll ts).foldl take ⟨[], forms, truncated⟩ =
      ⟨[], (valueAll ts).reverse ++ forms, truncated⟩ := by
  induction ts generalizing forms with
  | nil => rfl
  | cons t ts ih =>
    rw [yieldAll, List.foldl_append, foldl_take_yield t, add, ih, valueAll, List.reverse_cons,
      List.append_assoc]
    rfl

end Reading

/-- The reader takes a derivation apart into the values of its trees, without a repair. -/
theorem Derives.readTokens {forest : List SyntaxTree} {tokens : List Token}
    (h : Derives forest tokens) :
    (readTokens tokens).isTruncated = false ∧ (readTokens tokens).program = valueAll forest := by
  have hread : Redex.readTokens tokens = ⟨[], (valueAll forest).reverse ++ [], false⟩ := by
    rw [Redex.readTokens, ← h]
    exact Reading.foldl_take_forms forest [] false
  rw [hread]
  exact ⟨rfl, by simp [Reading.program]⟩

/-! ## What was read without a repair

The tokens that the reader has taken are those of the trees it has completed and those of the groups
that are still open, the outermost first. -/

/-- A group that is still open. -/
structure OpenGroup where
  opener : Token
  opens : opener.kind = .opening
  items : List SyntaxTree

namespace OpenGroup

def tokens (g : OpenGroup) : List Token :=
  g.opener :: yieldAll g.items

/-- The values of the items, the newest first. -/
def read (g : OpenGroup) : List Expr :=
  (valueAll g.items).reverse

end OpenGroup

namespace Reading

/-- What the reader has read of the tokens, while nothing had to be repaired. -/
inductive Reads : List Token → Reading → Prop where
  | intro (forest : List SyntaxTree) (groups : List OpenGroup) :
      Reads (yieldAll forest ++ groups.reverse.flatMap OpenGroup.tokens)
        ⟨groups.map OpenGroup.read, (valueAll forest).reverse, false⟩

variable {r : Reading} {tokens : List Token}

/-- A completed tree is an item of the innermost open group, or a form. -/
theorem Reads.add (h : Reads tokens r) (t : SyntaxTree) :
    Reads (tokens ++ t.yield) (r.add t.value) := by
  cases h with
  | intro forest groups =>
    cases groups with
    | nil =>
      have hadded := Reads.intro (forest ++ [t]) []
      simpa [Reading.add, SyntaxTree.yieldAll_concat, SyntaxTree.valueAll_concat] using hadded
    | cons g groups =>
      have hadded := Reads.intro forest ({ g with items := g.items ++ [t] } :: groups)
      simpa [Reading.add, OpenGroup.tokens, OpenGroup.read, SyntaxTree.yieldAll_concat,
        SyntaxTree.valueAll_concat] using hadded

/-- One more token that needs no repair. -/
theorem Reads.take (h : Reads tokens r) {t : Token} (whole : (r.take t).truncated = false) :
    Reads (tokens ++ [t]) (r.take t) := by
  cases hkind : t.kind with
  | opening =>
    cases h with
    | intro forest groups =>
      have hopened := Reads.intro forest (⟨t, hkind, []⟩ :: groups)
      simpa [Reading.take, hkind, OpenGroup.tokens, OpenGroup.read, yieldAll, valueAll]
        using hopened
  | closing =>
    cases h with
    | intro forest groups =>
      cases groups with
      | nil => simp [Reading.take, hkind] at whole
      | cons g groups =>
        -- the innermost group is complete, and its tree goes to the one around it
        have hclosed := (Reads.intro forest groups).add (.group g.opener g.opens g.items t hkind)
        simpa [Reading.take, hkind, OpenGroup.tokens, OpenGroup.read, SyntaxTree.yield,
          SyntaxTree.value, group] using hclosed
  | openString => simp [Reading.take, hkind] at whole
  | string =>
    have hadded := h.add (.atom t (Or.inr hkind))
    simpa [Reading.take, hkind, SyntaxTree.yield, SyntaxTree.value] using hadded
  | word =>
    have hadded := h.add (.atom t (Or.inl hkind))
    simpa [Reading.take, hkind, SyntaxTree.yield, SyntaxTree.value] using hadded

theorem Reads.foldl (h : Reads tokens r) {more : List Token}
    (whole : (more.foldl Reading.take r).truncated = false) :
    Reads (tokens ++ more) (more.foldl Reading.take r) := by
  induction more generalizing tokens r with
  | nil => simpa using h
  | cons t more ih =>
    -- no token was repaired on the way, so the first was not
    have hfirst := h.take (closed_of_truncated more whole).1
    simpa using ih hfirst whole

end Reading

/-- A reading without repairs has a derivation. -/
theorem derives_of_isTruncated {tokens : List Token}
    (h : (readTokens tokens).isTruncated = false) : ∃ forest, Derives forest tokens := by
  obtain ⟨htruncated, hgroups⟩ : (readTokens tokens).truncated = false ∧
      (readTokens tokens).groups = [] := by simpa [Reading.isTruncated] using h
  have hreads : Reading.Reads ([] ++ tokens) (readTokens tokens) :=
    (Reading.Reads.intro [] []).foldl htruncated
  generalize readTokens tokens = r at hreads hgroups
  rw [List.nil_append] at hreads
  cases hreads with
  | intro forest groups =>
    -- no group is open at the end
    have hnone : groups = [] := List.map_eq_nil_iff.mp hgroups
    subst hnone
    exact ⟨forest, (List.append_nil _).symm⟩

theorem isTruncated_eq_false_iff (tokens : List Token) :
    (readTokens tokens).isTruncated = false ↔ ∃ forest, Derives forest tokens :=
  ⟨derives_of_isTruncated, fun ⟨_, h⟩ => h.readTokens.1⟩

/-! ## Token streams

A stream keeps the open groups on the stack of its own recursion; what it comes to is what the
reader comes to from the same groups. -/

/-- What a reading comes to when the source ends: the program, and whether anything had to be
repaired. -/
def Reading.result (r : Reading) : Program × Bool :=
  (r.program, r.isTruncated)

namespace TokenStream

open Reading (take)

theorem foldl_take_of_peek {s : TokenStream} {t : Token} (h : s.peek.1 = some t) (r : Reading) :
    s.remaining.foldl take r = s.peek.2.advance.2.remaining.foldl take (r.take t) := by
  rw [remaining_of_peek h, List.foldl_cons]

/-- A group that is read to its end is a form that was read, if the groups around it all belong to
it. -/
theorem foldl_take_parseGroup (items : List Expr) (outer : List (List Expr)) (s : TokenStream)
    (forms : List Expr) :
    (s.remaining.foldl take ⟨items :: outer, forms, s.truncated⟩).result =
      ((parseGroup items outer s).2.remaining.foldl take
        ⟨[], (parseGroup items outer s).1 :: forms, (parseGroup items outer s).2.truncated⟩).result
    := by
  fun_induction parseGroup items outer s with
  | case1 items outer s h =>
    -- the tokens end inside the group
    simp [remaining_of_peek_none h, Reading.result, Reading.program, Reading.isTruncated]
  | case2 items outer s t h rest hkind ih =>
    rw [foldl_take_of_peek h, ← ih]
    simp [Reading.take, hkind, rest]
  | case3 items s t h rest hkind =>
    rw [foldl_take_of_peek h]
    simp [Reading.take, hkind, Reading.add, rest]
  | case4 items s t h rest hkind siblings outer ih =>
    rw [foldl_take_of_peek h, ← ih]
    simp [Reading.take, hkind, Reading.add, rest]
  | case5 items outer s t h rest hkind ih =>
    rw [foldl_take_of_peek h, ← ih]
    simp [Reading.take, hkind, rest]
  | case6 items outer s t h rest hkind ih =>
    rw [foldl_take_of_peek h, ← ih]
    simp [Reading.take, hkind, Reading.add, rest]
  | case7 items outer s t h rest hkind ih =>
    rw [foldl_take_of_peek h, ← ih]
    simp [Reading.take, hkind, Reading.add, rest]

/-- Between two forms, the reader repairs what the stream skips. -/
theorem foldl_take_skipUnreadable (s : TokenStream) (forms : List Expr) :
    s.remaining.foldl take ⟨[], forms, s.truncated⟩ =
      s.skipUnreadable.remaining.foldl take ⟨[], forms, s.skipUnreadable.truncated⟩ := by
  fun_induction skipUnreadable s with
  | case1 s t h hkind ih =>
    rw [foldl_take_of_peek h, ← ih]
    rcases hkind with hkind | hkind <;> simp [Reading.take, hkind]
  | case2 => simp
  | case3 => simp

/-- The next token is neither a closer nor an unfinished string once these were skipped. -/
theorem readable_of_skipUnreadable {s : TokenStream} {t : Token}
    (h : s.skipUnreadable.peek.1 = some t) : t.kind ≠ .closing ∧ t.kind ≠ .openString := by
  fun_induction skipUnreadable s with
  | case1 s u hu hkind ih => exact ih h
  | case2 s u hu hkind =>
    rw [peek_fst, remaining_peek, ← peek_fst, hu] at h
    cases h
    exact not_or.mp hkind
  | case3 s hu =>
    rw [peek_fst, remaining_peek, ← peek_fst, hu] at h
    cases h

/-- One expression that is parsed where a form can start is the form that the reader reads. -/
theorem foldl_take_parseExpr? {s : TokenStream} {t : Token} (h : s.peek.1 = some t)
    (readable : t.kind ≠ .closing ∧ t.kind ≠ .openString) (forms : List Expr) :
    ∃ e, s.parseExpr?.1 = some e ∧
      (s.remaining.foldl take ⟨[], forms, s.truncated⟩).result =
        (s.parseExpr?.2.remaining.foldl take
          ⟨[], e :: forms, s.parseExpr?.2.truncated⟩).result := by
  have hremaining := remaining_of_peek h
  rw [remaining_advance, remaining_peek] at hremaining
  rw [peek_fst, ← advance_fst] at h
  unfold parseExpr?
  rw [h, hremaining, List.foldl_cons]
  dsimp only
  by_cases hopen : t.kind = .opening
  · refine ⟨_, by rw [if_pos hopen], ?_⟩
    rw [if_pos hopen]
    have hgroup := foldl_take_parseGroup [] [] s.advance.2 forms
    rw [remaining_advance, truncated_advance] at hgroup
    rw [← hgroup]
    simp [Reading.take, hopen]
  · refine ⟨_, by rw [if_neg hopen], ?_⟩
    rw [if_neg hopen, remaining_advance, truncated_advance]
    -- what is left are words and strings
    cases hkind : t.kind with
    | opening => exact absurd hkind hopen
    | closing => exact absurd hkind readable.1
    | openString => exact absurd hkind readable.2
    | string => simp [Reading.take, hkind, Reading.add]
    | word => simp [Reading.take, hkind, Reading.add]

theorem foldl_take_parseAll (s : TokenStream) (forms : List Expr) :
    (s.remaining.foldl take ⟨[], forms, s.truncated⟩).result =
      (forms.reverse ++ s.parseAll.1, s.parseAll.2.truncated) := by
  fun_induction parseAll s generalizing forms with
  | case1 s next h =>
    rw [foldl_take_skipUnreadable, remaining_of_peek_none h]
    simp [Reading.result, Reading.program, Reading.isTruncated, next]
  | case2 s next t h first others ih =>
    have hpeek : next.peek.2.peek.1 = some t := by rw [peek_fst, remaining_peek, ← peek_fst, h]
    obtain ⟨e, he, hread⟩ := foldl_take_parseExpr? hpeek (readable_of_skipUnreadable h) forms
    rw [remaining_peek, truncated_peek] at hread
    rw [foldl_take_skipUnreadable, hread, ih]
    simp [others, first, he]

/-- A stream that is parsed to its end gives what the reader reads. -/
theorem parseAll_eq (tokens : List Token) :
    (ofTokens tokens).parseAll.1 = (readTokens tokens).program ∧
      (ofTokens tokens).parseAll.2.truncated = (readTokens tokens).isTruncated := by
  have hread := foldl_take_parseAll (ofTokens tokens) []
  simp only [Reading.result, Prod.mk.injEq, List.reverse_nil, List.nil_append] at hread
  exact ⟨hread.1.symm, hread.2.symm⟩

end TokenStream

/-! ## What is accepted -/

/-- The reader accepts exactly the grammar. A stream that is parsed to its end is not truncated if
and only if its tokens have a derivation; the derivation is the only one then, and the stream and
the strict reader give the values of its trees. Without a derivation the strict reader fails. -/
theorem parseAll_grammar (source : String) :
    ((TokenStream.ofTokens (lex source)).parseAll.2.truncated = false ↔
      ∃ forest, Derives forest (lex source)) ∧
    (∀ forest, Derives forest (lex source) →
      (∀ other, Derives other (lex source) → other = forest) ∧
      (TokenStream.ofTokens (lex source)).parseAll.1 = valueAll forest ∧
      readProgram true source = .ok (valueAll forest)) ∧
    (readProgram true source = .error .unbalanced ↔ ¬ ∃ forest, Derives forest (lex source)) := by
  obtain ⟨hprogram, htruncated⟩ := TokenStream.parseAll_eq (lex source)
  have hstrict : readProgram true source =
      if (readTokens (lex source)).isTruncated then .error .unbalanced
      else .ok (readTokens (lex source)).program := by
    simp [readProgram]
  refine ⟨?_, ?_, ?_⟩
  · rw [htruncated]
    exact isTruncated_eq_false_iff _
  · intro forest h
    obtain ⟨hwhole, hvalue⟩ := h.readTokens
    refine ⟨fun other h' => h.unique h', ?_, ?_⟩
    · rw [hprogram, hvalue]
    · rw [hstrict, hwhole, hvalue]
      rfl
  · rw [hstrict, ← isTruncated_eq_false_iff]
    cases (readTokens (lex source)).isTruncated <;> simp

/-- A group may mix its brackets; one that is left open has no derivation. -/
theorem parseAll_grammar_brackets :
    (∃ forest, Derives forest (lex "[f \"a b\") x") ∧
      readProgram true "[f \"a b\") x" = .ok (valueAll forest) ∧
      valueAll forest = [.sequence [.symbol "f", .text "a b"], .symbol "x"]) ∧
    ¬ ∃ forest, Derives forest (lex "[f") := by
  obtain ⟨haccepted, hvalue, -⟩ := parseAll_grammar "[f \"a b\") x"
  obtain ⟨-, -, hrejected⟩ := parseAll_grammar "[f"
  refine ⟨?_, hrejected.mp rfl⟩
  obtain ⟨forest, h⟩ := haccepted.mp (by decide +kernel)
  obtain ⟨-, hparsed, hread⟩ := hvalue forest h
  refine ⟨forest, h, hread, ?_⟩
  rw [← hparsed, (TokenStream.parseAll_eq _).1]
  rfl

end Redex
