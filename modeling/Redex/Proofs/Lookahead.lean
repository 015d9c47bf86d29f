import Redex.Proofs.Repair

/-!
# Look-ahead

A stream keeps the token that was looked at in a buffer, and its parser keeps the groups that are open
on a stack. Neither can be seen from outside: whatever is asked of a stream, in whatever order, it
answers as the plain list of the tokens that remain would, read by recursive descent.

* **`readGroup`** — a group at the front of a list, by recursion into the groups inside it.
* **`PlainStream`** — the operations without a buffer.
* **`TokenStream.parseGroup_plain`** — the stack does what the recursion does; from it
  **`TokenStream.perform_plain`** for every operation.
* **`TokenStream.Kept.perform`** — what looking, advancing and marking keep, every operation keeps.
* **`UsesUp`** — operations that take the tokens one after the other, each answering with those that
  it takes.
* **`stream_refines_list`** — any operations in any order.
-/

namespace Redex

open Redex.Expr (leaves leavesAll)

/-! ## Reading a plain list -/

/-- What a group comes to whose items are next in the tokens. -/
structure GroupRest (tokens : List Token) where
  items : List Expr
  -- The tokens behind the group.
  rest : List Token
  -- Something had to be repaired in the group.
  truncated : Bool
  suffix : rest <:+ tokens

/-- Reads the items of a group up to its closer, or to the end of the tokens. -/
def readGroup : (tokens : List Token) → GroupRest tokens
  | [] => ⟨[], [], true, List.suffix_rfl⟩
  | t :: tokens =>
    match t.kind with
    | .opening =>
      let inner := readGroup tokens
      let more := readGroup inner.rest
      ⟨.sequence inner.items :: more.items, more.rest, inner.truncated || more.truncated,
        (more.suffix.trans inner.suffix).trans (List.suffix_cons t tokens)⟩
    | .closing => ⟨[], tokens, false, List.suffix_cons t tokens⟩
    | .openString =>
      let more := readGroup tokens
      ⟨more.items, more.rest, true, more.suffix.trans (List.suffix_cons t tokens)⟩
    | .string =>
      let more := readGroup tokens
      ⟨Token.bake t.text :: more.items, more.rest, more.truncated,
        more.suffix.trans (List.suffix_cons t tokens)⟩
    | .word =>
      let more := readGroup tokens
      ⟨Token.bake t.text :: more.items, more.rest, more.truncated,
        more.suffix.trans (List.suffix_cons t tokens)⟩
termination_by tokens => tokens.length
decreasing_by
  · exact Nat.lt_succ_self _
  · -- the items behind a nested group are a suffix of those behind its opener
    exact Nat.lt_succ_of_le inner.suffix.length_le
  all_goals exact Nat.lt_succ_self _

/-- Tokens that are read one by one, without look-ahead. -/
structure PlainStream where
  remaining : List Token
  truncated : Bool

/-- Closers and unfinished strings stand for nothing between two forms. -/
def Token.isUnreadable (t : Token) : Bool :=
  t.kind = .closing ∨ t.kind = .openString

namespace PlainStream

def advance (s : PlainStream) : Option Token × PlainStream :=
  (s.remaining.head?, { s with remaining := s.remaining.tail })

def parseExpr? (s : PlainStream) : Option Expr × PlainStream :=
  match s.remaining with
  | [] => (none, s)
  | t :: tokens =>
    if t.kind = .opening then
      let inner := readGroup tokens
      (some (.sequence inner.items), ⟨inner.rest, s.truncated || inner.truncated⟩)
    else (some (Token.bake t.text), { s with remaining := tokens })

def skipUnreadable (s : PlainStream) : PlainStream :=
  ⟨s.remaining.dropWhile Token.isUnreadable,
    s.truncated || s.remaining.head?.any Token.isUnreadable⟩

/-- The next form of the program. -/
def nextForm? (s : PlainStream) : Option Expr × PlainStream :=
  s.skipUnreadable.parseExpr?

/-- An expression takes a token at least. -/
theorem length_nextForm?_lt {s : PlainStream} {e : Expr} (h : s.nextForm?.1 = some e) :
    s.nextForm?.2.remaining.length < s.remaining.length := by
  have hskipped : s.skipUnreadable.remaining.length ≤ s.remaining.length :=
    (List.dropWhile_suffix Token.isUnreadable).length_le
  refine Nat.lt_of_lt_of_le ?_ hskipped
  rw [nextForm?] at h ⊢
  generalize s.skipUnreadable = s at h ⊢
  unfold parseExpr? at h ⊢
  cases hremaining : s.remaining with
  | nil => simp [hremaining] at h
  | cons t tokens =>
    dsimp only
    split
    · exact Nat.lt_succ_of_le (readGroup tokens).suffix.length_le
    · exact Nat.lt_succ_self _

def parseAll (s : PlainStream) : List Expr × PlainStream :=
  match _h : s.nextForm?.1 with
  | none => ([], s.nextForm?.2)
  | some e =>
    let others := parseAll s.nextForm?.2
    (e :: others.1, others.2)
termination_by s.remaining.length
decreasing_by exact length_nextForm?_lt _h

end PlainStream

/-! ## The stack of open groups -/

/-- Reads the rest of a group, given the items read so far of it, and then what is left of the groups
around it. -/
def readRest (items : List Expr) (outer : List (List Expr)) (s : PlainStream) : Expr × PlainStream :=
  let more := readGroup s.remaining
  let e := Reading.group (more.items.reverse ++ items)
  let behind : PlainStream := ⟨more.rest, s.truncated || more.truncated⟩
  match outer with
  | [] => (e, behind)
  | siblings :: outer => readRest (e :: siblings) outer behind

variable {items : List Expr} {outer : List (List Expr)} {t : Token} {tokens : List Token}
  {truncated : Bool}

/-- Only the items that a group comes to, and what stands behind it, count for what follows. -/
theorem readRest_congr {items' : List Expr} {s s' : PlainStream}
    (hitems : (readGroup s.remaining).items.reverse ++ items =
      (readGroup s'.remaining).items.reverse ++ items')
    (hrest : (readGroup s.remaining).rest = (readGroup s'.remaining).rest)
    (htruncated : (s.truncated || (readGroup s.remaining).truncated) =
      (s'.truncated || (readGroup s'.remaining).truncated)) :
    readRest items outer s = readRest items' outer s' := by
  cases outer with
  | nil => simp only [readRest, hitems, hrest, htruncated]
  | cons siblings outer => simp only [readRest, hitems, hrest, htruncated]

/-- With no group around it, the rest is the items that are still to come. -/
theorem readRest_group : readRest [] [] ⟨tokens, truncated⟩ =
    (.sequence (readGroup tokens).items,
      ⟨(readGroup tokens).rest, truncated || (readGroup tokens).truncated⟩) := by
  simp [readRest, Reading.group]

theorem readRest_nil : readRest items outer ⟨[], truncated⟩ =
    (Reading.closeGroups items outer, ⟨[], true⟩) := by
  induction outer generalizing items truncated with
  | nil => simp [readRest, readGroup, Reading.closeGroups]
  | cons siblings outer ih =>
    rw [readRest]
    simp only [readGroup, Bool.or_true, List.reverse_nil, List.nil_append]
    exact ih

/-- A group that opens is read first, and then what is left of the one that it opens in. -/
theorem readRest_opening (h : t.kind = .opening) : readRest items outer ⟨t :: tokens, truncated⟩ =
    readRest [] (items :: outer) ⟨tokens, truncated⟩ := by
  have hinner : readRest [] (items :: outer) ⟨tokens, truncated⟩ =
      readRest (.sequence (readGroup tokens).items :: items) outer
        ⟨(readGroup tokens).rest, truncated || (readGroup tokens).truncated⟩ := by
    rw [readRest]
    simp [Reading.group]
  rw [hinner]
  exact readRest_congr (by simp [readGroup, h]) (by simp [readGroup, h])
    (by simp [readGroup, h, Bool.or_assoc])

theorem readRest_closing (h : t.kind = .closing) : readRest items outer ⟨t :: tokens, truncated⟩ =
    match outer with
    | [] => (Reading.group items, ⟨tokens, truncated⟩)
    | siblings :: outer => readRest (Reading.group items :: siblings) outer ⟨tokens, truncated⟩ := by
  cases outer with
  | nil => simp [readRest, readGroup, h]
  | cons siblings outer =>
    rw [readRest]
    simp [readGroup, h]

theorem readRest_openString (h : t.kind = .openString) :
    readRest items outer ⟨t :: tokens, truncated⟩ = readRest items outer ⟨tokens, true⟩ :=
  readRest_congr (by simp [readGroup, h]) (by simp [readGroup, h]) (by simp [readGroup, h])

theorem readRest_atom (h : t.kind = .string ∨ t.kind = .word) :
    readRest items outer ⟨t :: tokens, truncated⟩ =
      readRest (Token.bake t.text :: items) outer ⟨tokens, truncated⟩ := by
  rcases h with h | h <;>
    exact readRest_congr (by simp [readGroup, h]) (by simp [readGroup, h]) (by simp [readGroup, h])

namespace TokenStream

/-- The stream as it can be seen from outside. -/
def plain (s : TokenStream) : PlainStream :=
  ⟨s.remaining, s.truncated⟩

@[simp] theorem plain_peek (s : TokenStream) : s.peek.2.plain = s.plain := by
  simp [plain]

theorem plain_advance (s : TokenStream) :
    s.plain.advance = (s.advance.1, s.advance.2.plain) := by
  simp [plain, PlainStream.advance, advance_fst]

theorem plain_of_peek {s : TokenStream} {t : Token} (h : s.peek.1 = some t) :
    s.plain = ⟨t :: s.peek.2.advance.2.remaining, s.peek.2.advance.2.truncated⟩ := by
  rw [plain, remaining_of_peek h, truncated_advance, truncated_peek]

/-- The groups on the stack are read as by recursion. -/
theorem parseGroup_plain (items : List Expr) (outer : List (List Expr)) (s : TokenStream) :
    readRest items outer s.plain =
      ((parseGroup items outer s).1, (parseGroup items outer s).2.plain) := by
  fun_induction parseGroup items outer s with
  | case1 items outer s h =>
    rw [plain, remaining_of_peek_none h, readRest_nil, plain, remaining_truncate, remaining_peek,
      remaining_of_peek_none h]
    rfl
  | case2 items outer s t h rest hkind ih =>
    rw [plain_of_peek h, readRest_opening hkind]
    exact ih
  | case3 items s t h rest hkind =>
    rw [plain_of_peek h, readRest_closing hkind]
    rfl
  | case4 items s t h rest hkind siblings outer ih =>
    rw [plain_of_peek h, readRest_closing hkind]
    exact ih
  | case5 items outer s t h rest hkind ih =>
    rw [plain_of_peek h, readRest_openString hkind]
    exact ih
  | case6 items outer s t h rest hkind ih =>
    rw [plain_of_peek h, readRest_atom (Or.inl hkind)]
    exact ih
  | case7 items outer s t h rest hkind ih =>
    rw [plain_of_peek h, readRest_atom (Or.inr hkind)]
    exact ih

theorem parseExpr?_plain (s : TokenStream) :
    s.plain.parseExpr? = (s.parseExpr?.1, s.parseExpr?.2.plain) := by
  unfold parseExpr?
  cases hs : s.remaining with
  | nil =>
    have hnone : s.advance.1 = none := by rw [advance_fst, hs]; rfl
    rw [hnone]
    simp [PlainStream.parseExpr?, plain, hs]
  | cons t tokens =>
    have hsome : s.advance.1 = some t := by rw [advance_fst, hs]; rfl
    have hrest : s.advance.2.plain = ⟨tokens, s.truncated⟩ := by simp [plain, hs]
    have hgroup := parseGroup_plain [] [] s.advance.2
    rw [hrest, readRest_group] at hgroup
    rw [hsome, plain, hs]
    dsimp only [PlainStream.parseExpr?]
    by_cases hopen : t.kind = .opening
    · rw [if_pos hopen, if_pos hopen, (Prod.mk.inj hgroup).1, (Prod.mk.inj hgroup).2]
    · rw [if_neg hopen, if_neg hopen, hrest]

theorem skipUnreadable_plain (s : TokenStream) :
    s.plain.skipUnreadable = s.skipUnreadable.plain := by
  fun_induction skipUnreadable s with
  | case1 s t h hkind ih =>
    have ht : t.isUnreadable = true := by simpa [Token.isUnreadable] using hkind
    rw [← ih, plain_of_peek h]
    simp [PlainStream.skipUnreadable, plain, ht]
  | case2 s t h hkind =>
    have ht : t.isUnreadable = false := by simpa [Token.isUnreadable] using hkind
    rw [plain_peek, plain_of_peek h]
    simp [PlainStream.skipUnreadable, ht]
  | case3 s h =>
    rw [plain_peek, plain, remaining_of_peek_none h]
    simp [PlainStream.skipUnreadable]

/-- The next form of a parse to the end, which pauses behind each form. -/
def nextForm? (s : TokenStream) : Option Expr × TokenStream :=
  match s.skipUnreadable.peek.1 with
  | none => (none, s.skipUnreadable.peek.2)
  | some _ => s.skipUnreadable.peek.2.parseExpr?

theorem nextForm?_plain (s : TokenStream) :
    s.plain.nextForm? = (s.nextForm?.1, s.nextForm?.2.plain) := by
  rw [PlainStream.nextForm?, skipUnreadable_plain, ← plain_peek]
  unfold nextForm?
  cases h : s.skipUnreadable.peek.1 with
  | none =>
    have hend : s.skipUnreadable.peek.2.plain.remaining = [] := by
      rw [plain_peek]
      exact remaining_of_peek_none h
    unfold PlainStream.parseExpr?
    rw [hend]
  | some t => exact parseExpr?_plain _

/-- Where a token remains, an expression is read. -/
theorem parseExpr?_of_peek {s : TokenStream} {t : Token} (h : s.peek.1 = some t) :
    ∃ e, s.peek.2.parseExpr?.1 = some e := by
  have hadvance : s.peek.2.advance.1 = some t := by
    rw [advance_fst, remaining_peek, ← peek_fst, h]
  unfold parseExpr?
  rw [hadvance]
  dsimp only
  split
  · exact ⟨_, rfl⟩
  · exact ⟨_, rfl⟩

theorem parseAll_plain (s : TokenStream) :
    s.plain.parseAll = (s.parseAll.1, s.parseAll.2.plain) := by
  fun_induction parseAll s with
  | case1 s next h =>
    have hnext := nextForm?_plain s
    have hend : s.nextForm? = (none, next.peek.2) := by rw [nextForm?, h]
    rw [PlainStream.parseAll, hnext, hend]
  | case2 s next t h first others ih =>
    have hnext := nextForm?_plain s
    have hform : s.nextForm? = first := by rw [nextForm?, h]
    obtain ⟨e, he⟩ := parseExpr?_of_peek h
    have hfirst : first.1 = some e := he
    rw [PlainStream.parseAll, hnext, hform, hfirst]
    dsimp only
    rw [ih]
    rfl

end TokenStream

/-! ## Operations in any order -/

/-- What can be asked of a stream. -/
inductive StreamOp where
  | peek
  | advance
  | parseExpr
  -- One more form of a parse to the end, which pauses behind each form.
  | nextForm
  | parseAll
  deriving DecidableEq

/-- What a stream answers: a token if there was one, or the expressions that were read. -/
inductive StreamAnswer where
  | token (t : Option Token)
  | exprs (es : List Expr)

/-- An operation that was done, and the stream that it left. -/
structure Performed (σ : Type) where
  op : StreamOp
  answer : StreamAnswer
  behind : σ

def Performed.map {σ τ : Type} (f : σ → τ) (e : Performed σ) : Performed τ :=
  ⟨e.op, e.answer, f e.behind⟩

/-- Does the operations one after the other. -/
def performAll {σ : Type} (perform : StreamOp → σ → StreamAnswer × σ) :
    List StreamOp → σ → List (Performed σ)
  | [], _ => []
  | op :: ops, s =>
    ⟨op, (perform op s).1, (perform op s).2⟩ :: performAll perform ops (perform op s).2

/-- Operations that agree through a view of the streams agree in any order. -/
theorem performAll_map {σ τ : Type} {perform : StreamOp → σ → StreamAnswer × σ}
    {perform' : StreamOp → τ → StreamAnswer × τ} {view : σ → τ}
    (h : ∀ op s, perform' op (view s) = ((perform op s).1, view (perform op s).2))
    (ops : List StreamOp) (s : σ) :
    (performAll perform ops s).map (Performed.map view) = performAll perform' ops (view s) := by
  induction ops generalizing s with
  | nil => rfl
  | cons op ops ih =>
    rw [performAll, performAll, h, List.map_cons, ih]
    rfl

/-- What every operation keeps, all of them together keep. -/
theorem performAll_keeps {σ : Type} {perform : StreamOp → σ → StreamAnswer × σ} {P : σ → Prop}
    (h : ∀ op s, P s → P (perform op s).2) (ops : List StreamOp) {s : σ} (hs : P s) :
    ∀ e ∈ performAll perform ops s, P e.behind := by
  induction ops generalizing s with
  | nil => nofun
  | cons op ops ih => exact List.forall_mem_cons.mpr ⟨h op s hs, ih (h op s hs)⟩

def TokenStream.perform (op : StreamOp) (s : TokenStream) : StreamAnswer × TokenStream :=
  match op with
  | .peek => (.token s.peek.1, s.peek.2)
  | .advance => (.token s.advance.1, s.advance.2)
  | .parseExpr => (.exprs s.parseExpr?.1.toList, s.parseExpr?.2)
  | .nextForm => (.exprs s.nextForm?.1.toList, s.nextForm?.2)
  | .parseAll => (.exprs s.parseAll.1, s.parseAll.2)

/-- Without a buffer, looking at the next token changes nothing. -/
def PlainStream.perform (op : StreamOp) (s : PlainStream) : StreamAnswer × PlainStream :=
  match op with
  | .peek => (.token s.remaining.head?, s)
  | .advance => (.token s.advance.1, s.advance.2)
  | .parseExpr => (.exprs s.parseExpr?.1.toList, s.parseExpr?.2)
  | .nextForm => (.exprs s.nextForm?.1.toList, s.nextForm?.2)
  | .parseAll => (.exprs s.parseAll.1, s.parseAll.2)

theorem TokenStream.perform_plain (op : StreamOp) (s : TokenStream) :
    s.plain.perform op = ((s.perform op).1, (s.perform op).2.plain) := by
  cases op with
  | peek =>
    rw [perform, PlainStream.perform, peek_fst, plain_peek]
    rfl
  | advance => rw [perform, PlainStream.perform, plain_advance]
  | parseExpr => rw [perform, PlainStream.perform, parseExpr?_plain]
  | nextForm => rw [perform, PlainStream.perform, nextForm?_plain]
  | parseAll => rw [perform, PlainStream.perform, parseAll_plain]

/-! ## What the operations keep -/

namespace TokenStream

/-- A property of streams that is kept by looking, advancing and marking. -/
structure Kept (P : TokenStream → Prop) : Prop where
  peek : ∀ {s}, P s → P s.peek.2
  advance : ∀ {s}, P s → P s.advance.2
  truncate : ∀ {s}, P s → P s.truncate

namespace Kept

variable {P : TokenStream → Prop}

theorem parseGroup (kept : Kept P) (items : List Expr) (outer : List (List Expr))
    {s : TokenStream} (hs : P s) : P (parseGroup items outer s).2 := by
  fun_induction TokenStream.parseGroup items outer s with
  | case1 => exact kept.truncate (kept.peek hs)
  | case3 => exact kept.advance (kept.peek hs)
  | case5 items outer s t h rest hkind ih =>
    exact ih (kept.truncate (kept.advance (kept.peek hs)))
  | case2 items outer s t h rest hkind ih => exact ih (kept.advance (kept.peek hs))
  | case4 items s t h rest hkind siblings outer ih => exact ih (kept.advance (kept.peek hs))
  | case6 items outer s t h rest hkind ih => exact ih (kept.advance (kept.peek hs))
  | case7 items outer s t h rest hkind ih => exact ih (kept.advance (kept.peek hs))

theorem parseExpr? (kept : Kept P) {s : TokenStream} (hs : P s) : P s.parseExpr?.2 := by
  unfold TokenStream.parseExpr?
  split
  · exact kept.advance hs
  · split
    · exact kept.parseGroup [] [] (kept.advance hs)
    · exact kept.advance hs

theorem skipUnreadable (kept : Kept P) {s : TokenStream} (hs : P s) : P s.skipUnreadable := by
  fun_induction TokenStream.skipUnreadable s with
  | case1 s t h hkind ih => exact ih (kept.truncate (kept.advance (kept.peek hs)))
  | case2 => exact kept.peek hs
  | case3 => exact kept.peek hs

theorem nextForm? (kept : Kept P) {s : TokenStream} (hs : P s) : P s.nextForm?.2 := by
  have hnext := kept.peek (kept.skipUnreadable hs)
  unfold TokenStream.nextForm?
  split
  · exact hnext
  · exact kept.parseExpr? hnext

theorem parseAll (kept : Kept P) {s : TokenStream} (hs : P s) : P s.parseAll.2 := by
  fun_induction TokenStream.parseAll s with
  | case1 s next h => exact kept.peek (kept.skipUnreadable hs)
  | case2 s next t h first others ih =>
    exact ih (kept.parseExpr? (kept.peek (kept.skipUnreadable hs)))

theorem perform (kept : Kept P) (op : StreamOp) (s : TokenStream) (hs : P s) :
    P (s.perform op).2 := by
  cases op with
  | peek => exact kept.peek hs
  | advance => exact kept.advance hs
  | parseExpr => exact kept.parseExpr? hs
  | nextForm => exact kept.nextForm? hs
  | parseAll => exact kept.parseAll hs

end Kept

/-- Only an empty buffer is filled, and with one token. -/
theorem kept_buffer : Kept fun s => s.buffer.length ≤ 1 where
  peek := by
    rintro ⟨_ | ⟨t, ts⟩, _ | ⟨u, us⟩, b⟩ hs
    · exact hs
    · exact Nat.le_refl 1
    · exact hs
    · exact hs
  advance := by
    rintro ⟨_ | ⟨t, ts⟩, _ | ⟨u, us⟩, b⟩ hs
    · exact hs
    · exact hs
    · exact Nat.le_of_succ_le hs
    · exact Nat.le_of_succ_le hs
  truncate := fun hs => hs

end TokenStream

/-! ## Every token is taken once -/

/-- What the words and the complete strings among tokens stand for. -/
def atomValues (tokens : List Token) : List Expr :=
  (tokens.filter Token.isAtom).map fun t => Token.bake t.text

theorem atomValues_append (taken more : List Token) :
    atomValues (taken ++ more) = atomValues taken ++ atomValues more := by
  rw [atomValues, List.filter_append, List.map_append]
  rfl

theorem atomValues_cons_of_isAtom (h : t.isAtom = true) :
    atomValues (t :: tokens) = Token.bake t.text :: atomValues tokens := by
  rw [atomValues, List.filter_cons_of_pos h]
  rfl

theorem atomValues_cons_of_not_isAtom (h : t.isAtom = false) :
    atomValues (t :: tokens) = atomValues tokens := by
  rw [atomValues, List.filter_cons_of_neg (by simp [h])]
  rfl

theorem Token.isAtom_of_isUnreadable (h : t.isUnreadable = true) : t.isAtom = false := by
  have hkind : t.kind = .closing ∨ t.kind = .openString := by simpa [isUnreadable] using h
  rw [isAtom]
  rcases hkind with hkind | hkind <;> rw [hkind]

theorem leavesAll_bake (text : String) (es : List Expr) :
    leavesAll (Token.bake text :: es) = Token.bake text :: leavesAll es := by
  rw [leavesAll, leaves_bake]
  rfl

/-- The items of a group hold the words and strings of the tokens that it takes. -/
theorem readGroup_takes (tokens : List Token) : ∃ taken,
    taken ++ (readGroup tokens).rest = tokens ∧
      leavesAll (readGroup tokens).items = atomValues taken := by
  fun_induction readGroup tokens with
  | case1 => exact ⟨[], rfl, rfl⟩
  | case2 t tokens hkind inner more ihInner ihMore =>
    obtain ⟨first, hfirst, hinner⟩ := ihInner
    obtain ⟨second, hsecond, hmore⟩ := ihMore
    have hopener : t.isAtom = false := by rw [Token.isAtom, hkind]
    refine ⟨t :: (first ++ second), ?_, ?_⟩
    · rw [List.cons_append, List.append_assoc, hsecond, hfirst]
    · rw [leavesAll, leaves, hinner, hmore, atomValues_cons_of_not_isAtom hopener,
        atomValues_append]
  | case3 t tokens hkind =>
    have hcloser : t.isAtom = false := by rw [Token.isAtom, hkind]
    refine ⟨[t], rfl, ?_⟩
    rw [atomValues_cons_of_not_isAtom hcloser]
    rfl
  | case4 t tokens hkind more ih =>
    obtain ⟨taken, htaken, hmore⟩ := ih
    have hopen : t.isAtom = false := by rw [Token.isAtom, hkind]
    refine ⟨t :: taken, congrArg (List.cons t) htaken, ?_⟩
    rw [hmore, atomValues_cons_of_not_isAtom hopen]
  | case5 t tokens hkind more ih =>
    obtain ⟨taken, htaken, hmore⟩ := ih
    have hatom : t.isAtom = true := by rw [Token.isAtom, hkind]
    refine ⟨t :: taken, congrArg (List.cons t) htaken, ?_⟩
    rw [leavesAll_bake, hmore, atomValues_cons_of_isAtom hatom]
  | case6 t tokens hkind more ih =>
    obtain ⟨taken, htaken, hmore⟩ := ih
    have hatom : t.isAtom = true := by rw [Token.isAtom, hkind]
    refine ⟨t :: taken, congrArg (List.cons t) htaken, ?_⟩
    rw [leavesAll_bake, hmore, atomValues_cons_of_isAtom hatom]

namespace PlainStream

/-- An expression holds the words and strings of the tokens that it takes; only one that starts where
no form can is the bare text of its token. -/
theorem parseExpr?_takes (s : PlainStream) : ∃ taken,
    taken ++ s.parseExpr?.2.remaining = s.remaining ∧
      (leavesAll s.parseExpr?.1.toList = atomValues taken ∨
        ∃ t, taken = [t] ∧ t.isUnreadable = true ∧
          s.parseExpr?.1.toList = [Token.bake t.text]) := by
  unfold parseExpr?
  cases hs : s.remaining with
  | nil => exact ⟨[], hs, Or.inl rfl⟩
  | cons t tokens =>
    dsimp only
    by_cases hopen : t.kind = .opening
    · obtain ⟨taken, htaken, hitems⟩ := readGroup_takes tokens
      have hopener : t.isAtom = false := by rw [Token.isAtom, hopen]
      rw [if_pos hopen]
      refine ⟨t :: taken, congrArg (List.cons t) htaken, Or.inl ?_⟩
      rw [Option.toList_some, leavesAll, leaves, hitems, atomValues_cons_of_not_isAtom hopener]
      exact List.append_nil _
    · rw [if_neg hopen]
      refine ⟨[t], rfl, ?_⟩
      by_cases hunreadable : t.isUnreadable = true
      · exact Or.inr ⟨t, rfl, hunreadable, rfl⟩
      · have hatom : t.isAtom = true := by
          cases hkind : t.kind <;> simp_all [Token.isAtom, Token.isUnreadable]
        refine Or.inl ?_
        rw [Option.toList_some, leavesAll_bake, atomValues_cons_of_isAtom hatom]
        rfl

/-- Between two forms no word or string is skipped, and the next form starts where one can. -/
theorem nextForm?_takes (s : PlainStream) : ∃ taken,
    taken ++ s.nextForm?.2.remaining = s.remaining ∧
      leavesAll s.nextForm?.1.toList = atomValues taken := by
  obtain ⟨taken, htaken, hform⟩ := s.skipUnreadable.parseExpr?_takes
  refine ⟨s.remaining.takeWhile Token.isUnreadable ++ taken, ?_, ?_⟩
  · rw [List.append_assoc, nextForm?, htaken]
    exact List.takeWhile_append_dropWhile
  · have hskipped : atomValues (s.remaining.takeWhile Token.isUnreadable) = [] := by
      rw [atomValues, List.map_eq_nil_iff, List.filter_eq_nil_iff]
      intro t ht
      have hunreadable := List.all_eq_true.mp List.all_takeWhile t ht
      simp [Token.isAtom_of_isUnreadable hunreadable]
    rw [atomValues_append, hskipped, List.nil_append, nextForm?]
    rcases hform with hform | ⟨t, rfl, hunreadable, -⟩
    · exact hform
    · -- the first token that is left can be read
      have hfirst := List.head?_dropWhile_not Token.isUnreadable s.remaining
      have hremaining : s.remaining.dropWhile Token.isUnreadable =
          t :: s.skipUnreadable.parseExpr?.2.remaining := htaken.symm
      rw [hremaining] at hfirst
      simp [hunreadable] at hfirst

theorem parseAll_takes (s : PlainStream) : ∃ taken,
    taken ++ s.parseAll.2.remaining = s.remaining ∧ leavesAll s.parseAll.1 = atomValues taken := by
  fun_induction parseAll s with
  | case1 s h =>
    obtain ⟨taken, htaken, hform⟩ := s.nextForm?_takes
    rw [h] at hform
    exact ⟨taken, htaken, hform⟩
  | case2 s e h others ih =>
    obtain ⟨first, hfirst, hform⟩ := s.nextForm?_takes
    obtain ⟨second, hsecond, hothers⟩ := ih
    refine ⟨first ++ second, ?_, ?_⟩
    · rw [List.append_assoc, hsecond, hfirst]
    · rw [h, Option.toList_some, leavesAll, leavesAll, List.append_nil] at hform
      rw [atomValues_append, leavesAll, hform, hothers]

end PlainStream

/-- What the answer to an operation makes of the tokens that the operation takes. -/
def Spends : StreamOp → StreamAnswer → List Token → Prop
  | .peek, _, taken => taken = []
  | .advance, answer, taken => taken.length ≤ 1 ∧ answer = .token taken.head?
  | .parseExpr, answer, taken => ∃ es, answer = .exprs es ∧
      -- Where no form can start, the text of the token is read as it is.
      (leavesAll es = atomValues taken ∨
        ∃ t, taken = [t] ∧ t.isUnreadable = true ∧ es = [Token.bake t.text])
  | .nextForm, answer, taken => ∃ es, answer = .exprs es ∧ leavesAll es = atomValues taken
  | .parseAll, answer, taken => ∃ es, answer = .exprs es ∧ leavesAll es = atomValues taken

/-- The operations take the tokens one after the other: each starts where the one before it left
off. -/
inductive UsesUp : List Token → List (Performed PlainStream) → Prop where
  | done {tokens : List Token} : UsesUp tokens []
  | next {taken : List Token} {e : Performed PlainStream} {entries : List (Performed PlainStream)}
      (spent : Spends e.op e.answer taken) (more : UsesUp e.behind.remaining entries) :
      UsesUp (taken ++ e.behind.remaining) (e :: entries)

theorem PlainStream.perform_spends (op : StreamOp) (s : PlainStream) : ∃ taken,
    taken ++ (s.perform op).2.remaining = s.remaining ∧ Spends op (s.perform op).1 taken := by
  cases op with
  | peek => exact ⟨[], rfl, rfl⟩
  | advance =>
    refine ⟨s.remaining.head?.toList, ?_, ?_⟩
    · cases hs : s.remaining with
      | nil => simp [perform, advance, hs]
      | cons t tokens => simp [perform, advance, hs]
    · cases hs : s.remaining with
      | nil => simp [Spends, perform, advance, hs]
      | cons t tokens => simp [Spends, perform, advance, hs]
  | parseExpr =>
    obtain ⟨taken, htaken, hexpr⟩ := s.parseExpr?_takes
    exact ⟨taken, htaken, _, rfl, hexpr⟩
  | nextForm =>
    obtain ⟨taken, htaken, hform⟩ := s.nextForm?_takes
    exact ⟨taken, htaken, _, rfl, hform⟩
  | parseAll =>
    obtain ⟨taken, htaken, hforms⟩ := s.parseAll_takes
    exact ⟨taken, htaken, _, rfl, hforms⟩

theorem PlainStream.usesUp (ops : List StreamOp) (s : PlainStream) :
    UsesUp s.remaining (performAll perform ops s) := by
  induction ops generalizing s with
  | nil => exact .done
  | cons op ops ih =>
    obtain ⟨taken, htaken, hspends⟩ := s.perform_spends op
    rw [performAll, ← htaken]
    exact .next (e := ⟨op, _, _⟩) hspends (ih _)

/-! ## Looking changes nothing -/

/-- The operations that were done, without those that only look. -/
def withoutPeeks {σ : Type} (entries : List (Performed σ)) : List (Performed σ) :=
  entries.filter fun e => e.op ≠ .peek

theorem PlainStream.withoutPeeks_performAll (ops : List StreamOp) (s : PlainStream) :
    withoutPeeks (performAll perform ops s) = performAll perform (ops.filter (· ≠ .peek)) s := by
  induction ops generalizing s with
  | nil => rfl
  | cons op ops ih =>
    by_cases hpeek : op = .peek
    · -- a stream without a buffer is left as it is
      subst hpeek
      exact ih s
    · rw [performAll, withoutPeeks, List.filter_cons_of_pos (by simpa using hpeek),
        List.filter_cons_of_pos (by simpa using hpeek), performAll, ← withoutPeeks, ih]

/-! ## The stream and the list -/

/-- Whatever is asked of a stream of the tokens, in whatever order: its buffer never holds more than
one token; its answers, the tokens that remain in its buffer and behind it, and its mark are those of
the plain list after every operation; each operation takes the tokens from where the one before it
left off, and answers with those that it takes; and other operations that differ only in where they
look leave all this as it is. -/
theorem stream_refines_list (tokens : List Token) (ops : List StreamOp) :
    (∀ e ∈ performAll TokenStream.perform ops (.ofTokens tokens), e.behind.buffer.length ≤ 1) ∧
    (performAll TokenStream.perform ops (.ofTokens tokens)).map (Performed.map TokenStream.plain) =
      performAll PlainStream.perform ops ⟨tokens, false⟩ ∧
    UsesUp tokens
      ((performAll TokenStream.perform ops (.ofTokens tokens)).map (Performed.map TokenStream.plain)) ∧
    ∀ ops' : List StreamOp, ops'.filter (· ≠ .peek) = ops.filter (· ≠ .peek) →
      withoutPeeks ((performAll TokenStream.perform ops' (.ofTokens tokens)).map
          (Performed.map TokenStream.plain)) =
        withoutPeeks ((performAll TokenStream.perform ops (.ofTokens tokens)).map
          (Performed.map TokenStream.plain)) := by
  have hplain : ∀ ops, (performAll TokenStream.perform ops (.ofTokens tokens)).map
      (Performed.map TokenStream.plain) = performAll PlainStream.perform ops ⟨tokens, false⟩ :=
    fun ops => performAll_map TokenStream.perform_plain ops (.ofTokens tokens)
  refine ⟨?_, hplain ops, ?_, ?_⟩
  · exact performAll_keeps TokenStream.kept_buffer.perform ops (Nat.zero_le 1)
  · rw [hplain]
    exact PlainStream.usesUp ops ⟨tokens, false⟩
  · intro ops' hsame
    rw [hplain, hplain, PlainStream.withoutPeeks_performAll, PlainStream.withoutPeeks_performAll,
      hsame]

/-- An expression that is asked for where a closer stands is the closer, looked at or not, and the
next form starts behind it. -/
theorem stream_refines_list_closer :
    [StreamOp.peek, .parseExpr, .peek, .nextForm].filter (· ≠ .peek) =
      [StreamOp.parseExpr, .nextForm].filter (· ≠ .peek) ∧
    withoutPeeks ((performAll TokenStream.perform [.peek, .parseExpr, .peek, .nextForm]
        (.ofTokens [⟨.closing, ")"⟩, ⟨.word, "f"⟩])).map (Performed.map TokenStream.plain)) =
      [⟨.parseExpr, .exprs [.symbol ")"], ⟨[⟨.word, "f"⟩], false⟩⟩,
        ⟨.nextForm, .exprs [.symbol "f"], ⟨[], false⟩⟩] := by
  obtain ⟨-, hplain, -, hpeeks⟩ :=
    stream_refines_list [⟨.closing, ")"⟩, ⟨.word, "f"⟩] [.parseExpr, .nextForm]
  refine ⟨by decide, ?_⟩
  rw [hpeeks _ (by decide), hplain]
  rfl

end Redex
