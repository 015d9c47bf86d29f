import Redex.Reader.Program

/-!
# Token streams

A stream of tokens that can be read piecemeal: looked at, advanced, or parsed one expression at a
time. A token that has been looked at and not yet taken waits in a buffer.
-/

namespace Redex

/-- A stream of tokens with look-ahead. -/
structure TokenStream where
  -- The tokens that have been looked at and not yet taken.
  buffer : List Token
  unread : List Token
  -- Something had to be repaired.
  truncated : Bool
  deriving Inhabited

namespace TokenStream

def ofTokens (tokens : List Token) : TokenStream :=
  ⟨[], tokens, false⟩

def remaining (s : TokenStream) : List Token :=
  s.buffer ++ s.unread

/-- The next token, kept for the next operation. -/
def peek (s : TokenStream) : Option Token × TokenStream :=
  match s.buffer, s.unread with
  | t :: _, _ => (some t, s)
  | [], [] => (none, s)
  | [], t :: ts => (some t, { s with buffer := [t], unread := ts })

def advance (s : TokenStream) : Option Token × TokenStream :=
  match s.buffer, s.unread with
  | t :: ts, _ => (some t, { s with buffer := ts })
  | [], [] => (none, s)
  | [], t :: ts => (some t, { s with unread := ts })

def truncate (s : TokenStream) : TokenStream :=
  { s with truncated := true }

theorem peek_fst (s : TokenStream) : s.peek.1 = s.remaining.head? := by
  rcases s with ⟨_ | ⟨t, ts⟩, _ | ⟨u, us⟩, b⟩ <;> rfl

@[simp] theorem remaining_peek (s : TokenStream) : s.peek.2.remaining = s.remaining := by
  rcases s with ⟨_ | ⟨t, ts⟩, _ | ⟨u, us⟩, b⟩ <;> rfl

theorem advance_fst (s : TokenStream) : s.advance.1 = s.remaining.head? := by
  rcases s with ⟨_ | ⟨t, ts⟩, _ | ⟨u, us⟩, b⟩ <;> rfl

@[simp] theorem remaining_advance (s : TokenStream) :
    s.advance.2.remaining = s.remaining.tail := by
  rcases s with ⟨_ | ⟨t, ts⟩, _ | ⟨u, us⟩, b⟩ <;> rfl

@[simp] theorem remaining_truncate (s : TokenStream) : s.truncate.remaining = s.remaining :=
  rfl

@[simp] theorem truncated_peek (s : TokenStream) : s.peek.2.truncated = s.truncated := by
  rcases s with ⟨_ | ⟨t, ts⟩, _ | ⟨u, us⟩, b⟩ <;> rfl

@[simp] theorem truncated_advance (s : TokenStream) : s.advance.2.truncated = s.truncated := by
  rcases s with ⟨_ | ⟨t, ts⟩, _ | ⟨u, us⟩, b⟩ <;> rfl

@[simp] theorem truncated_truncate (s : TokenStream) : s.truncate.truncated = true :=
  rfl

/-- Taking the token that was looked at leaves those behind it. -/
theorem remaining_of_peek {s : TokenStream} {t : Token} (h : s.peek.1 = some t) :
    s.remaining = t :: s.peek.2.advance.2.remaining := by
  rw [peek_fst] at h
  rw [remaining_advance, remaining_peek]
  obtain ⟨rest, hrest⟩ := List.head?_eq_some_iff.mp h
  rw [hrest, List.tail_cons]

/-- Without a token to look at, none remains. -/
theorem remaining_of_peek_none {s : TokenStream} (h : s.peek.1 = none) : s.remaining = [] := by
  rw [peek_fst] at h
  exact List.head?_eq_none_iff.mp h

/-- Taking a token that is there leaves fewer tokens. -/
theorem length_advance_lt {s : TokenStream} {t : Token} (h : s.peek.1 = some t) :
    s.peek.2.advance.2.remaining.length < s.remaining.length := by
  rw [peek_fst] at h
  rw [remaining_advance, remaining_peek]
  cases hs : s.remaining with
  | nil => simp [hs] at h
  | cons u us => simp

/-- Reads the rest of a group, given the items read so far of it and of the groups around it.
A group that the tokens leave open ends with them. -/
def parseGroup (items : List Expr) (outer : List (List Expr)) (s : TokenStream) :
    Expr × TokenStream :=
  match _h : s.peek.1 with
  | none => (Reading.closeGroups items outer, s.peek.2.truncate)
  | some t =>
    let rest := s.peek.2.advance.2
    match t.kind with
    | .opening => parseGroup [] (items :: outer) rest
    | .closing =>
      match outer with
      | [] => (Reading.group items, rest)
      | siblings :: outer => parseGroup (Reading.group items :: siblings) outer rest
    | .openString => parseGroup items outer rest.truncate
    | .string => parseGroup (Token.bake t.text :: items) outer rest
    | .word => parseGroup (Token.bake t.text :: items) outer rest
termination_by s.remaining.length
decreasing_by
  all_goals simpa using length_advance_lt _h

theorem length_parseGroup_le (items : List Expr) (outer : List (List Expr)) (s : TokenStream) :
    (parseGroup items outer s).2.remaining.length ≤ s.remaining.length := by
  fun_induction parseGroup items outer s with
  | case1 => simp
  | case3 items s t h => exact Nat.le_of_lt (length_advance_lt h)
  | case5 items outer s t h rest _ ih =>
    exact Nat.le_trans ih (Nat.le_of_lt (by simpa [rest] using length_advance_lt h))
  | case2 items outer s t h _ _ ih => exact Nat.le_trans ih (Nat.le_of_lt (length_advance_lt h))
  | case4 items s t h _ _ _ _ ih => exact Nat.le_trans ih (Nat.le_of_lt (length_advance_lt h))
  | case6 items outer s t h _ _ ih => exact Nat.le_trans ih (Nat.le_of_lt (length_advance_lt h))
  | case7 items outer s t h _ _ ih => exact Nat.le_trans ih (Nat.le_of_lt (length_advance_lt h))

/-- Reads one expression, if a token remains. A token that opens no group is read by itself,
whatever its kind. -/
def parseExpr? (s : TokenStream) : Option Expr × TokenStream :=
  match s.advance.1 with
  | none => (none, s.advance.2)
  | some t =>
    if t.kind = .opening then
      let group := parseGroup [] [] s.advance.2
      (some group.1, group.2)
    else (some (Token.bake t.text), s.advance.2)

/-- Reading an expression takes a token if there is one. -/
theorem length_parseExpr?_lt {s : TokenStream} {t : Token} (h : s.peek.1 = some t) :
    s.parseExpr?.2.remaining.length < s.remaining.length := by
  have hlt : s.advance.2.remaining.length < s.remaining.length := by
    simpa using length_advance_lt h
  rw [peek_fst, ← advance_fst] at h
  unfold parseExpr?
  rw [h]
  dsimp only
  split
  · exact Nat.lt_of_le_of_lt (length_parseGroup_le _ _ _) hlt
  · exact hlt

/-- Drops the closers and the unfinished strings that stand next. -/
def skipUnreadable (s : TokenStream) : TokenStream :=
  match _h : s.peek.1 with
  | some t =>
    if t.kind = .closing ∨ t.kind = .openString then
      skipUnreadable s.peek.2.advance.2.truncate
    else s.peek.2
  | none => s.peek.2
termination_by s.remaining.length
decreasing_by simpa using length_advance_lt _h

theorem length_skipUnreadable_le (s : TokenStream) :
    s.skipUnreadable.remaining.length ≤ s.remaining.length := by
  fun_induction skipUnreadable s with
  | case1 s t h hk ih => exact Nat.le_trans ih (Nat.le_of_lt (by simpa using length_advance_lt h))
  | case2 => simp
  | case3 => simp

def parseAll (s : TokenStream) : List Expr × TokenStream :=
  let next := s.skipUnreadable
  match _h : next.peek.1 with
  | none => ([], next.peek.2)
  | some _ =>
    let first := next.peek.2.parseExpr?
    let others := parseAll first.2
    (first.1.toList ++ others.1, others.2)
termination_by s.remaining.length
decreasing_by
  refine Nat.lt_of_lt_of_le (length_parseExpr?_lt (t := ‹Token›) ?_) ?_
  · rw [peek_fst, remaining_peek, ← peek_fst]; exact _h
  · rw [remaining_peek]; exact length_skipUnreadable_le s

end TokenStream

end Redex
