import Redex.Proofs.Names
import Redex.Reader.Program

/-!
# What the reader reads

The symbols of a program that was read are words: runs of characters that are neither blank, bracket
nor quote.

* **`lexFrom_wellFormed`** — words hold no delimiter, and strings stand between quotes, along the
  states of the lexer.
* **`Reading.closed_of_truncated`** — a reading without repairs met no string without its end.
* **`Expr.Written`** is what the reader makes of words, and **`readProgram_written`** says that it
  makes nothing else. So every symbol that was read is a word, and no form is the result of a
  definition.
-/

namespace Redex

/-! ## Tokens -/

/-- A run of characters that none of them ends. -/
def IsWord (s : String) : Prop :=
  ∀ c ∈ s.toList, Token.isDelimiter c = false

/-- What the text of a token looks like. -/
def Token.WellFormed (t : Token) : Prop :=
  match t.kind with
  | .word => IsWord t.text
  | .string => ∃ body, t.text.toList = '"' :: body ++ ['"']
  | _ => True

/-- What the lexer has read of a token so far, the last character first. -/
def LexState.WellFormed : LexState → Prop
  | between => True
  | word read => ∀ c ∈ read, Token.isDelimiter c = false
  | string read _ => ∃ body, read = body ++ ['"']

/-- What one character does: the tokens it completes and the state behind it are well formed. -/
def LexState.Advances (result : List Token × LexState) : Prop :=
  (∀ t ∈ result.1, t.WellFormed) ∧ result.2.WellFormed

theorem LexState.emit_word {read : List Char} (h : ∀ c ∈ read, Token.isDelimiter c = false) :
    (emit .word read).WellFormed := by
  intro c hc
  simp only [emit, String.toList_ofList, List.mem_reverse] at hc
  exact h c hc

theorem LexState.start_advances (c : Char) : Advances (start c) := by
  unfold start
  split
  · exact ⟨nofun, trivial⟩
  · rename_i hblank
    split
    · exact ⟨List.forall_mem_cons.mpr ⟨trivial, nofun⟩, trivial⟩
    · rename_i hopener
      split
      · exact ⟨List.forall_mem_cons.mpr ⟨trivial, nofun⟩, trivial⟩
      · rename_i hcloser
        split
        · rename_i hquote
          have hc : c = '"' := by simpa using hquote
          subst hc
          exact ⟨nofun, [], rfl⟩
        · rename_i hquote
          -- the character starts a word, so it is none of the delimiters tried before
          refine ⟨nofun, List.forall_mem_cons.mpr ⟨?_, nofun⟩⟩
          simp [Token.isDelimiter, hblank, hopener, hcloser, hquote]

theorem LexState.next_advances (state : LexState) (c : Char) (h : state.WellFormed) :
    Advances (state.next c) := by
  cases state with
  | between => exact start_advances c
  | word read =>
    simp only [next]
    split
    · obtain ⟨htokens, hstate⟩ := start_advances c
      exact ⟨List.forall_mem_cons.mpr ⟨emit_word h, htokens⟩, hstate⟩
    · rename_i hdelimiter
      exact ⟨nofun, List.forall_mem_cons.mpr ⟨by simpa using hdelimiter, h⟩⟩
  | string read escaped =>
    -- the opening quote stays at the far end of what was read
    obtain ⟨body, rfl⟩ := h
    have hmore : (string (c :: (body ++ ['"'])) false).WellFormed := ⟨c :: body, rfl⟩
    cases escaped with
    | true => exact ⟨nofun, hmore⟩
    | false =>
      simp only [next]
      split
      · exact ⟨nofun, c :: body, rfl⟩
      · split
        · rename_i hquote
          have hc : c = '"' := by simpa using hquote
          subst hc
          refine ⟨List.forall_mem_cons.mpr ⟨⟨body.reverse, ?_⟩, nofun⟩, trivial⟩
          simp [emit]
        · exact ⟨nofun, hmore⟩

/-- The tokens of a source are well formed, from whatever well-formed state the lexer starts. -/
theorem lexFrom_wellFormed (state : LexState) (cs : List Char) (h : state.WellFormed) :
    ∀ t ∈ lexFrom state cs, t.WellFormed := by
  induction cs generalizing state with
  | nil =>
    cases state with
    | between => nofun
    | word read => exact List.forall_mem_cons.mpr ⟨LexState.emit_word h, nofun⟩
    | string read escaped => exact List.forall_mem_cons.mpr ⟨trivial, nofun⟩
  | cons c cs ih =>
    obtain ⟨htokens, hstate⟩ := LexState.next_advances state c h
    rw [lexFrom]
    exact List.forall_mem_append.mpr ⟨htokens, ih _ hstate⟩

/-! ## Repairs

A reading that was repaired stays so. -/

namespace Reading

variable {r : Reading}

@[simp] theorem truncated_add (e : Expr) : (r.add e).truncated = r.truncated := by
  unfold add
  split <;> rfl

theorem take_truncated {t : Token} (h : (r.take t).truncated = false) :
    r.truncated = false ∧ t.kind ≠ .openString := by
  unfold take at h
  split at h
  · rename_i hkind
    exact ⟨h, by simp [hkind]⟩
  · rename_i hkind
    split at h
    · cases h
    · rw [truncated_add] at h
      exact ⟨h, by simp [hkind]⟩
  · cases h
  · rename_i hkind
    rw [truncated_add] at h
    exact ⟨h, by simp [hkind]⟩
  · rename_i hkind
    rw [truncated_add] at h
    exact ⟨h, by simp [hkind]⟩

/-- Where nothing had to be repaired, every string is closed. -/
theorem closed_of_truncated (tokens : List Token)
    (h : (tokens.foldl take r).truncated = false) :
    r.truncated = false ∧ ∀ t ∈ tokens, t.kind ≠ .openString := by
  induction tokens generalizing r with
  | nil => exact ⟨h, nofun⟩
  | cons t tokens ih =>
    obtain ⟨hfirst, hrest⟩ := ih h
    obtain ⟨htruncated, ht⟩ := take_truncated hfirst
    exact ⟨htruncated, List.forall_mem_cons.mpr ⟨ht, hrest⟩⟩

end Reading

/-! ## Expressions -/

variable {P : String → Prop}

/-- What the reader makes of words with the property: numbers, texts, Booleans, symbols and their
groups. -/
inductive Expr.Written (P : String → Prop) : Expr → Prop where
  | number (x : Float) : Written P (.number x)
  | text (s : String) : Written P (.text s)
  | boolean (b : Bool) : Written P (.boolean b)
  | symbol {name : String} (h : P name) : Written P (.symbol name)
  | sequence {items : List Expr} (h : ∀ x ∈ items, Written P x) : Written P (.sequence items)

open Redex.Expr (Written)

theorem Expr.Written.isUndefined {e : Expr} (h : Written P e) : e.isUndefined = false := by
  cases h <;> rfl

theorem Expr.Written.namesIn {e : Expr} (h : Written P e) : Expr.NamesIn P e := by
  induction h with
  | number x => exact .number x
  | text s => exact .text s
  | boolean b => exact .boolean b
  | symbol h => exact .symbol h
  | sequence h ih => exact .sequence ih

theorem Token.bake_written {text : String}
    (h : P text ∨ ∃ body, text.toList = '"' :: body ++ ['"']) : Written P (Token.bake text) := by
  unfold Token.bake
  split
  · exact .boolean _
  · split
    · exact .number _
    · split
      · exact .text _
      · rename_i hquoted
        rcases h with h | ⟨body, hbody⟩
        · exact .symbol h
        · rw [hbody] at hquoted
          -- a text between quotes is read as a string before it could be a symbol
          simp [Token.quotedBody?] at hquoted

theorem Reading.group_written {items : List Expr} (h : ∀ e ∈ items, Written P e) :
    Written P (Reading.group items) :=
  .sequence fun x hx => h x (List.mem_reverse.mp hx)

/-- What has been read is of that kind: the items of the open groups, and the forms. -/
structure Reading.Of (P : String → Prop) (r : Reading) : Prop where
  groups : ∀ items ∈ r.groups, ∀ e ∈ items, Written P e
  forms : ∀ e ∈ r.forms, Written P e

/-- The group that was opened last, and those around it. -/
theorem Reading.Of.innermost {r : Reading} {items : List Expr} {groups : List (List Expr)}
    (h : r.Of P) (hgroups : r.groups = items :: groups) :
    (∀ e ∈ items, Written P e) ∧ ∀ g ∈ groups, ∀ e ∈ g, Written P e := by
  have hall := h.groups
  rw [hgroups] at hall
  exact List.forall_mem_cons.mp hall

theorem Reading.Of.add {r : Reading} {e : Expr} (h : r.Of P) (he : Written P e) :
    (r.add e).Of P := by
  unfold Reading.add
  split
  · exact ⟨h.groups, List.forall_mem_cons.mpr ⟨he, h.forms⟩⟩
  · rename_i items groups hgroups
    obtain ⟨hitems, hothers⟩ := h.innermost hgroups
    exact ⟨List.forall_mem_cons.mpr ⟨List.forall_mem_cons.mpr ⟨he, hitems⟩, hothers⟩, h.forms⟩

theorem Reading.Of.take (hword : ∀ s, IsWord s → P s) {r : Reading} {t : Token} (h : r.Of P)
    (ht : t.WellFormed) : (r.take t).Of P := by
  unfold Reading.take
  unfold Token.WellFormed at ht
  split
  · exact ⟨List.forall_mem_cons.mpr ⟨List.forall_mem_nil _, h.groups⟩, h.forms⟩
  · split
    · exact ⟨h.groups, h.forms⟩
    · rename_i items groups hgroups
      obtain ⟨hitems, hothers⟩ := h.innermost hgroups
      have hrest : Reading.Of P { r with groups := groups } := ⟨hothers, h.forms⟩
      exact hrest.add (Reading.group_written hitems)
  · exact ⟨h.groups, h.forms⟩
  · rename_i hkind
    rw [hkind] at ht
    exact h.add (Token.bake_written (Or.inr ht))
  · rename_i hkind
    rw [hkind] at ht
    exact h.add (Token.bake_written (Or.inl (hword _ ht)))

theorem Reading.closeGroups_written (items : List Expr) (groups : List (List Expr))
    (hitems : ∀ e ∈ items, Written P e) (hgroups : ∀ g ∈ groups, ∀ e ∈ g, Written P e) :
    Written P (Reading.closeGroups items groups) := by
  induction groups generalizing items with
  | nil => exact Reading.group_written hitems
  | cons outer groups ih =>
    obtain ⟨houter, hothers⟩ := List.forall_mem_cons.mp hgroups
    refine ih _ ?_ hothers
    exact List.forall_mem_cons.mpr ⟨Reading.group_written hitems, houter⟩

theorem Reading.Of.program {r : Reading} (h : r.Of P) : ∀ e ∈ r.program, Written P e := by
  intro e he
  unfold Reading.program at he
  split at he
  · exact h.forms e (List.mem_reverse.mp he)
  · rename_i items groups hgroups
    obtain ⟨hitems, hothers⟩ := h.innermost hgroups
    rcases List.mem_cons.mp (List.mem_reverse.mp he) with rfl | he
    · exact Reading.closeGroups_written items groups hitems hothers
    · exact h.forms e he

/-- A program that was read is written in words. -/
theorem readProgram_written (hword : ∀ s, IsWord s → P s) {strict : Bool} {source : String}
    {program : Program} (h : readProgram strict source = .ok program) :
    ∀ e ∈ program, Written P e := by
  have htokens : ∀ t ∈ lex source, t.WellFormed := lexFrom_wellFormed .between _ trivial
  -- one token after the other keeps what was read of that kind
  have hreading : ∀ (tokens : List Token) (r : Reading), (∀ t ∈ tokens, t.WellFormed) → r.Of P →
      (tokens.foldl Reading.take r).Of P := by
    intro tokens
    induction tokens with
    | nil => exact fun r _ hr => hr
    | cons t tokens ih =>
      intro r ht hr
      obtain ⟨hhead, hrest⟩ := List.forall_mem_cons.mp ht
      exact ih _ hrest (hr.take hword hhead)
  have hread : (readTokens (lex source)).Of P := hreading _ _ htokens ⟨nofun, nofun⟩
  unfold readProgram at h
  simp only at h
  split at h
  · cases h
  · cases h
    exact hread.program

/-- Every symbol that was read is a word, and no form is the result of a definition. -/
theorem readProgram_namesIn (hword : ∀ s, IsWord s → P s) {strict : Bool} {source : String}
    {program : Program} (h : readProgram strict source = .ok program) :
    ∀ e ∈ program, Expr.NamesIn P e ∧ e.isUndefined = false := by
  intro e he
  have hwritten := readProgram_written hword h e he
  exact ⟨hwritten.namesIn, hwritten.isUndefined⟩

end Redex
