import Redex.Proofs.Grammar

/-!
# Repaired tokens

The reader skips the closers and the unfinished strings that it cannot read, and ends the groups that
the source leaves open. The same repairs can be made to the tokens beforehand, by counting the groups
that are open. The reader then finds nothing to repair and comes to the same program.

* **`repair`** — the tokens as they should have been.
* **`readTokens_repair`** — the reading of the repaired tokens: the program of the given ones, and
  nothing marked.
* **`Derives.repair_eq_self`** — tokens that the grammar derives need no repair.
* **`filter_isAtom_repair`** — a repair keeps every word and every complete string in its place, and
  **`leavesAll_valueAll`** says where these are found in a program.
* **`parseAll_repair`** — reading with repairs is reading what was repaired.
-/

namespace Redex

open SyntaxTree (yieldAll valueAll)

/-! ## The repair of tokens -/

namespace Token

/-- The closer of a group that the source leaves open. -/
def missingCloser : Token :=
  ⟨.closing, ")"⟩

/-- Words and complete strings, the tokens that stand for an expression by themselves. -/
def isAtom (t : Token) : Bool :=
  match t.kind with
  | .word => true
  | .string => true
  | _ => false

end Token

/-- The tokens without what cannot be read, and with the closers that are missing, where `depth`
groups are open before them. -/
def repairFrom : Nat → List Token → List Token
  | depth, [] => List.replicate depth Token.missingCloser
  | depth, t :: tokens =>
    match t.kind with
    | .opening => t :: repairFrom (depth + 1) tokens
    | .closing =>
      match depth with
      | 0 => repairFrom 0 tokens
      | depth + 1 => t :: repairFrom depth tokens
    | .openString => repairFrom depth tokens
    | .string => t :: repairFrom depth tokens
    | .word => t :: repairFrom depth tokens

def repair (tokens : List Token) : List Token :=
  repairFrom 0 tokens

/-! ## Reading the repaired tokens

The depth of the repair is the number of groups that the reader has open. Both drop the same tokens,
so they differ in nothing but the mark; and at the end the missing closers do what the reader does
with its open groups. -/

namespace Reading

variable {r : Reading}

@[simp] theorem length_groups_add (e : Expr) : (r.add e).groups.length = r.groups.length := by
  unfold add
  split
  · rfl
  · rename_i hgroups
    simp [hgroups]

/-- The mark of a repair has no part in what is read. -/
theorem take_marked (t : Token) (mark : Bool) :
    ∃ mark', { r with truncated := mark }.take t = { r.take t with truncated := mark' } := by
  have hadd : ∀ (e : Expr) (r : Reading),
      { r with truncated := mark }.add e = { r.add e with truncated := mark } := by
    intro e r
    unfold add
    cases r.groups with
    | nil => rfl
    | cons items groups => rfl
  unfold take
  cases t.kind with
  | opening => exact ⟨mark, rfl⟩
  | closing =>
    cases hgroups : r.groups with
    | nil => exact ⟨true, rfl⟩
    | cons items groups => exact ⟨mark, hadd (group items) { r with groups := groups }⟩
  | openString => exact ⟨true, rfl⟩
  | string => exact ⟨mark, hadd _ r⟩
  | word => exact ⟨mark, hadd _ r⟩

theorem program_marked (tokens : List Token) (mark : Bool) :
    (tokens.foldl take { r with truncated := mark }).program = (tokens.foldl take r).program := by
  induction tokens generalizing r mark with
  | nil => rfl
  | cons t tokens ih =>
    obtain ⟨mark', htake⟩ := take_marked (r := r) t mark
    rw [List.foldl_cons, List.foldl_cons, htake, ih]

/-- As many closers as there are open groups end them all. -/
theorem foldl_take_missingClosers (items : List Expr) (groups : List (List Expr))
    (forms : List Expr) (mark : Bool) :
    (List.replicate (groups.length + 1) Token.missingCloser).foldl take
        ⟨items :: groups, forms, mark⟩ = ⟨[], closeGroups items groups :: forms, mark⟩ := by
  induction groups generalizing items with
  | nil => rfl
  | cons outer groups ih =>
    rw [List.length_cons, List.replicate_succ, List.foldl_cons]
    exact ih (group items :: outer)

/-- The reader comes to the same program with the repaired tokens, and marks none of them. -/
theorem foldl_take_repairFrom (tokens : List Token) (r : Reading) :
    (repairFrom r.groups.length tokens).foldl take r =
      ⟨[], (tokens.foldl take r).program.reverse, r.truncated⟩ := by
  induction tokens generalizing r with
  | nil =>
    obtain ⟨groups, forms, truncated⟩ := r
    cases groups with
    | nil => simp [repairFrom, program]
    | cons items groups =>
      rw [repairFrom, List.length_cons, foldl_take_missingClosers]
      simp [program]
  | cons t tokens ih =>
    -- an expression goes to the innermost open group or to the forms, and leaves the depth as it is
    have hadded : ∀ (s : Reading) (e : Expr),
        (repairFrom s.groups.length tokens).foldl take (s.add e) =
          ⟨[], (tokens.foldl take (s.add e)).program.reverse, s.truncated⟩ := by
      intro s e
      simpa using ih (s.add e)
    rw [List.foldl_cons]
    cases hkind : t.kind with
    | opening =>
      have htake : r.take t = { r with groups := [] :: r.groups } := by rw [take, hkind]
      simp only [repairFrom, hkind, List.foldl_cons, htake]
      exact ih { r with groups := [] :: r.groups }
    | closing =>
      cases hgroups : r.groups with
      | nil =>
        -- a stray closer is marked by the reader and dropped by the repair
        have htake : r.take t = { r with truncated := true } := by simp [take, hkind, hgroups]
        have hskipped := ih r
        rw [hgroups] at hskipped
        simp only [repairFrom, hkind, List.length_nil, htake, program_marked]
        exact hskipped
      | cons items groups =>
        have htake : r.take t = { r with groups := groups }.add (group items) := by
          simp [take, hkind, hgroups]
        simp only [repairFrom, hkind, List.length_cons, List.foldl_cons, htake]
        exact hadded { r with groups := groups } (group items)
    | openString =>
      have htake : r.take t = { r with truncated := true } := by rw [take, hkind]
      simp only [repairFrom, hkind, htake, program_marked]
      exact ih r
    | string =>
      have htake : r.take t = r.add (Token.bake t.text) := by rw [take, hkind]
      simp only [repairFrom, hkind, List.foldl_cons, htake]
      exact hadded r _
    | word =>
      have htake : r.take t = r.add (Token.bake t.text) := by rw [take, hkind]
      simp only [repairFrom, hkind, List.foldl_cons, htake]
      exact hadded r _

end Reading

theorem readTokens_repair (tokens : List Token) :
    readTokens (repair tokens) = ⟨[], (readTokens tokens).program.reverse, false⟩ :=
  Reading.foldl_take_repairFrom tokens Reading.empty

/-- The repaired tokens have a derivation. -/
theorem derives_repair (tokens : List Token) : ∃ forest, Derives forest (repair tokens) := by
  refine derives_of_isTruncated ?_
  rw [readTokens_repair]
  rfl

theorem program_repair (tokens : List Token) :
    (readTokens (repair tokens)).program = (readTokens tokens).program := by
  rw [readTokens_repair, Reading.program, List.reverse_reverse]

/-! ## Tokens that need no repair -/

mutual

/-- The tokens of a tree are left as they are, at any depth. -/
theorem repairFrom_yield : ∀ (t : SyntaxTree) (depth : Nat) (rest : List Token),
    repairFrom depth (t.yield ++ rest) = t.yield ++ repairFrom depth rest
  | .atom t isAtom, depth, rest => by
    rcases isAtom with h | h
    · simp [SyntaxTree.yield, repairFrom, h]
    · simp [SyntaxTree.yield, repairFrom, h]
  | .group opener opens items closer closes, depth, rest => by
    have hopener : repairFrom depth (opener :: (yieldAll items ++ closer :: rest)) =
        opener :: repairFrom (depth + 1) (yieldAll items ++ closer :: rest) := by
      simp only [repairFrom, opens]
    have hcloser : repairFrom (depth + 1) (closer :: rest) = closer :: repairFrom depth rest := by
      simp only [repairFrom, closes]
    have htokens : (SyntaxTree.group opener opens items closer closes).yield ++ rest =
        opener :: (yieldAll items ++ closer :: rest) := by simp [SyntaxTree.yield]
    rw [htokens, hopener, repairFrom_yieldAll items, hcloser]
    simp [SyntaxTree.yield]

theorem repairFrom_yieldAll : ∀ (ts : List SyntaxTree) (depth : Nat) (rest : List Token),
    repairFrom depth (yieldAll ts ++ rest) = yieldAll ts ++ repairFrom depth rest
  | [], depth, rest => rfl
  | t :: ts, depth, rest => by
    rw [yieldAll, List.append_assoc, repairFrom_yield t, repairFrom_yieldAll ts, List.append_assoc]

end

theorem Derives.repair_eq_self {forest : List SyntaxTree} {tokens : List Token}
    (h : Derives forest tokens) : repair tokens = tokens := by
  have hyield : repairFrom 0 (yieldAll forest ++ []) = yieldAll forest ++ repairFrom 0 [] :=
    repairFrom_yieldAll forest 0 []
  rw [List.append_nil, h] at hyield
  rw [repair, hyield, repairFrom, List.replicate_zero, List.append_nil]

theorem isTruncated_iff_repair_ne (tokens : List Token) :
    (readTokens tokens).isTruncated = true ↔ repair tokens ≠ tokens := by
  constructor
  · intro htruncated hsame
    obtain ⟨forest, hderives⟩ := derives_repair tokens
    rw [hsame] at hderives
    rw [hderives.readTokens.1] at htruncated
    cases htruncated
  · intro hne
    cases htruncated : (readTokens tokens).isTruncated with
    | true => rfl
    | false =>
      obtain ⟨forest, hderives⟩ := derives_of_isTruncated htruncated
      exact absurd hderives.repair_eq_self hne

/-! ## What stands for an expression is kept -/

theorem filter_isAtom_repairFrom (depth : Nat) (tokens : List Token) :
    (repairFrom depth tokens).filter Token.isAtom = tokens.filter Token.isAtom := by
  induction tokens generalizing depth with
  | nil => simp [repairFrom, Token.isAtom, Token.missingCloser]
  | cons t tokens ih =>
    cases hkind : t.kind with
    | opening => simp [repairFrom, hkind, Token.isAtom, ih]
    | closing =>
      cases depth with
      | zero => simp [repairFrom, hkind, Token.isAtom, ih]
      | succ depth => simp [repairFrom, hkind, Token.isAtom, ih]
    | openString => simp [repairFrom, hkind, Token.isAtom, ih]
    | string => simp [repairFrom, hkind, Token.isAtom, ih]
    | word => simp [repairFrom, hkind, Token.isAtom, ih]

theorem filter_isAtom_repair (tokens : List Token) :
    (repair tokens).filter Token.isAtom = tokens.filter Token.isAtom :=
  filter_isAtom_repairFrom 0 tokens

namespace Expr

mutual

/-- The expressions without items that an expression is built from, from left to right. -/
def leaves : Expr → List Expr
  | sequence items => leavesAll items
  | e => [e]

def leavesAll : List Expr → List Expr
  | [] => []
  | e :: es => leaves e ++ leavesAll es

end

end Expr

open Redex.Expr (leaves leavesAll)

/-- A token by itself never stands for a sequence. -/
theorem leaves_bake (text : String) : leaves (Token.bake text) = [Token.bake text] := by
  unfold Token.bake
  split
  · rfl
  · split
    · rfl
    · split <;> rfl

mutual

/-- The leaves of the expression that a tree stands for are its words and its strings. -/
theorem leaves_value : ∀ t : SyntaxTree,
    leaves t.value = (t.yield.filter Token.isAtom).map fun t => Token.bake t.text
  | .atom t isAtom => by
    have hatom : t.isAtom = true := by
      rw [Token.isAtom]
      rcases isAtom with h | h <;> rw [h]
    rw [SyntaxTree.value, SyntaxTree.yield, leaves_bake]
    simp [hatom]
  | .group opener opens items closer closes => by
    have hopener : opener.isAtom = false := by rw [Token.isAtom, opens]
    have hcloser : closer.isAtom = false := by rw [Token.isAtom, closes]
    rw [SyntaxTree.value, SyntaxTree.yield, leaves, leavesAll_valueAll items]
    simp [hopener, hcloser]

theorem leavesAll_valueAll : ∀ ts : List SyntaxTree,
    leavesAll (valueAll ts) = ((yieldAll ts).filter Token.isAtom).map fun t => Token.bake t.text
  | [] => rfl
  | t :: ts => by
    rw [valueAll, yieldAll, leavesAll, leaves_value t, leavesAll_valueAll ts, List.filter_append,
      List.map_append]

end

/-! ## Reading with repairs -/

/-- Reading with repairs is reading what was repaired. The repaired tokens have a derivation, whose
trees give the program of both lists of tokens; a stream is marked as truncated exactly if the repair
changes its tokens. Nothing that stands for an expression is lost, repeated or moved: the words and
the complete strings are those of the given tokens, and they are the leaves of the program. -/
theorem parseAll_repair (tokens : List Token) :
    (∃ forest, Derives forest (repair tokens) ∧
      (TokenStream.ofTokens tokens).parseAll.1 = valueAll forest) ∧
    (TokenStream.ofTokens tokens).parseAll.1 = (TokenStream.ofTokens (repair tokens)).parseAll.1 ∧
    ((TokenStream.ofTokens tokens).parseAll.2.truncated = true ↔ repair tokens ≠ tokens) ∧
    (repair tokens).filter Token.isAtom = tokens.filter Token.isAtom ∧
    leavesAll (TokenStream.ofTokens tokens).parseAll.1 =
      (tokens.filter Token.isAtom).map fun t => Token.bake t.text := by
  obtain ⟨hprogram, htruncated⟩ := TokenStream.parseAll_eq tokens
  obtain ⟨hrepaired, -⟩ := TokenStream.parseAll_eq (repair tokens)
  obtain ⟨forest, hderives⟩ := derives_repair tokens
  have hvalue : (readTokens tokens).program = valueAll forest := by
    rw [← program_repair, hderives.readTokens.2]
  refine ⟨⟨forest, hderives, ?_⟩, ?_, ?_, filter_isAtom_repair tokens, ?_⟩
  · rw [hprogram, hvalue]
  · rw [hprogram, hrepaired, program_repair]
  · rw [htruncated]
    exact isTruncated_iff_repair_ne tokens
  · rw [hprogram, hvalue, leavesAll_valueAll, hderives, filter_isAtom_repair]

example : repair (lex ") (a [b \"c") = lex "(a [b))" := by decide +kernel

end Redex
