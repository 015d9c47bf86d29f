import Redex.Stepper.Unbound

/-!
# Unbound symbols

An `if` waits while its test mentions a symbol that is bound nowhere. Which symbols an expression
mentions is a matter of its shape alone.

* **`Mentions`** — a name stands in an expression, other than as a parameter of a closure around it.
* **`mentionsUnbound_iff`** — the search for an unbound symbol finds one exactly if one is mentioned.
-/

namespace Redex

variable {e : Expr} {items : List Expr} {name : String}

/-- The items of an unexpanded closure: the head and a parameter list, and what follows them. -/
def isLiteralClosure : List Expr → Bool
  | head :: _ :: _ => head.isSymbol lambdaName
  | _ => false

/-- A name is mentioned, other than as a parameter of a closure around it. What follows the
parameters of an unexpanded closure counts as a sequence of its own. -/
inductive Mentions (name : String) : Expr → Prop where
  | symbol : Mentions name (.symbol name)
  | item {items : List Expr} {x : Expr} (plain : isLiteralClosure items = false) (mem : x ∈ items)
      (mentioned : Mentions name x) : Mentions name (.sequence items)
  | literal {spec : Expr} {body : List Expr} (free : name ∉ literalParamNames spec)
      (mentioned : Mentions name (.sequence body)) :
      Mentions name (.sequence (.symbol lambdaName :: spec :: body))
  | closure {params : Params} {body : Expr} {label : String} (free : name ∉ params.names)
      (mentioned : Mentions name body) : Mentions name (.closure params body label)
  | answered {e : Expr} (mentioned : Mentions name e) : Mentions name (.answered e)

theorem mentions_symbol_iff {other : String} : Mentions name (.symbol other) ↔ name = other := by
  constructor
  · rintro ⟨⟩
    rfl
  · rintro rfl
    exact .symbol

theorem mentions_items_iff (plain : isLiteralClosure items = false) :
    Mentions name (.sequence items) ↔ ∃ x ∈ items, Mentions name x := by
  constructor
  · intro h
    cases h with
    | item _ mem mentioned => exact ⟨_, mem, mentioned⟩
    | literal free mentioned => simp [isLiteralClosure, Expr.isSymbol] at plain
  · rintro ⟨x, hx, h⟩
    exact .item plain hx h

theorem mentions_literal_iff {spec : Expr} {body : List Expr} :
    Mentions name (.sequence (.symbol lambdaName :: spec :: body)) ↔
      name ∉ literalParamNames spec ∧ Mentions name (.sequence body) := by
  constructor
  · intro h
    cases h with
    | item plain mem mentioned => simp [isLiteralClosure, Expr.isSymbol] at plain
    | literal free mentioned => exact ⟨free, mentioned⟩
  · rintro ⟨free, mentioned⟩
    exact .literal free mentioned

theorem mentions_closure_iff {params : Params} {label : String} :
    Mentions name (.closure params e label) ↔ name ∉ params.names ∧ Mentions name e := by
  constructor
  · rintro ⟨⟩
    exact ⟨by assumption, by assumption⟩
  · rintro ⟨free, mentioned⟩
    exact .closure free mentioned

theorem mentions_answered_iff : Mentions name (.answered e) ↔ Mentions name e := by
  constructor
  · rintro ⟨⟩
    assumption
  · exact .answered

theorem Expr.isSymbol_iff : e.isSymbol name = true ↔ e = .symbol name := by
  cases e with
  | symbol other => simp [isSymbol]
  | _ => simp [isSymbol]

/-- A name is mentioned by a list: as a sequence where the list opens, and by an item elsewhere. -/
def MentionedBy (opening : Bool) (items : List Expr) (name : String) : Prop :=
  if opening then Mentions name (.sequence items) else ∃ x ∈ items, Mentions name x

theorem not_mentionedBy_nil (opening : Bool) : ¬ MentionedBy opening [] name := by
  cases opening with
  | false => simp [MentionedBy]
  | true =>
    have hplain : isLiteralClosure [] = false := rfl
    simp [MentionedBy, mentions_items_iff hplain]

theorem mentionedBy_alone_iff (opening : Bool) :
    MentionedBy opening [e] name ↔ Mentions name e := by
  have hplain : isLiteralClosure [e] = false := rfl
  cases opening with
  | false => simp [MentionedBy]
  | true => simp [MentionedBy, mentions_items_iff hplain]

/-- Where no literal closure opens, the items are looked at one by one. -/
theorem mentionedBy_cons_iff {opening : Bool} {items : List Expr}
    (h : ¬ (opening && e.isSymbol lambdaName) = true) :
    MentionedBy opening (e :: items) name ↔ Mentions name e ∨ MentionedBy false items name := by
  cases opening with
  | false => simp [MentionedBy]
  | true =>
    have hplain : isLiteralClosure (e :: items) = false := by
      cases items <;> simp_all [isLiteralClosure]
    simp [MentionedBy, mentions_items_iff hplain]

/-- The search finds nothing where there is nothing to find. -/
theorem finds_none {found : Bool} {P : String → Prop} (h : found = false) (hnone : ∀ name, ¬ P name)
    {Q R : String → Prop} : found = true ↔ ∃ name, Q name ∧ R name ∧ P name := by
  subst h
  constructor
  · intro hfound
    cases hfound
  · rintro ⟨name, -, -, hname⟩
    exact absurd hname (hnone name)

mutual

/-- The search for an unbound symbol finds one exactly where one is mentioned. -/
theorem mentionsUnbound_iff (env : Environment) (macros : MacroTable) (params : List String) :
    ∀ e : Expr, mentionsUnbound env macros params e = true ↔
      ∃ name, name ∉ params ∧ isBound env macros name = false ∧ Mentions name e
  | .symbol name => by
    rw [mentionsUnbound]
    simp [mentions_symbol_iff]
  | .sequence items => by
    rw [mentionsUnbound, itemsMentionUnbound_iff env macros params true items]
    simp only [MentionedBy, if_true]
  | .closure closureParams body label => by
    rw [mentionsUnbound, mentionsUnbound_iff env macros (closureParams.names ++ params) body]
    simp only [mentions_closure_iff, List.mem_append, not_or]
    grind
  | .answered e => by
    rw [mentionsUnbound, mentionsUnbound_iff env macros params e]
    simp only [mentions_answered_iff]
  | .number _ | .text _ | .boolean _ | .native _ | .struct _ _ | .quoted _ | .undefined | .absent =>
    finds_none rfl fun _ h => by cases h
termination_by structural e => e

theorem itemsMentionUnbound_iff (env : Environment) (macros : MacroTable) (params : List String)
    (opening : Bool) : ∀ items : List Expr,
      itemsMentionUnbound env macros params opening items = true ↔
        ∃ name, name ∉ params ∧ isBound env macros name = false ∧ MentionedBy opening items name
  | [] => by
    rw [itemsMentionUnbound]
    simp [not_mentionedBy_nil]
  | [head] => by
    rw [itemsMentionUnbound.eq_def]
    simp only [mentionedBy_alone_iff]
    rw [← mentionsUnbound_iff env macros params head]
    by_cases hopen : (opening && head.isSymbol lambdaName) = true
    · simp only [hopen, if_true]
    · simp [hopen, itemsMentionUnbound]
  | head :: next :: rest => by
    rw [itemsMentionUnbound.eq_def]
    by_cases hopen : (opening && head.isSymbol lambdaName) = true
    · -- the parameters of a literal closure are not looked for in what follows them
      obtain ⟨rfl, hhead⟩ : opening = true ∧ head.isSymbol lambdaName = true := by
        simpa using hopen
      rw [Expr.isSymbol_iff] at hhead
      subst hhead
      simp only [hopen, if_true]
      rw [itemsMentionUnbound_iff env macros (literalParamNames next ++ params) true rest]
      simp only [MentionedBy, if_true, mentions_literal_iff, List.mem_append, not_or]
      grind
    · simp only [mentionedBy_cons_iff hopen]
      rw [if_neg hopen, Bool.or_eq_true, mentionsUnbound_iff env macros params head,
        itemsMentionUnbound_iff env macros params false (next :: rest)]
      grind
termination_by structural items => items

end

/-- Nothing is found exactly where every name that is mentioned is bound or a parameter. -/
theorem mentionsUnbound_eq_false_iff {env : Environment} {macros : MacroTable}
    {params : List String} : mentionsUnbound env macros params e = false ↔
      ∀ name, name ∉ params → Mentions name e → isBound env macros name = true := by
  rw [← Bool.not_eq_true, mentionsUnbound_iff]
  constructor
  · intro h name hparams hname
    cases hbound : isBound env macros name with
    | true => rfl
    | false => exact absurd ⟨name, hparams, hbound, hname⟩ h
  · rintro h ⟨name, hparams, hfree, hname⟩
    rw [h name hparams hname] at hfree
    cases hfree

end Redex
