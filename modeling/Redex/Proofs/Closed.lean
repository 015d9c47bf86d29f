import Redex.Proofs.Inherited
import Redex.Proofs.SpecialForms
import Redex.Proofs.Unbound

/-!
# Closed expressions

An expression is closed if it mentions no symbol that is bound nowhere. Substitution may change what
is read as a literal closure: a splice or a value in front of a sequence can make one of it. Nothing
is mentioned that was not mentioned before, since a literal closure only hides names.

* **`Mentions.exists_item`** — what a sequence mentions, an item of it mentions.
* **`Substitution.mentions_apply`** — what a substituted expression mentions was mentioned before
  and is not substituted, or it is mentioned by what the substitution puts in.
* **`bindArguments_spares`** — an application puts in its arguments, whole or item by item.
* **`application_closed`** — so the application of a closed closure to closed arguments is closed,
  and no `if` in it waits.
-/

namespace Redex

variable {env : Environment} {macros : MacroTable} {e : Expr} {items args : List Expr}
variable {name : String} {σ : Substitution}

/-! ## Names that items mention -/

/-- What a sequence mentions, an item of it mentions. A literal closure only hides names. -/
theorem Mentions.exists_item (h : Mentions name (.sequence items)) :
    ∃ x ∈ items, Mentions name x := by
  generalize hwhole : Expr.sequence items = whole at h
  induction h generalizing items with
  | item _ mem mentioned _ =>
    cases hwhole
    exact ⟨_, mem, mentioned⟩
  | @literal spec body _ _ ih =>
    cases hwhole
    obtain ⟨x, hx, hmentioned⟩ := ih rfl
    exact ⟨x, by simp [hx], hmentioned⟩
  | _ => cases hwhole

theorem MentionedBy.exists_item {opening : Bool} (h : MentionedBy opening items name) :
    ∃ x ∈ items, Mentions name x := by
  cases opening with
  | false => exact h
  | true => exact Mentions.exists_item h

/-! ## Substitution -/

namespace Substitution

/-- What the substitution puts in does not mention the name: neither the expression that takes the
place of a symbol, nor an item of a sequence that is spliced. -/
structure Spares (σ : Substitution) (name : String) : Prop where
  whole : ∀ b ∈ σ.bindings, ¬ Mentions name b.2
  spliced : ∀ b ∈ σ.bindings, b.1 ∈ σ.splice → ∀ items, b.2 = .sequence items →
    ∀ x ∈ items, ¬ Mentions name x

theorem Spares.hide (h : σ.Spares name) (names : List String) : (σ.hide names).Spares name where
  whole b hb := h.whole b (List.mem_filter.mp hb).1
  spliced b hb hsplice := h.spliced b (List.mem_filter.mp hb).1 (List.mem_filter.mp hsplice).1

/-- An item becomes others that do not mention the name, or the one that is put in its place. -/
theorem Spares.item {replaced x : Expr} (h : σ.Spares name) (hx : x ∈ σ.item e replaced)
    (hname : Mentions name x) : x = replaced := by
  unfold Substitution.item at hx
  cases hspliced : σ.spliced? e with
  | none =>
    rw [hspliced] at hx
    exact List.mem_singleton.mp hx
  | some items =>
    rw [hspliced] at hx
    obtain ⟨other, -, hsplice, hlookup⟩ := spliced?_eq_some_iff.mp hspliced
    exact absurd hname (h.spliced _ (Assoc.mem_of_lookup hlookup) hsplice items rfl x hx)

/-- A name that the substitution does not put in is mentioned behind it only if it was mentioned
before and is not substituted. -/
theorem mentions_apply (σ : Substitution) (e : Expr) (hσ : σ.Spares name)
    (h : Mentions name (σ.apply e)) : Mentions name e ∧ name ∉ Assoc.names σ.bindings := by
  -- along the recursion of the substitution; a list is looked at as the sequence that it opens
  refine Substitution.apply.induct
    (fun σ e => σ.Spares name → Mentions name (σ.apply e) →
      Mentions name e ∧ name ∉ Assoc.names σ.bindings)
    (fun σ opening items => σ.Spares name → MentionedBy opening (σ.applyItems opening items) name →
      MentionedBy opening items name ∧ name ∉ Assoc.names σ.bindings)
    ?symbol ?sequence ?closure ?untouched ?answered ?leaf ?nil ?alone ?lambda ?cons σ e hσ h
  case symbol =>
    intro σ other hσ h
    rw [apply] at h
    cases hlookup : σ.bindings.lookup other with
    | none =>
      rw [hlookup] at h
      obtain rfl := mentions_symbol_iff.mp h
      refine ⟨.symbol, fun hmem => ?_⟩
      rw [← Assoc.isSome_lookup, hlookup] at hmem
      cases hmem
    | some value =>
      rw [hlookup] at h
      exact absurd h (hσ.whole _ (Assoc.mem_of_lookup hlookup))
  case sequence =>
    intro σ items ih hσ h
    rw [apply] at h
    exact ih hσ h
  case closure =>
    intro σ params body label ih hσ h
    rw [apply, mentions_closure_iff] at h
    obtain ⟨free, hbody⟩ := h
    obtain ⟨hmentioned, hbound⟩ := ih (hσ.hide params.names) hbody
    exact ⟨.closure free hmentioned,
      fun hmem => hbound (mem_names_hide_iff.mpr ⟨free, hmem⟩)⟩
  case untouched =>
    intro σ e hempty hσ h
    rw [apply, if_pos hempty] at h
    rw [List.isEmpty_iff.mp hempty]
    exact ⟨h, List.not_mem_nil⟩
  case answered =>
    intro σ e hempty ih hσ h
    rw [apply, if_neg hempty] at h
    obtain ⟨hmentioned, hbound⟩ := ih hσ h
    exact ⟨.answered hmentioned, hbound⟩
  case leaf =>
    intro σ e hsymbol hsequence hclosure hanswered hσ h
    -- what is left as it is mentions nothing
    rw [apply] at h
    · cases h with
      | symbol => exact absurd rfl (hsymbol name)
      | item | literal => exact absurd rfl (hsequence _)
      | closure => exact absurd rfl (hclosure _ _ _)
      | answered => exact absurd rfl (hanswered _)
    all_goals assumption
  case nil =>
    intro σ opening hσ h
    exact absurd h (not_mentionedBy_nil opening)
  case alone =>
    intro σ opening head hopen ih hσ h
    rw [applyItems_singleton] at h
    obtain ⟨x, hx, hname⟩ := h.exists_item
    obtain rfl := hσ.item hx hname
    obtain ⟨hmentioned, hbound⟩ := ih hσ hname
    exact ⟨(mentionedBy_alone_iff opening).mpr hmentioned, hbound⟩
  case lambda =>
    intro σ opening head hopen spec body ih hσ h
    obtain ⟨rfl, hhead⟩ : opening = true ∧ head.isSymbol lambdaName = true := by
      simpa using hopen
    obtain rfl := Expr.isSymbol_iff.mp hhead
    -- the literal closure stays one and hides the same names
    rw [applyItems_literal] at h
    obtain ⟨free, hbody⟩ := mentions_literal_iff.mp h
    obtain ⟨hmentioned, hbound⟩ := ih (hσ.hide _) hbody
    exact ⟨mentions_literal_iff.mpr ⟨free, hmentioned⟩,
      fun hmem => hbound (mem_names_hide_iff.mpr ⟨free, hmem⟩)⟩
  case cons =>
    intro σ opening head rest hopen ihhead ihrest hσ h
    rw [applyItems_cons (by simpa using hopen)] at h
    -- the result may look like a literal closure; then it mentions less than its items
    obtain ⟨x, hx, hname⟩ := h.exists_item
    rw [mentionedBy_cons_iff hopen]
    rcases List.mem_append.mp hx with hx | hx
    · obtain rfl := hσ.item hx hname
      obtain ⟨hmentioned, hbound⟩ := ihhead hσ hname
      exact ⟨Or.inl hmentioned, hbound⟩
    · obtain ⟨hmentioned, hbound⟩ := ihrest hσ ⟨x, hx, hname⟩
      exact ⟨Or.inr hmentioned, hbound⟩

end Substitution

/-! ## Application -/

/-- A parameter gets an argument, `#f`, or the sequence of all arguments, which is spliced. -/
theorem bindArguments_spares {params : Params} (h : ∀ a ∈ args, ¬ Mentions name a) :
    (bindArguments params args).Spares name := by
  cases params with
  | fixed names =>
    have hmissing : ¬ Mentions name (.boolean false) := nofun
    exact ⟨fun b hb => pairArguments_mem hmissing names h b (Assoc.mem_ofList hb), nofun⟩
  | collect rest =>
    have hsequence : ¬ Mentions name (.sequence args) := by
      intro hname
      obtain ⟨a, ha, hmentioned⟩ := hname.exists_item
      exact h a ha hmentioned
    refine ⟨List.forall_mem_singleton.mpr hsequence, ?_⟩
    intro b hb _ items hitems
    obtain rfl := List.mem_singleton.mp hb
    cases hitems
    exact h

/-- Every parameter is bound. -/
theorem mem_bindArguments_names {params : Params} (h : name ∈ params.names) (args : List Expr) :
    name ∈ Assoc.names (bindArguments params args).bindings := by
  cases params with
  | fixed names =>
    show name ∈ Assoc.names (Assoc.ofList (pairArguments names args))
    rw [Assoc.mem_names_ofList, pairArguments_names]
    exact h
  | collect rest => exact h

/-- An expression stands in another one outside closures, built and literal ones. -/
inductive Uncovered (e : Expr) : Expr → Prop where
  | refl : Uncovered e e
  | item {items : List Expr} {x : Expr} (plain : isLiteralClosure items = false) (mem : x ∈ items)
      (inner : Uncovered e x) : Uncovered e (.sequence items)

theorem Uncovered.mentions {whole : Expr} (h : Uncovered e whole) (hname : Mentions name e) :
    Mentions name whole := by
  induction h with
  | refl => exact hname
  | item plain mem inner ih => exact .item plain mem ih

/-- The application of a closed closure to closed arguments gives a closed expression, whatever
the number of the arguments. In particular no `if` that stands in it outside closures waits for a
symbol to be bound. -/
theorem application_closed {params : Params} {body : Expr} {label : String} (env : Environment)
    (macros : MacroTable)
    (function : mentionsUnbound env macros [] (.closure params body label) = false)
    (arguments : ∀ a ∈ args, mentionsUnbound env macros [] a = false) :
    ∃ result, applyCall (.closure params body label) args = .ok result ∧
      mentionsUnbound env macros [] result = false ∧
      ∀ branches, Uncovered (.sequence (.symbol "if" :: branches)) result →
        ∀ stepTest env', (SpecialForm.conditional macros (.symbol "if") branches stepTest).exec env ≠
          (.ok .deferred, env') := by
  have hclosed : mentionsUnbound env macros [] ((bindArguments params args).apply body) = false := by
    rw [mentionsUnbound_eq_false_iff] at function ⊢
    intro name houter hname
    cases hbound : isBound env macros name with
    | true => rfl
    | false =>
      -- an unbound name is in no argument, so it was in the body and is no parameter
      have hargs : ∀ a ∈ args, ¬ Mentions name a := by
        intro a ha hmentioned
        rw [mentionsUnbound_eq_false_iff.mp (arguments a ha) name List.not_mem_nil hmentioned] at hbound
        cases hbound
      obtain ⟨hbody, hfree⟩ :=
        Substitution.mentions_apply _ body (bindArguments_spares hargs) hname
      have hparams : name ∉ params.names := fun hmem => hfree (mem_bindArguments_names hmem args)
      rw [← hbound]
      exact function name houter (.closure hparams hbody)
  refine ⟨_, rfl, hclosed, ?_⟩
  intro branches huncovered stepTest env' hdeferred
  obtain ⟨test, rest, rfl, hunbound⟩ := SpecialForm.conditional_deferred hdeferred
  obtain ⟨name, -, hfree, hmentioned⟩ := (mentionsUnbound_iff env macros [] test).mp hunbound
  have hplain : isLiteralClosure (.symbol "if" :: test :: rest) = false := rfl
  have hname := huncovered.mentions (.item hplain (by simp) hmentioned)
  rw [mentionsUnbound_eq_false_iff.mp hclosed name List.not_mem_nil hname] at hfree
  cases hfree

/-- A closure that collects its arguments as `xs`, with the body `(xs (if (not xs) #t #f))`, is
applied to `not` and `lambda`, and both are spliced into the sequences of the body. -/
theorem application_closed_spliced :
    ∃ result, applyCall (.closure (.collect "xs") (.sequence [.symbol "xs", .sequence [.symbol "if",
        .sequence [.symbol "not", .symbol "xs"], .boolean true, .boolean false]]) "f")
        [.symbol "not", .symbol "lambda"] = .ok result ∧
      mentionsUnbound .fresh .standard [] result = false ∧
      ∀ branches, Uncovered (.sequence (.symbol "if" :: branches)) result →
        ∀ stepTest env', (SpecialForm.conditional .standard (.symbol "if") branches stepTest).exec
          .fresh ≠ (.ok .deferred, env') := by
  refine application_closed .fresh .standard rfl ?_
  simp only [List.forall_mem_cons]
  exact ⟨rfl, rfl, nofun⟩

end Redex
