import Redex.Proofs.Display
import Redex.Proofs.SpecialForms
import Redex.Proofs.Substitution
import Redex.Proofs.Unbound

/-!
# Binders under substitution

A function may stand inside another one in three ways: as a literal `lambda` form, as the closure
that the form becomes, and as the function shorthand of `define`. Substitution meets all three, and
what is built from the forms is built from what the substitution has left of them.

* **`Params.ofItems_eq_fixed_iff`** — a list of symbols stands for the parameters that it names, and
  nothing else does.
* **`Substitution.apply_congr`** — what an expression becomes depends on the names that it mentions,
  and **`Substitution.apply_hide`** — so names may be hidden that stand for themselves.
* **`Expr.Unmarked`** is what an expression has to be for that, and **`Reachable.unmarked`** says
  that the programs under way hold nothing else.
* **`closure_substitution_iff`** — a closure may be built before the substitution or behind it,
  unless its body is the bare name of the arguments that are spliced.
* **`functionDefinition_iff`** — the function shorthand means what the literal closure means exactly
  if the substitution leaves its parameters as they are.
-/

namespace Redex

variable {items : List Expr} {names : List String} {name : String}

/-! ## Parameter lists -/

theorem any_dot_map_symbol (names : List String) :
    (names.map Expr.symbol).any (Expr.isSymbol dotName) = names.contains dotName := by
  induction names with
  | nil => rfl
  | cons name names ih =>
    rw [List.map_cons, List.any_cons, List.contains_cons, ih, BEq.comm]
    rfl

/-- One parameter per position is what a list of symbols without a dot stands for. -/
theorem Params.ofItems_eq_fixed_iff :
    Params.ofItems items = .ok (.fixed names) ↔
      items = names.map Expr.symbol ∧ dotName ∉ names := by
  constructor
  · intro h
    unfold Params.ofItems at h
    split at h
    -- a dotted list collects all arguments or is malformed
    · split at h
      · split at h <;> cases h
      · cases h
    · rename_i hdot
      cases hnames : symbolNames .paramNotSymbol items with
      | error err =>
        rw [hnames] at h
        cases h
      | ok others =>
        rw [hnames] at h
        cases h
        have heq := symbolNames_eq_ok_iff.mp hnames
        rw [heq, any_dot_map_symbol] at hdot
        exact ⟨heq, fun hmem => hdot (List.contains_iff_mem.mpr hmem)⟩
  · rintro ⟨rfl, hdot⟩
    have hnone : (names.map Expr.symbol).any (Expr.isSymbol dotName) = false := by
      rw [any_dot_map_symbol]
      simpa using hdot
    unfold Params.ofItems
    simp only [hnone, Bool.false_eq_true, if_false, symbolNames_map]
    rfl

theorem literalParamNames_map (names : List String) :
    literalParamNames (.sequence (names.map Expr.symbol)) = names := by
  show (names.map Expr.symbol).filterMap Expr.symbolName? = names
  rw [List.filterMap_map]
  exact List.filterMap_some

/-- A literal closure hides its parameters, and the dot in front of a collecting one. -/
theorem literalParamNames_of_ofSpec {spec : Expr} {params : Params}
    (h : Params.ofSpec spec = .ok params) :
    literalParamNames spec = params.names ∨ literalParamNames spec = dotName :: params.names := by
  cases params with
  | fixed names =>
    cases spec with
    | sequence items =>
      obtain ⟨rfl, -⟩ := Params.ofItems_eq_fixed_iff.mp h
      exact Or.inl (literalParamNames_map names)
    | _ => cases h
  | collect rest =>
    cases spec with
    | symbol name =>
      cases h
      exact Or.inl rfl
    | sequence items =>
      -- the only list that collects is `(. rest)`
      simp only [Params.ofSpec, Params.ofItems] at h
      split at h
      · split at h
        · rename_i dot rest' _
          split at h
          · rename_i hdot
            cases h
            cases dot with
            | symbol name =>
              have hname : name = dotName := by simpa [Expr.isSymbol] using hdot
              subst hname
              exact Or.inr rfl
            | _ => cases hdot
          · cases h
        · cases h
      · cases hnames : symbolNames .paramNotSymbol items with
        | error err =>
          rw [hnames] at h
          cases h
        | ok names =>
          rw [hnames] at h
          cases h
    | _ => cases h

/-! ## Bound names -/

/-- An application binds the parameters and nothing else. -/
theorem bindArguments_names {params : Params} {args : List Expr}
    (h : name ∈ Assoc.names (bindArguments params args).bindings ∨
      name ∈ (bindArguments params args).splice) : name ∈ params.names := by
  cases params with
  | fixed names =>
    rcases h with h | h
    · obtain ⟨b, hb, rfl⟩ := List.mem_map.mp h
      have hmem := List.mem_map_of_mem (f := Prod.fst) (Assoc.mem_ofList hb)
      rwa [← Assoc.names, pairArguments_names] at hmem
    · cases h
  | collect rest =>
    rcases h with h | h
    · exact h
    · exact h

/-! ## Names that stand for themselves -/

/-- No rule with a fixed answer has left its mark where an application goes. Only tables of one's own
hold such rules. -/
inductive Expr.Unmarked : Expr → Prop where
  | sequence {items : List Expr} (h : ∀ x ∈ items, Unmarked x) : Unmarked (.sequence items)
  | closure {params : Params} {body : Expr} {name : String} (h : Unmarked body) :
      Unmarked (.closure params body name)
  | struct {tag : String} {fields : List (String × Expr)} (h : ∀ f ∈ fields, Unmarked f.2) :
      Unmarked (.struct tag fields)
  | leaf {e : Expr} (notSequence : ∀ items, e ≠ .sequence items)
      (notClosure : ∀ params body name, e ≠ .closure params body name)
      (notStruct : ∀ tag fields, e ≠ .struct tag fields)
      (unmarked : ∀ answer, e ≠ .answered answer) : Unmarked e

theorem Expr.Unmarked.mem (h : (Expr.sequence items).Unmarked) : ∀ x ∈ items, x.Unmarked := by
  cases h with
  | sequence h => exact h
  | leaf notSequence _ _ _ => exact absurd rfl (notSequence items)

theorem Expr.Unmarked.body {params : Params} {body : Expr} {name : String}
    (h : (Expr.closure params body name).Unmarked) : body.Unmarked := by
  cases h with
  | closure h => exact h
  | leaf _ notClosure _ _ => exact absurd rfl (notClosure params body name)

theorem Expr.Written.unmarked {P : String → Prop} {e : Expr} (h : Written P e) : e.Unmarked := by
  induction h with
  | sequence h ih => exact .sequence ih
  | _ => exact .leaf nofun nofun nofun nofun

/-- Application takes nothing out of a mark, and the forms of the language put none in. -/
theorem Expr.unmarked_stepped : Expr.Stepped Expr.Unmarked Expr.Unmarked where
  toCarried := Expr.Inherited.carried
    { number := fun x => .leaf nofun nofun nofun nofun
      boolean := fun b => .leaf nofun nofun nofun nofun
      undefined := .leaf nofun nofun nofun nofun
      sequence := ⟨Expr.Unmarked.mem, .sequence⟩
      struct := by
        refine ⟨fun h => ?_, .struct⟩
        cases h with
        | struct h => exact h
        | leaf _ _ notStruct _ => exact absurd rfl (notStruct _ _)
      body := Expr.Unmarked.body
      closure := fun _ hbody => .closure hbody
      answered := by
        rintro e (_ | _ | _ | ⟨-, -, -, unmarked⟩)
        exact absurd rfl (unmarked e) }
  anonymous hbody := .closure hbody
  function _ hbody := .closure hbody

/-- The standard table marks nothing, so no program under way holds a mark. -/
theorem Reachable.unmarked {strict : Bool} {budget : Nat} {definitions expression : String}
    {program : Program} {interp : Interpreter}
    (h : Reachable strict budget definitions expression program interp) :
    (∀ e ∈ program, e.Unmarked) ∧
      (interp.environment interp.current).Carries Expr.Unmarked := by
  have hleaf : Expr.Unmarked .undefined := .leaf nofun nofun nofun nofun
  refine h.carried Expr.unmarked_stepped ?_ (fun b => .leaf nofun nofun nofun nofun)
    (fun _ hwritten => hwritten.unmarked) (.inl hleaf) (.inl hleaf)
  intro env env' tag fields _ _ _ b hb
  obtain ⟨p, -, rfl⟩ := List.mem_map.mp (Assoc.mem_ofList hb)
  exact .leaf nofun nofun nofun nofun

namespace Substitution

variable {σ : Substitution}

/-- The substitution splices nothing and leaves the names as they are. -/
structure Leaves (σ : Substitution) (names : List String) : Prop where
  splice : σ.splice = []
  stands : ∀ name ∈ names, σ.apply (.symbol name) = .symbol name

theorem Leaves.hide (h : σ.Leaves names) (others : List String) : (σ.hide others).Leaves names := by
  refine ⟨hide_splice h.splice others, fun name hname => ?_⟩
  rw [hide_apply_symbol]
  split
  · rfl
  · exact h.stands name hname

/-- What an expression becomes depends on the names that it mentions. -/
theorem apply_congr (σ τ : Substitution) (e : Expr) (hσ : σ.splice = []) (hτ : τ.splice = [])
    (h : ∀ name, Mentions name e → σ.apply (.symbol name) = τ.apply (.symbol name))
    (he : e.Unmarked) : σ.apply e = τ.apply e := by
  -- along the recursion of the first substitution; both hide the same names on their way
  refine Substitution.apply.induct
    (fun σ e => ∀ τ : Substitution, σ.splice = [] → τ.splice = [] →
      (∀ name, Mentions name e → σ.apply (.symbol name) = τ.apply (.symbol name)) →
      e.Unmarked → σ.apply e = τ.apply e)
    (fun σ opening items => ∀ τ : Substitution, σ.splice = [] → τ.splice = [] →
      (∀ name, MentionedBy opening items name → σ.apply (.symbol name) = τ.apply (.symbol name)) →
      (∀ x ∈ items, x.Unmarked) → σ.applyItems opening items = τ.applyItems opening items)
    ?symbol ?sequence ?closure ?untouched ?answered ?leaf ?nil ?alone ?lambda ?cons σ e τ hσ hτ h he
  case symbol =>
    intro σ name τ hσ hτ h he
    exact h name .symbol
  case sequence =>
    intro σ items ih τ hσ hτ h he
    rw [apply, apply, ih τ hσ hτ h he.mem]
  case closure =>
    intro σ params body label ih τ hσ hτ h he
    have hbody := ih (τ.hide params.names) (hide_splice hσ _) (hide_splice hτ _)
      (fun name hname => hide_apply_symbol_congr fun free => h name (.closure free hname)) he.body
    rw [apply, apply, hbody]
  case untouched =>
    intro σ e hempty τ hσ hτ h he
    cases he with
    | leaf _ _ _ unmarked => exact absurd rfl (unmarked e)
  case answered =>
    intro σ e hempty ih τ hσ hτ h he
    cases he with
    | leaf _ _ _ unmarked => exact absurd rfl (unmarked e)
  case leaf =>
    intro σ e hsymbol hsequence hclosure hanswered τ hσ hτ h he
    rw [apply, apply]
    all_goals assumption
  case nil =>
    intro σ opening τ hσ hτ h he
    rfl
  case alone =>
    intro σ opening head hopen ih τ hσ hτ h he
    have hhead := ih τ hσ hτ (fun name hname => h name ((mentionedBy_alone_iff opening).mpr hname))
      (he head List.mem_cons_self)
    rw [applyItems_singleton, applyItems_singleton, item_of_splice hσ, item_of_splice hτ, hhead]
  case lambda =>
    intro σ opening head hopen spec body ih τ hσ hτ h he
    obtain ⟨rfl, hhead⟩ : opening = true ∧ head.isSymbol lambdaName = true := by
      simpa using hopen
    obtain rfl := Expr.isSymbol_iff.mp hhead
    have hbody := ih (τ.hide (literalParamNames spec)) (hide_splice hσ _) (hide_splice hτ _)
      (fun name hname => hide_apply_symbol_congr fun free =>
        h name (mentions_literal_iff.mpr ⟨free, hname⟩)) fun x hx => he x (by simp [hx])
    rw [applyItems_literal, applyItems_literal, hbody]
  case cons =>
    intro σ opening head rest hopen ihhead ihrest τ hσ hτ h he
    have hhead := ihhead τ hσ hτ (fun name hname => h name
      ((mentionedBy_cons_iff hopen).mpr (Or.inl hname))) (he head List.mem_cons_self)
    have hrest := ihrest τ hσ hτ (fun name hname => h name
      ((mentionedBy_cons_iff hopen).mpr (Or.inr hname)))
      fun x hx => he x (List.mem_cons_of_mem head hx)
    rw [applyItems_cons (by simpa using hopen), applyItems_cons (by simpa using hopen),
      item_of_splice hσ, item_of_splice hτ, hhead, hrest]

/-- Hiding names that stand for themselves changes nothing. -/
theorem apply_hide (σ : Substitution) (e : Expr) (names : List String) (hσ : σ.Leaves names)
    (he : e.Unmarked) : (σ.hide names).apply e = σ.apply e := by
  refine apply_congr _ _ e (hide_splice hσ.splice names) hσ.splice ?_ he
  intro name _
  rw [hide_apply_symbol]
  split
  · rename_i hname
    exact (hσ.stands name hname).symm
  · rfl

end Substitution

/-! ## Closures -/

variable {env : Environment}

/-- The first pass builds the closure of a literal one that stands alone. -/
theorem expand_closure {args : List Expr} {closure : Expr}
    (h : SpecialForm.lambda args = .becomes closure) (env : Environment) :
    (expand .standard (.sequence (.symbol lambdaName :: args))).exec env =
      (.ok (.silent closure), env) := by
  have hrule : MacroTable.standard.rule? (.symbol lambdaName) = some .lambda := rfl
  rw [expand_special hrule]
  show (SpecialForm.conclude (.symbol lambdaName) (SpecialForm.lambda args)).exec env = _
  rw [h]
  rfl

theorem lambda_of_ofSpec {spec : Expr} {params : Params} (h : Params.ofSpec spec = .ok params)
    (rest : List Expr) : SpecialForm.lambda (spec :: rest) =
      .becomes (.closure params (rest.head?.getD .undefined) Expr.anonymous) := by
  simp only [SpecialForm.lambda, h]
  rfl

/-- What an application makes of a literal closure in the body that it fills in. -/
theorem apply_literal {outer inner : Params} {spec : Expr} (args : List Expr) (body : Expr)
    (valid : Params.ofSpec spec = .ok inner) (undotted : dotName ∉ outer.names) :
    (bindArguments outer args).apply (.sequence [.symbol lambdaName, spec, body]) =
      .sequence (.symbol lambdaName :: spec ::
        ((bindArguments outer args).hide inner.names).item body
          (((bindArguments outer args).hide inner.names).apply body)) := by
  have hhide : (bindArguments outer args).hide (literalParamNames spec) =
      (bindArguments outer args).hide inner.names := by
    rcases literalParamNames_of_ofSpec valid with h | h
    · rw [h]
    -- a dot that no parameter is called need not be hidden
    · rw [h, Substitution.hide_cons_of_unbound]
      · exact fun hdot => undotted (bindArguments_names (Or.inl hdot))
      · exact fun hdot => undotted (bindArguments_names (Or.inr hdot))
  rw [Substitution.apply, Substitution.applyItems_literal, hhide, Substitution.applyItems_singleton]

/-- The body of a closure is the bare name of the arguments that the application around it
collects. -/
def BareRest (outer inner : Params) (body : Expr) : Prop :=
  ∃ rest, outer = .collect rest ∧ body = .symbol rest ∧ rest ∉ inner.names

theorem BareRest.hide {inner : Params} {rest : String} (args : List Expr) (h : rest ∉ inner.names) :
    (bindArguments (.collect rest) args).hide inner.names = bindArguments (.collect rest) args := by
  simp [bindArguments, Substitution.hide, Assoc.without, h]

/-- The arguments take the place of their bare name, as items of the literal closure. -/
theorem BareRest.item {outer inner : Params} {body : Expr} (h : BareRest outer inner body)
    (args : List Expr) (replaced : Expr) :
    ((bindArguments outer args).hide inner.names).item body replaced = args := by
  obtain ⟨rest, rfl, rfl, hrest⟩ := h
  rw [BareRest.hide args hrest]
  simp [Substitution.item, Substitution.spliced?, bindArguments]

theorem BareRest.apply {outer inner : Params} {body : Expr} (h : BareRest outer inner body)
    (args : List Expr) :
    ((bindArguments outer args).hide inner.names).apply body = .sequence args := by
  obtain ⟨rest, rfl, rfl, hrest⟩ := h
  rw [BareRest.hide args hrest]
  simp [Substitution.apply, bindArguments]

/-- Every other body stays one item. -/
theorem item_of_not_bareRest {outer inner : Params} {body : Expr} (h : ¬ BareRest outer inner body)
    (args : List Expr) (replaced : Expr) :
    ((bindArguments outer args).hide inner.names).item body replaced = [replaced] := by
  cases outer with
  | fixed names => exact Substitution.item_of_splice rfl body replaced
  | collect rest =>
    by_cases hrest : rest ∈ inner.names
    · refine Substitution.item_of_splice ?_ body replaced
      simp [bindArguments, Substitution.hide, hrest]
    · rw [BareRest.hide args hrest]
      cases body with
      | symbol name =>
        have hne : name ≠ rest := by
          rintro rfl
          exact h ⟨name, rfl, rfl, hrest⟩
        simp [Substitution.item, Substitution.spliced?, bindArguments, hne]
      | _ => rfl

theorem head?_ne_sequence (args : List Expr) : args.head?.getD .undefined ≠ .sequence args := by
  cases args with
  | nil => nofun
  | cons arg args =>
    intro h
    -- an expression is smaller than a sequence that it stands in
    have hsize := congrArg sizeOf h
    simp at hsize
    omega

/-- A literal closure stands in the body that an application fills in. Whether it is built before
the application or behind it makes no difference, unless its own body is the bare name of the
arguments that the application collects. Then the arguments become items of the literal closure,
which takes the first of them for its body and drops the others. -/
theorem closure_substitution_iff {outer inner : Params} {spec : Expr} (args : List Expr)
    (body : Expr) (env : Environment) (valid : Params.ofSpec spec = .ok inner)
    (undotted : dotName ∉ outer.names) :
    (expand .standard (.sequence [.symbol lambdaName, spec, body])).exec env =
        (.ok (.silent (.closure inner body Expr.anonymous)), env) ∧
      ((expand .standard ((bindArguments outer args).apply
            (.sequence [.symbol lambdaName, spec, body]))).exec env =
          (.ok (.silent ((bindArguments outer args).apply
            (.closure inner body Expr.anonymous))), env) ↔ ¬ BareRest outer inner body) ∧
      (BareRest outer inner body →
        (expand .standard ((bindArguments outer args).apply
            (.sequence [.symbol lambdaName, spec, body]))).exec env =
          (.ok (.silent (.closure inner (args.head?.getD .undefined) Expr.anonymous)), env)) := by
  have hbefore := expand_closure (lambda_of_ofSpec valid [body]) env
  have hbehind := expand_closure (lambda_of_ofSpec valid
    (((bindArguments outer args).hide inner.names).item body
      (((bindArguments outer args).hide inner.names).apply body))) env
  rw [← apply_literal args body valid undotted] at hbehind
  refine ⟨hbefore, ⟨?_, ?_⟩, ?_⟩
  · rintro hsame hbare
    rw [hbehind, Substitution.apply, hbare.item, hbare.apply] at hsame
    have hbody : args.head?.getD .undefined = .sequence args := by
      simpa using hsame
    exact head?_ne_sequence args hbody
  · intro hbare
    rw [hbehind, item_of_not_bareRest hbare, Substitution.apply]
    rfl
  · intro hbare
    rw [hbehind, hbare.item]

/-- `(lambda (y) (not x y))` in a function of `x`: the parameter of the inner closure stays. -/
theorem closure_substitution_iff_not :
    (expand .standard ((bindArguments (.fixed ["x"]) [.boolean true]).apply
        (.sequence [.symbol "lambda", .sequence [.symbol "y"],
          .sequence [.symbol "not", .symbol "x", .symbol "y"]]))).exec .fresh =
      (.ok (.silent (.closure (.fixed ["y"])
        (.sequence [.symbol "not", .boolean true, .symbol "y"]) Expr.anonymous)), .fresh) := by
  have hbare : ¬ BareRest (.fixed ["x"]) (.fixed ["y"])
      (.sequence [.symbol "not", .symbol "x", .symbol "y"]) := by
    rintro ⟨rest, hrest, -⟩
    cases hrest
  have hspec : Params.ofSpec (.sequence [.symbol "y"]) = .ok (.fixed ["y"]) := rfl
  have hdot : dotName ∉ (Params.fixed ["x"]).names := by decide
  exact (closure_substitution_iff [.boolean true] _ .fresh hspec hdot).2.1.mpr hbare

/-- `(lambda (y) xs)` in a function that collects `#t` and `#f` as `xs`: the closure that it stands
for becomes that of the sequence `(#t #f)`, and built behind the application it is that of `#t`. -/
theorem closure_substitution_bare :
    (expand .standard
        (.sequence [.symbol "lambda", .sequence [.symbol "y"], .symbol "xs"])).exec .fresh =
      (.ok (.silent (.closure (.fixed ["y"]) (.symbol "xs") Expr.anonymous)), .fresh) ∧
    (bindArguments (.collect "xs") [.boolean true, .boolean false]).apply
        (.closure (.fixed ["y"]) (.symbol "xs") Expr.anonymous) =
      .closure (.fixed ["y"]) (.sequence [.boolean true, .boolean false]) Expr.anonymous ∧
    (expand .standard ((bindArguments (.collect "xs") [.boolean true, .boolean false]).apply
        (.sequence [.symbol "lambda", .sequence [.symbol "y"], .symbol "xs"]))).exec .fresh =
      (.ok (.silent (.closure (.fixed ["y"]) (.boolean true) Expr.anonymous)), .fresh) :=
  ⟨rfl, rfl, rfl⟩

/-! ## Function definitions -/

/-- The shorthand `(define (name p …) body)`. -/
def functionDefinition (name : String) (params : List String) (body : Expr) : Expr :=
  .sequence [.symbol "define", .sequence (.symbol name :: params.map Expr.symbol), body]

/-- The literal closure `(lambda (p …) body)`. -/
def literalClosure (params : List String) (body : Expr) : Expr :=
  .sequence [.symbol lambdaName, .sequence (params.map Expr.symbol), body]

/-- A function definition binds the closure that its target describes. -/
theorem step_define_function {name : String} {params : Params} {body : Expr}
    (hparams : Params.ofItems items = .ok params) (free : env.user.frozen = false) :
    (step .standard (.sequence [.symbol "define", .sequence (.symbol name :: items), body])).exec
        env = (.ok ⟨true, .undefined⟩, env.bindAll [(name, .closure params body name)]) := by
  have hparts : SpecialForm.definition [.sequence (.symbol name :: items), body] =
      .ok (name, .closure params body name) := by
    simp only [SpecialForm.definition, hparams]
    rfl
  exact step_of_visible (SpecialForm.expand_becomes rfl (SpecialForm.define_exec hparts free) rfl)

/-- A shorthand that binds a closure has the parameters of the closure for its own. -/
theorem ofItems_of_step_define {name : String} {params : Params} {body value : Expr}
    (h : (step .standard (.sequence [.symbol "define", .sequence (.symbol name :: items), body])).exec
      env = (.ok ⟨true, .undefined⟩, env.bindAll [(name, .closure params value name)]))
    (free : env.user.frozen = false) : Params.ofItems items = .ok params := by
  cases hparams : Params.ofItems items with
  | error err =>
    have hparts : SpecialForm.definition [.sequence (.symbol name :: items), body] =
        .error err := by
      simp only [SpecialForm.definition, hparams]
      rfl
    have hexpand : (expand .standard (.sequence
        [.symbol "define", .sequence (.symbol name :: items), body])).exec env = (.error err, env) :=
      SpecialForm.expand_malformed rfl (SpecialForm.define_exec_malformed hparts)
    rw [step_of_failed hexpand] at h
    cases h
  | ok bound =>
    rw [step_define_function hparams free] at h
    -- the two values of the name are the same
    have henv := congrArg (fun result => result.2.user.get? name) h
    have hvalue : ∀ value : Expr,
        (env.bindAll [(name, value)]).user.get? name = some value :=
      fun value => Assoc.lookup_insert_self name value env.user.bindings
    simp only [hvalue, Option.some.injEq, Expr.closure.injEq] at henv
    rw [henv.1]

namespace Substitution

variable {σ : Substitution} {params : List String} {body : Expr}

theorem apply_symbol_of_unbound (h : name ∉ Assoc.names σ.bindings) :
    σ.apply (.symbol name) = .symbol name := by
  rw [apply, lookup_eq_none h]
  rfl

/-- The items of a list of names that stand for themselves, even of one that looks like a literal
closure. -/
theorem Leaves.applyItems : ∀ {σ : Substitution} {names : List String} (opening : Bool),
    σ.Leaves names → σ.applyItems opening (names.map Expr.symbol) = names.map Expr.symbol
  | _, [], _, _ => rfl
  | σ, [name], opening, h => by
    have hitem : σ.item (.symbol name) (σ.apply (.symbol name)) = [.symbol name] := by
      rw [item_of_splice h.splice, h.stands name List.mem_cons_self]
    by_cases hopen : (opening && (Expr.symbol name).isSymbol lambdaName) = true
    · rw [List.map_cons, List.map_nil, applyItems.eq_def]
      simp only [hopen, if_true]
      exact hitem
    · rw [List.map_cons, List.map_nil, applyItems_cons (by simpa using hopen), hitem]
      rfl
  | σ, name :: spec :: names, opening, h => by
    have hrest : σ.Leaves (spec :: names) :=
      ⟨h.splice, fun other hother => h.stands other (List.mem_cons_of_mem name hother)⟩
    by_cases hopen : (opening && (Expr.symbol name).isSymbol lambdaName) = true
    · have hnames : (σ.hide (literalParamNames (.symbol spec))).Leaves names :=
        Leaves.hide ⟨h.splice, fun other hother => h.stands other (by simp [hother])⟩ _
      rw [List.map_cons, List.map_cons, applyItems.eq_def]
      simp only [hopen, if_true]
      rw [hnames.applyItems true]
    · rw [List.map_cons, applyItems_cons (by simpa using hopen), item_of_splice h.splice,
        h.stands name List.mem_cons_self, hrest.applyItems false]
      rfl

/-- A `define` form of three parts, if the substitution leaves its head alone. -/
theorem apply_define (hσ : σ.splice = []) (hdefine : "define" ∉ Assoc.names σ.bindings)
    (items : List Expr) (body : Expr) :
    σ.apply (.sequence [.symbol "define", .sequence items, body]) =
      .sequence [.symbol "define", .sequence (σ.applyItems true items), σ.apply body] := by
  rw [apply, applyItems_cons rfl, item_of_splice hσ, apply_symbol_of_unbound hdefine,
    applyItems_of_splice hσ]
  rfl

/-- What a substitution makes of the target of a shorthand. -/
theorem applyItems_target (hσ : σ.splice = []) (hname : name ∉ Assoc.names σ.bindings)
    (hlambda : name ≠ lambdaName) (params : List String) :
    σ.applyItems true (.symbol name :: params.map Expr.symbol) =
      .symbol name :: params.map fun param => σ.apply (.symbol param) := by
  have hhead : (true && (Expr.symbol name).isSymbol lambdaName) = false := by
    simpa [Expr.isSymbol] using hlambda
  rw [applyItems_cons hhead, item_of_splice hσ, apply_symbol_of_unbound hname,
    applyItems_of_splice hσ, List.map_map]
  rfl

theorem apply_literalClosure (hσ : σ.splice = []) (params : List String) (body : Expr) :
    σ.apply (literalClosure params body) = literalClosure params ((σ.hide params).apply body) := by
  have hhidden : (σ.hide params).splice = [] := by
    show σ.splice.filter _ = []
    rw [hσ]
    rfl
  rw [literalClosure, apply, applyItems_literal, literalParamNames_map, applyItems_singleton,
    item_of_splice hhidden]
  rfl

end Substitution

/-- The shorthand, evaluated, binds a closure with its parameters, and the literal closure becomes
the same one but for the name. -/
def DefinesAlike (env : Environment) (σ : Substitution) (name : String) (params : List String)
    (body : Expr) : Prop :=
  ∃ filled, (step .standard (σ.apply (functionDefinition name params body))).exec env =
      (.ok ⟨true, .undefined⟩, env.bindAll [(name, .closure (.fixed params) filled name)]) ∧
    (expand .standard (σ.apply (literalClosure params body))).exec env =
      (.ok (.silent (.closure (.fixed params) filled Expr.anonymous)), env)

/-- A function is defined in the body of an applied closure. The shorthand means what the literal
closure means if each of its parameters is left as it is: bound by no parameter around it, or bound
to itself. It means something else, or fails, if a parameter is replaced, since no parameter of a
shorthand is hidden from the application. A function by the name of `lambda` is excepted there,
because its shorthand looks like a literal closure within the definition. -/
theorem functionDefinition_iff {outer params : List String} {name : String} {body : Expr}
    (args : List Expr) (hname : name ∉ outer) (hdefine : "define" ∉ outer)
    (undotted : dotName ∉ params) (unmarked : body.Unmarked) (free : env.user.frozen = false) :
    ((∀ param ∈ params, (bindArguments (.fixed outer) args).apply (.symbol param) = .symbol param) →
      DefinesAlike env (bindArguments (.fixed outer) args) name params body) ∧
    (name ≠ lambdaName → DefinesAlike env (bindArguments (.fixed outer) args) name params body →
      ∀ param ∈ params,
        (bindArguments (.fixed outer) args).apply (.symbol param) = .symbol param) := by
  generalize hbinds : bindArguments (.fixed outer) args = σ
  have hsplice : σ.splice = [] := by
    rw [← hbinds]
    rfl
  have hunbound : ∀ {other}, other ∉ outer → other ∉ Assoc.names σ.bindings := by
    intro other hother hmem
    rw [← hbinds] at hmem
    have hparam : other ∈ (Params.fixed outer).names := bindArguments_names (Or.inl hmem)
    exact hother hparam
  have hdefined : "define" ∉ Assoc.names σ.bindings := hunbound hdefine
  refine ⟨?_, ?_⟩
  · intro hstands
    have hleaves : σ.Leaves params := ⟨hsplice, hstands⟩
    have htarget : σ.applyItems true ((name :: params).map Expr.symbol) =
        (name :: params).map Expr.symbol :=
      Substitution.Leaves.applyItems true ⟨hsplice, List.forall_mem_cons.mpr
        ⟨Substitution.apply_symbol_of_unbound (hunbound hname), hstands⟩⟩
    have hitems : Params.ofItems (params.map Expr.symbol) = .ok (.fixed params) :=
      Params.ofItems_eq_fixed_iff.mpr ⟨rfl, undotted⟩
    have hspec : Params.ofSpec (.sequence (params.map Expr.symbol)) = .ok (.fixed params) := hitems
    refine ⟨σ.apply body, ?_, ?_⟩
    · rw [functionDefinition, Substitution.apply_define hsplice hdefined, ← List.map_cons, htarget]
      exact step_define_function hitems free
    · rw [Substitution.apply_literalClosure hsplice, Substitution.apply_hide σ body params hleaves
        unmarked]
      exact expand_closure (lambda_of_ofSpec hspec [σ.apply body]) env
  · rintro hlambda ⟨filled, hstep, -⟩
    rw [functionDefinition, Substitution.apply_define hsplice hdefined,
      Substitution.applyItems_target hsplice (hunbound hname) hlambda] at hstep
    obtain ⟨heq, -⟩ := Params.ofItems_eq_fixed_iff.mp (ofItems_of_step_define hstep free)
    exact List.map_inj_left.mp heq

/-- `(define (g y) (not x y))` in a function of `x`. -/
theorem functionDefinition_iff_not :
    DefinesAlike .fresh (bindArguments (.fixed ["x"]) [.boolean true]) "g" ["y"]
      (.sequence [.symbol "not", .symbol "x", .symbol "y"]) := by
  have hunmarked : (Expr.sequence [.symbol "not", .symbol "x", .symbol "y"]).Unmarked := by
    refine .sequence fun x hx => ?_
    simp only [List.mem_cons, List.not_mem_nil, or_false] at hx
    rcases hx with rfl | rfl | rfl <;> exact .leaf nofun nofun nofun nofun
  have hname : "g" ∉ ["x"] := by decide
  refine (functionDefinition_iff [.boolean true] hname (by decide) (by decide) hunmarked rfl).1 ?_
  intro param hparam
  rw [List.mem_singleton.mp hparam]
  rfl

/-- `(define (g x) x)` in a function of `x` that is given `#t` asks for a parameter `#t` and fails,
where the literal closure keeps its parameter. -/
theorem functionDefinition_replaced :
    (step .standard ((bindArguments (.fixed ["x"]) [.boolean true]).apply
        (functionDefinition "g" ["x"] (.symbol "x")))).exec .fresh =
      (.error (.paramNotSymbol (.boolean true)), .fresh) ∧
    (expand .standard ((bindArguments (.fixed ["x"]) [.boolean true]).apply
        (literalClosure ["x"] (.symbol "x")))).exec .fresh =
      (.ok (.silent (.closure (.fixed ["x"]) (.symbol "x") Expr.anonymous)), .fresh) :=
  ⟨rfl, rfl⟩

end Redex
