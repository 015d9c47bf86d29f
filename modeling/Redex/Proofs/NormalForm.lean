import Redex.Proofs.Unbound
import Redex.Proofs.Program
import Redex.Proofs.Rewriting.OneStep

/-!
# Normal forms

The expressions that a step leaves alone, by their shape. What makes an expression stuck is spread
over both passes and over the rules of `if` and `apply`; here it is one definition.

* **`Normal`** lists the normal forms.
* **`Normal.inert`** — neither pass does anything with a normal form, unless the first fails on it.
* **`Normal.of_still`** — what a step leaves alone is normal: of the special forms only an `if` or
  an `apply` that waits does not step.
* **`step_still_iff_normal`** — where a step does not fail, it leaves exactly the normal forms alone.
-/

namespace Redex

variable {env env' : Environment} {e e' : Expr} {items : List Expr} {name : String}

/-- The normal forms, by their shape. A symbol that names a procedure counts as callable, as the
procedure does. -/
inductive Normal (env : Environment) : Expr → Prop where
  | value {e : Expr} (noSymbol : ∀ name, e ≠ .symbol name)
      (noSequence : ∀ items, e ≠ .sequence items) : Normal env e
  | symbol {name : String} (callable : ∀ value, env.get? name = some value → value.isFunction = true) :
      Normal env (.symbol name)
  | empty : Normal env (.sequence [])
  -- An `if` whose test waits for a substitution.
  | waiting {test : Expr} {branches : List Expr} {name : String} (mentioned : Mentions name test)
      (unbound : isBound env .standard name = false) :
      Normal env (.sequence (.symbol "if" :: test :: branches))
  -- An `apply` without an argument list.
  | unfinished {args : List Expr} (few : args.length < 2) :
      Normal env (.sequence (.symbol "apply" :: args))
  -- An `apply` of something that is no procedure.
  | uncallable {function : Expr} {args : List Expr} (normal : Normal env function)
      (plain : (env.named function).isFunction = false) :
      Normal env (.sequence (.symbol "apply" :: function :: args))
  -- An `apply` to something that is no argument list.
  | unspread {function last : Expr} {lead : List Expr} (normal : Normal env function)
      (callable : (env.named function).isFunction = true) (normalLast : Normal env last)
      (leaf : ∀ items, last ≠ .sequence items) :
      Normal env (.sequence (.symbol "apply" :: function :: (lead ++ [last])))
  -- A sequence without a procedure in front, apart from the results of definitions.
  | items {items : List Expr} (plain : MacroTable.standard.isMacroCall items = false)
      (normal : ∀ x ∈ items, Normal env x)
      (head : ∀ x, items.find? (fun x => !x.isUndefined) = some x →
        (env.named x).isFunction = false) : Normal env (.sequence items)

/-! ## Normal forms do not step -/

/-- The passes find nothing to do in an expression, or the first of them fails on it. -/
structure Inert (env : Environment) (e : Expr) : Prop where
  expand : (expand .standard e).exec env = (.ok .unchanged, env) ∨
    ∃ err, (Redex.expand .standard e).exec env = (.error err, env)
  reduce : Reduced env e

theorem Inert.step (h : Inert env e) :
    (step .standard e).exec env = (.ok ⟨false, env.named e⟩, env) ∨
      ∃ err, (Redex.step .standard e).exec env = (.error err, env) := by
  rcases h.expand with hexpand | ⟨err, hexpand⟩
  · rw [step_of_unchanged hexpand, h.reduce.reduce_eq]
    exact Or.inl rfl
  · exact Or.inr ⟨err, step_of_failed hexpand⟩

theorem Reduced.special (special : MacroTable.standard.isMacroCall items = true) :
    Reduced env (.sequence items) :=
  ⟨_, reduce_special special⟩

/-- The first of the items that are left when the results of definitions have gone. -/
theorem rebuild_named (env : Environment) (items : List Expr) :
    rebuild (items.map env.named) = (rebuild items).map env.named := by
  have hundefined : ∀ x, (env.named x).isUndefined = x.isUndefined := by
    intro x
    rcases env.named_cases x with h | ⟨name, f, rfl, -, hf, h⟩
    · rw [h]
    · rw [h]
      cases f with
      | undefined => cases hf
      | _ => rfl
  unfold rebuild
  rw [List.filter_map]
  congr 1
  refine List.filter_congr ?_
  intro x _
  simp only [Function.comp_apply, hundefined]

theorem head_uncallable_iff (env : Environment) (items : List Expr) :
    (∀ f args, rebuild (items.map env.named) = f :: args → f.isFunction = false) ↔
      ∀ x, items.find? (fun x => !x.isUndefined) = some x → (env.named x).isFunction = false := by
  have hhead : items.find? (fun x => !x.isUndefined) = (rebuild items).head? :=
    List.head?_filter.symm
  rw [rebuild_named, hhead]
  cases rebuild items with
  | nil => simp
  | cons x xs => simp

theorem reduceItems_of_reduced (h : ∀ x ∈ items, Reduced env x) :
    reduceItems .standard env items = .ok (false, items.map env.named) := by
  induction items with
  | nil => rfl
  | cons x xs ih =>
    have hx := (h x List.mem_cons_self).reduce_eq
    have hxs := ih fun y hy => h y (List.mem_cons_of_mem x hy)
    rw [reduceItems, hx]
    simp only [bind, Except.bind, hxs]
    rfl

/-- The second pass does not step a sequence whose items it does not step, if there is no procedure
to apply. -/
theorem Reduced.sequence (plain : MacroTable.standard.isMacroCall items = false)
    (h : ∀ x ∈ items, Reduced env x)
    (head : ∀ f args, rebuild (items.map env.named) = f :: args → f.isFunction = false) :
    Reduced env (.sequence items) := by
  refine ⟨.sequence items, ?_⟩
  rw [reduce_items plain, reduceItems_of_reduced h]
  simp only
  cases hcall : rebuild (items.map env.named) with
  | nil => rfl
  | cons f args => exact if_neg (by simp [head f args hcall])

theorem expandItems_inert
    (h : ∀ x ∈ items, (expand .standard x).exec env = (.ok .unchanged, env) ∨
      ∃ err, (expand .standard x).exec env = (.error err, env)) :
    (expandItems .standard items).exec env = (.ok .unchanged, env) ∨
      ∃ err, (expandItems .standard items).exec env = (.error err, env) := by
  induction items with
  | nil =>
    rw [expandItems]
    exact Or.inl rfl
  | cons x xs ih =>
    rcases h x List.mem_cons_self with hx | ⟨err, hx⟩
    · rw [expandItems_cons hx rfl]
      rcases ih fun y hy => h y (List.mem_cons_of_mem x hy) with hxs | ⟨err, hxs⟩
      · rw [Stepping.exec_bind_of_ok hxs]
        exact Or.inl rfl
      · exact Or.inr ⟨err, Stepping.exec_bind_of_error hxs _⟩
    · rw [expandItems, consPass]
      exact Or.inr ⟨err, Stepping.exec_bind_of_error hx _⟩

theorem Inert.sequence (plain : MacroTable.standard.isMacroCall items = false)
    (h : ∀ x ∈ items, Inert env x)
    (head : ∀ x, items.find? (fun x => !x.isUndefined) = some x →
      (env.named x).isFunction = false) : Inert env (.sequence items) := by
  refine ⟨?_, .sequence plain (fun x hx => (h x hx).reduce) ((head_uncallable_iff env items).mpr head)⟩
  rw [expand_items plain]
  rcases expandItems_inert fun x hx => (h x hx).expand with hitems | ⟨err, hitems⟩
  · rw [Stepping.exec_bind_of_ok hitems]
    exact Or.inl rfl
  · exact Or.inr ⟨err, Stepping.exec_bind_of_error hitems _⟩

/-- What mentions a name is not false. -/
theorem Mentions.isFalse (h : Mentions name e) : e.isFalse = false := by
  induction h with
  | item plain mem mentioned ih => simpa [Expr.isFalse] using List.ne_nil_of_mem mem
  | answered mentioned ih => exact ih
  | _ => rfl

/-- A test that mentions an unbound symbol is undecided, and the `if` around it waits. -/
theorem Inert.waiting {test : Expr} {branches : List Expr} (mentioned : Mentions name test)
    (unbound : isBound env .standard name = false) :
    Inert env (.sequence (.symbol "if" :: test :: branches)) := by
  refine ⟨?_, .special rfl⟩
  cases branches with
  | nil => exact Or.inr ⟨.ifParts, SpecialForm.expand_malformed rfl rfl⟩
  | cons thenBranch rest =>
    have notTrue : test ≠ .boolean true := by
      rintro rfl
      cases mentioned
    have hfound : mentionsUnbound env .standard [] test = true :=
      (mentionsUnbound_iff env .standard [] test).mpr ⟨name, List.not_mem_nil, unbound, mentioned⟩
    refine Or.inl (SpecialForm.expand_deferred rfl ?_)
    simp only [SpecialForm.run]
    rw [SpecialForm.conditional_undecided mentioned.isFalse notTrue, hfound]
    rfl

/-- An `apply` waits for more arguments. -/
theorem Inert.unfinished {args : List Expr} (few : args.length < 2) :
    Inert env (.sequence (.symbol "apply" :: args)) := by
  refine ⟨Or.inl ?_, .special rfl⟩
  match args, few with
  | [], _ => exact SpecialForm.expand_deferred rfl rfl
  | [_], _ => exact SpecialForm.expand_deferred rfl rfl

/-- An `apply` waits for a procedure. -/
theorem Inert.uncallable {function : Expr} {args : List Expr} (h : Inert env function)
    (plain : (env.named function).isFunction = false) :
    Inert env (.sequence (.symbol "apply" :: function :: args)) := by
  rcases args.eq_nil_or_concat with rfl | ⟨lead, last, rfl⟩
  · exact .unfinished (by simp)
  · rw [List.concat_eq_append]
    refine ⟨?_, .special rfl⟩
    rcases h.step with hstep | ⟨err, hstep⟩
    · rw [← stepFirst_cons .standard function (lead ++ [last])] at hstep
      exact Or.inl (SpecialForm.expand_deferred rfl (SpecialForm.spread_deferred hstep plain))
    · rw [← stepFirst_cons .standard function (lead ++ [last])] at hstep
      exact Or.inr ⟨err, SpecialForm.expand_failed rfl (SpecialForm.spread_failed hstep)⟩

/-- An `apply` waits for a list of arguments. -/
theorem Inert.unspread {function last : Expr} {lead : List Expr} (h : Inert env function)
    (callable : (env.named function).isFunction = true) (hlast : Inert env last)
    (leaf : ∀ items, last ≠ .sequence items) :
    Inert env (.sequence (.symbol "apply" :: function :: (lead ++ [last]))) := by
  refine ⟨?_, .special rfl⟩
  rcases h.step with hstep | ⟨err, hstep⟩
  · rw [← stepFirst_cons .standard function (lead ++ [last])] at hstep
    rcases hlast.step with hfinal | ⟨err, hfinal⟩
    · rw [← stepLast_concat .standard (function :: lead) last] at hfinal
      -- a procedure that the last argument names is no list either
      have hnamed : ∀ items, env.named last ≠ .sequence items := by
        intro items
        rcases env.named_cases last with hsame | ⟨_, f, -, -, hf, hsame⟩
        · rw [hsame]
          exact leaf items
        · rw [hsame]
          exact ne_sequence_of_isFunction hf items
      exact Or.inl (SpecialForm.expand_deferred rfl
        (SpecialForm.spread_deferred_last hstep callable hfinal hnamed))
    · rw [← stepLast_concat .standard (function :: lead) last] at hfinal
      exact Or.inr ⟨err, SpecialForm.expand_failed rfl
        (SpecialForm.spread_failed_last hstep callable hfinal)⟩
  · rw [← stepFirst_cons .standard function (lead ++ [last])] at hstep
    exact Or.inr ⟨err, SpecialForm.expand_failed rfl (SpecialForm.spread_failed hstep)⟩

theorem Normal.inert (h : Normal env e) : Inert env e := by
  induction h with
  | value noSymbol noSequence =>
    exact ⟨Or.inl (expand_leaf noSequence env), ⟨_, reduce_leaf noSymbol noSequence⟩⟩
  | @symbol name callable =>
    refine ⟨Or.inl (expand_leaf (fun _ => Expr.noConfusion) env), ?_⟩
    cases hget : env.get? name with
    | none => exact ⟨.symbol name, by simp [reduce, hget]⟩
    | some value => exact ⟨value, by simp [reduce, hget, callable value hget]⟩
  | empty => exact .sequence rfl (List.forall_mem_nil _) (fun _ h => by cases h)
  | waiting mentioned unbound => exact .waiting mentioned unbound
  | unfinished few => exact .unfinished few
  | uncallable normal plain ih => exact ih.uncallable plain
  | unspread normal callable normalLast leaf ih ihLast => exact ih.unspread callable ihLast leaf
  | items plain normal head ih => exact .sequence plain ih head

/-! ## What does not step is normal

A special form that the first pass leaves alone has deferred, and only `if` and `apply` do so. -/

section Deferred

open SpecialForm

variable {head : Expr} {rule : MacroRule} {args : List Expr}

theorem deferred_of_expand (hrule : MacroTable.standard.rule? head = some rule)
    (h : (expand .standard (.sequence (head :: args))).exec env = (.ok .unchanged, env')) :
    (run .standard rule head args (stepFirst .standard args) (stepLast .standard args)).exec env =
      (.ok .deferred, env') := by
  rw [expand_special hrule, Stepping.exec_bind] at h
  split at h
  · rename_i answer env₁ hrun
    rw [hrun]
    cases answer with
    | becomes e =>
      -- a form that becomes something is changed, silently or not
      cases hlambda : head.isSymbol lambdaName <;> simp [conclude, hlambda] at h
    | deferred =>
      cases h
      rfl
    | failed err => cases h
  · cases h

theorem define_ne_deferred : (SpecialForm.define args).exec env ≠ (.ok .deferred, env') := by
  intro h
  cases hparts : definition args with
  | error err =>
    rw [define_exec_malformed hparts] at h
    cases h
  | ok bound =>
    cases hfrozen : env.user.frozen with
    | true =>
      rw [define_exec_frozen hparts hfrozen] at h
      cases h
    | false =>
      rw [define_exec hparts hfrozen] at h
      cases h

theorem defineStruct_ne_deferred :
    (SpecialForm.defineStruct args).exec env ≠ (.ok .deferred, env') := by
  intro h
  cases hparts : structDefinition args with
  | error err =>
    rw [defineStruct_exec_malformed hparts] at h
    cases h
  | ok bound =>
    cases hfrozen : env.user.frozen with
    | true =>
      obtain ⟨err, hrun⟩ := defineStruct_exec_frozen hparts hfrozen
      rw [hrun] at h
      cases h
    | false =>
      rw [defineStruct_exec hparts hfrozen] at h
      cases h

theorem lambda_ne_deferred : SpecialForm.lambda args ≠ .deferred := by
  intro h
  cases args with
  | nil => cases h
  | cons spec rest =>
    cases hspec : Params.ofSpec spec with
    | error err =>
      simp only [SpecialForm.lambda, hspec] at h
      cases h
    | ok params =>
      simp only [SpecialForm.lambda, hspec] at h
      cases h

/-- An `apply` defers while its function or its last argument is none, or is not there. -/
theorem spread_deferred_cases
    (h : (spread head args (stepFirst .standard args) (stepLast .standard args)).exec env =
      (.ok .deferred, env')) :
    args.length < 2 ∨ ∃ function lead last, args = function :: (lead ++ [last]) ∧
      ∃ f, (step .standard function).exec env = (.ok ⟨false, f⟩, env) ∧
        (f.isFunction = false ∨ f.isFunction = true ∧
          ∃ e, (step .standard last).exec env = (.ok ⟨false, e⟩, env) ∧
            ∀ items, e ≠ .sequence items) := by
  match args, h with
  | [], _ => exact Or.inl (by simp)
  | [_], _ => exact Or.inl (by simp)
  | function :: arg :: more, h =>
    obtain ⟨lead, last, hargs⟩ : ∃ lead last, arg :: more = lead ++ [last] :=
      ⟨_, _, (List.dropLast_concat_getLast (List.cons_ne_nil arg more)).symm⟩
    rw [hargs] at h ⊢
    refine Or.inr ⟨function, lead, last, rfl, ?_⟩
    have hfunction := step_framed function env
    rw [stepFirst_cons, ← List.cons_append, stepLast_concat, List.cons_append] at h
    cases hstep : (step .standard function).exec env with
    | mk result env₁ =>
      rw [hstep] at hfunction
      cases hfunction with
      | failed err =>
        rw [spread_failed hstep] at h
        cases h
      | moved f env₁ =>
        rw [spread_moved hstep] at h
        cases h
      | still f =>
        refine ⟨f, rfl, ?_⟩
        cases hcallable : f.isFunction with
        | false => exact Or.inl rfl
        | true =>
          refine Or.inr ⟨rfl, ?_⟩
          have hlast := step_framed last env
          rw [spread_still hstep hcallable] at h
          cases hfinal : (step .standard last).exec env with
          | mk result env₁ =>
            rw [hfinal] at hlast h
            cases hlast with
            | failed err => cases h
            | moved e env₁ => cases h
            | still e =>
              refine ⟨e, rfl, ?_⟩
              rintro items rfl
              cases h

end Deferred

/-- Of the special forms only an `if` or an `apply` that waits does not step. -/
theorem Normal.of_special {head : Expr} {args : List Expr}
    (special : MacroTable.standard.isMacroCall (head :: args) = true)
    (ih : ∀ a ∈ args, ∀ a', (step .standard a).exec env = (.ok ⟨false, a'⟩, env) → Normal env a)
    (h : (expand .standard (.sequence (head :: args))).exec env = (.ok .unchanged, env)) :
    Normal env (.sequence (head :: args)) := by
  obtain ⟨rule, hrule⟩ := Option.isSome_iff_exists.mp special
  have hrun := deferred_of_expand hrule h
  rcases MacroTable.rule?_standard hrule with
    ⟨rfl, rfl⟩ | ⟨rfl, rfl⟩ | ⟨rfl, rfl⟩ | ⟨rfl, rfl⟩ | ⟨rfl, rfl⟩ | ⟨rfl, rfl⟩
  · exact absurd hrun define_ne_deferred
  · have hlambda : (Except.ok (SpecialForm.lambda args), env) = (Except.ok .deferred, env) := hrun
    cases hanswer : SpecialForm.lambda args with
    | deferred => exact absurd hanswer lambda_ne_deferred
    | _ =>
      rw [hanswer] at hlambda
      cases hlambda
  · obtain ⟨test, branches, rfl, hunbound⟩ := SpecialForm.conditional_deferred hrun
    obtain ⟨name, -, hname, hmentions⟩ := (mentionsUnbound_iff env .standard [] test).mp hunbound
    exact .waiting hmentions hname
  · rcases spread_deferred_cases hrun with
      hfew | ⟨function, lead, last, rfl, f, hfunction, hcases⟩
    · exact .unfinished hfew
    have hnormal : Normal env function := ih function (by simp) f hfunction
    obtain ⟨-, -, rfl, -⟩ := step_still hfunction
    rcases hcases with hplain | ⟨hcallable, e, hlast, hleaf⟩
    · exact .uncallable hnormal hplain
    · have hnormalLast : Normal env last := ih last (by simp) e hlast
      obtain ⟨-, -, rfl, -⟩ := step_still hlast
      refine .unspread hnormal hcallable hnormalLast ?_
      rintro items rfl
      exact hleaf items rfl
  · cases hrun
  · exact absurd hrun defineStruct_ne_deferred

theorem Normal.of_still (e : Expr) {e' : Expr} {env' : Environment}
    (h : (step .standard e).exec env = (.ok ⟨false, e'⟩, env')) : Normal env e := by
  induction e using Expr.sequence_induction generalizing e' env' with
  | leaf e hleaf =>
    cases e with
    | symbol name =>
      obtain ⟨-, hreduced, -, -⟩ := step_still h
      refine .symbol ?_
      intro value hget
      -- a value that is no procedure would have been looked up
      have hreduce := hreduced.reduce_eq
      rw [reduce, hget] at hreduce
      simp only [Except.ok.injEq, Step.mk.injEq, Bool.not_eq_false'] at hreduce
      exact hreduce.1
    | sequence items => exact absurd rfl (hleaf items)
    | _ => exact .value (fun _ => Expr.noConfusion) (fun _ => Expr.noConfusion)
  | sequence items ih =>
    obtain ⟨hexpand, hreduced, -, -⟩ := step_still h
    cases plain : MacroTable.standard.isMacroCall items with
    | true =>
      cases items with
      | nil => cases plain
      | cons head args =>
        exact .of_special plain (fun a ha _ hstep => ih a (List.mem_cons_of_mem head ha) hstep)
          hexpand
    | false =>
      have hunchanged := (Prepared.of_unchanged plain hexpand).mem_still rfl
      obtain ⟨hitems, hhead⟩ := hreduced.of_sequence plain
      refine .items plain ?_ ((head_uncallable_iff env items).mp hhead)
      intro x hx
      have hstep : (step .standard x).exec env = (.ok ⟨false, env.named x⟩, env) := by
        rw [step_of_unchanged (hunchanged x hx), (hitems x hx).reduce_eq]
      exact ih x hx hstep

/-! ## The characterisation -/

/-- What stands in a normal form at a position that the passes reach is normal. -/
theorem Normal.stands {r : Expr} (h : Normal env e) (hr : Stands r e) : Normal env r := by
  obtain ⟨C, rfl, hopen⟩ := hr
  induction C with
  | hole => exact h
  | item before inner after ih =>
    obtain ⟨plain, hinner⟩ := hopen
    refine ih hinner ?_
    simp only [Context.fill] at h
    -- no special form is on the way
    generalize hitems : before ++ inner.fill r :: after = items at h plain
    cases h with
    | items _ normal head =>
      subst hitems
      exact normal _ (by simp)
    | value noSymbol noSequence => exact absurd rfl (noSequence items)
    | empty => simp at hitems
    | _ => cases plain

/-- Definitions, lists and unexpanded closures never wait. -/
theorem Normal.head_mem {args : List Expr} (h : Normal env (.sequence (.symbol name :: args)))
    (special : MacroTable.standard.isMacroCall (.symbol name :: args) = true) :
    name = "if" ∨ name = "apply" := by
  cases h with
  | value noSymbol noSequence => exact absurd rfl (noSequence _)
  | waiting => exact Or.inl rfl
  | unfinished => exact Or.inr rfl
  | uncallable => exact Or.inr rfl
  | unspread => exact Or.inr rfl
  | items plain normal head =>
    rw [special] at plain
    cases plain

/-- Where a step does not fail, it leaves exactly the normal forms alone. So no definition, list or
unexpanded closure is left at a position that the passes reach. -/
theorem step_still_iff_normal (e : Expr) (env : Environment) {s : Step} {env' : Environment}
    (h : (step .standard e).exec env = (.ok s, env')) :
    (s.stepped = false ↔ Normal env e) ∧
      (s.stepped = false → ∀ name args, Stands (.sequence (.symbol name :: args)) e →
        name ∉ ["define", "define-struct", "list", "lambda"]) := by
  have hiff : s.stepped = false ↔ Normal env e := by
    obtain ⟨stepped, e'⟩ := s
    constructor
    · rintro rfl
      exact .of_still e h
    · intro hnormal
      rcases hnormal.inert.step with hstep | ⟨err, hstep⟩
      · rw [hstep] at h
        cases h
        rfl
      · rw [hstep] at h
        cases h
  refine ⟨hiff, ?_⟩
  intro hstill name args hstands hname
  have hnormal := (hiff.mp hstill).stands hstands
  have hspecial : MacroTable.standard.isMacroCall (.symbol name :: args) = true := by
    simp only [List.mem_cons, List.not_mem_nil, or_false] at hname
    rcases hname with rfl | rfl | rfl | rfl <;> rfl
  rcases hnormal.head_mem hspecial with rfl | rfl
  · simp at hname
  · simp at hname

/-- `(p (if (lambda (x) (x y)) #t) (apply p q))` waits for `y` and for a procedure `p`, and
`(p (if (lambda (x) (not x)) #t))` waits for nothing. -/
theorem step_still_iff_normal_waiting :
    Normal .fresh (.sequence [.symbol "p", .sequence [.symbol "if",
        .sequence [.symbol "lambda", .sequence [.symbol "x"],
          .sequence [.symbol "x", .symbol "y"]], .boolean true],
        .sequence [.symbol "apply", .symbol "p", .symbol "q"]]) ∧
      ¬ Normal .fresh (.sequence [.symbol "p", .sequence [.symbol "if",
        .sequence [.symbol "lambda", .sequence [.symbol "x"],
          .sequence [.symbol "not", .symbol "x"]], .boolean true]]) := by
  constructor
  · exact (step_still_iff_normal _ .fresh rfl).1.mp rfl
  · intro hnormal
    have hstill := (step_still_iff_normal _ .fresh rfl).1.mpr hnormal
    cases hstill

end Redex
