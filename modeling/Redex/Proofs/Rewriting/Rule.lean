import Redex.Proofs.SpecialForms
import Redex.Proofs.Rewriting.Silent

/-!
# The visible rules

What counts as a step, as a relation that is read without the passes that search for it.

* **`Rule`** lists the visible rules: a special form other than `lambda` rewrites its call, a symbol
  becomes its value, or a procedure is applied.
* **`Quiet`** says that a pass finds nothing to rewrite in a tree, at any position that it reaches.
* **`OneRewrite`** is a step: silent rewrites that built a closure, or silent rewrites and then one
  visible rule at the first position of its pass.
* **`Rule.expand_eq`** and **`expand_special_cases`** say that the first pass on a special form does
  what the rules say and nothing else.
-/

namespace Redex

/-! ## Rules -/

/-- The two passes of a step. -/
inductive Pass where
  -- Expands special forms.
  | expansion
  -- Looks symbols up and applies procedures.
  | reduction

/-- A definition form, with the names that it binds and their values. -/
inductive Defines : Expr → List (String × Expr) → Prop where
  | define {args : List Expr} {name : String} {value : Expr}
      (parts : SpecialForm.definition args = .ok (name, value)) :
      Defines (.sequence (.symbol "define" :: args)) [(name, value)]
  | defineStruct {args : List Expr} {tag : String} {fields : List String}
      (parts : SpecialForm.structDefinition args = .ok (tag, fields)) :
      Defines (.sequence (.symbol "define-struct" :: args)) (structProcedures tag fields)

/-- The visible rules. `Done` is what an application asks of its items, and `Part` what is known of
the steps that `if` and `apply` make of their parts. -/
inductive Rule (Done : Environment → Expr → Prop)
    (Part : Environment → Expr → Expr → Environment → Prop) :
    Pass → Environment → Expr → Expr → Environment → Prop where
  | definition {env : Environment} {form : Expr} {pairs : List (String × Expr)}
      (binds : Defines form pairs) (free : env.user.frozen = false) :
      Rule Done Part .expansion env form .undefined (env.bindAll pairs)
  | list {env : Environment} {args : List Expr} :
      Rule Done Part .expansion env (.sequence (.symbol "list" :: args)) (.sequence args) env
  | ifFalse {env : Environment} {test thenBranch : Expr} {rest : List Expr}
      (decided : test.isFalse = true) :
      Rule Done Part .expansion env (.sequence (.symbol "if" :: test :: thenBranch :: rest))
        (rest.head?.getD (.boolean false)) env
  | ifTrue {env : Environment} {thenBranch : Expr} {rest : List Expr} :
      Rule Done Part .expansion env
        (.sequence (.symbol "if" :: .boolean true :: thenBranch :: rest)) thenBranch env
  | ifTest {env env' : Environment} {test test' thenBranch : Expr} {rest : List Expr}
      (undecided : test.isFalse = false) (notTrue : test ≠ .boolean true)
      (bound : mentionsUnbound env .standard [] test = false)
      (moved : (step .standard test).exec env = (.ok ⟨true, test'⟩, env'))
      (part : Part env test test' env') :
      Rule Done Part .expansion env (.sequence (.symbol "if" :: test :: thenBranch :: rest))
        (.sequence (.symbol "if" :: test' :: thenBranch :: rest)) env'
  | ifSettled {env : Environment} {test test' thenBranch : Expr} {rest : List Expr}
      (undecided : test.isFalse = false) (notTrue : test ≠ .boolean true)
      (bound : mentionsUnbound env .standard [] test = false)
      (still : (step .standard test).exec env = (.ok ⟨false, test'⟩, env)) :
      Rule Done Part .expansion env (.sequence (.symbol "if" :: test :: thenBranch :: rest))
        thenBranch env
  | applyFunction {env env' : Environment} {function function' last : Expr} {lead : List Expr}
      (moved : (step .standard function).exec env = (.ok ⟨true, function'⟩, env'))
      (part : Part env function function' env') :
      Rule Done Part .expansion env
        (.sequence (.symbol "apply" :: function :: (lead ++ [last])))
        (.sequence (.symbol "apply" :: function' :: (lead ++ [last]))) env'
  | applyLast {env env' : Environment} {function f last last' : Expr} {lead : List Expr}
      (still : (step .standard function).exec env = (.ok ⟨false, f⟩, env))
      (callable : f.isFunction = true)
      (moved : (step .standard last).exec env = (.ok ⟨true, last'⟩, env'))
      (part : Part env last last' env') :
      Rule Done Part .expansion env
        (.sequence (.symbol "apply" :: function :: (lead ++ [last])))
        (.sequence (.symbol "apply" :: f :: (lead ++ [last']))) env'
  | applyCall {env : Environment} {function f last : Expr} {lead items : List Expr}
      (still : (step .standard function).exec env = (.ok ⟨false, f⟩, env))
      (callable : f.isFunction = true)
      (spread : (step .standard last).exec env = (.ok ⟨false, .sequence items⟩, env)) :
      Rule Done Part .expansion env
        (.sequence (.symbol "apply" :: function :: (lead ++ [last])))
        (.sequence (f :: (lead ++ items))) env
  | lookup {env : Environment} {name : String} {value : Expr} (bound : env.get? name = some value)
      (plain : value.isFunction = false) :
      Rule Done Part .reduction env (.symbol name) value env
  | application {env : Environment} {f r : Expr} {args : List Expr} (callable : f.isFunction = true)
      (done : ∀ a ∈ f :: args, Done env a) (result : Redex.applyCall f args = .ok r) :
      Rule Done Part .reduction env (.sequence (f :: args)) r env

/-! ## Where a pass can rewrite -/

/-- The pass can rewrite the whole of an expression. An application need not have looked up the
procedure that its first item names, nor dropped the results of definitions. -/
def Fires : Pass → Environment → Expr → Prop
  | .expansion, env, r =>
    ∃ r' env', Rule (fun _ _ => True) (fun _ _ _ _ => True) .expansion env r r' env'
  | .reduction, env, r =>
    (∃ name value, r = .symbol name ∧ env.get? name = some value ∧ value.isFunction = false) ∨
      ∃ items f args, r = .sequence items ∧ MacroTable.standard.isMacroCall items = false ∧
        rebuild (items.map env.named) = f :: args ∧ f.isFunction = true

/-- The pass can rewrite nothing in a tree. -/
def Quiet (pass : Pass) (env : Environment) (e : Expr) : Prop :=
  ∀ r, Stands r e → ¬ Fires pass env r

/-- The pass can rewrite nothing before the hole of a tree, from the left and from the inside: not
to the left of the way to it, and not in the items of what stands there. The first pass is judged by
the tree as it was, the second by the tree that the silent rewrites made, and only if the first
could rewrite nothing. -/
def First (e : Expr) (C : Context) (r : Expr) (env : Environment) : Pass → Prop
  | .expansion =>
    ∃ D : Context, e = D.fill r ∧ D.Open r ∧ D.path = C.path ∧ ∀ a ∈ D.left, Quiet .expansion env a
  | .reduction =>
    Quiet .expansion env e ∧ (∀ a ∈ C.left, Quiet .reduction env a) ∧
      ∀ items, r = .sequence items → ∀ a ∈ items, Quiet .reduction env a

/-- A step as one visible rewrite. Either closures are built and nothing else, or the tree is
silently rewritten, one visible rule is applied at the first position where its pass can rewrite,
and the results of definitions leave the sequences around it. -/
inductive OneRewrite (Done : Environment → Expr → Prop) :
    Environment → Expr → Expr → Environment → Prop where
  | expanded {env : Environment} {e e₁ : Expr} (silent : Silent env true e e₁) :
      OneRewrite Done env e e₁ env
  | rewritten {pass : Pass} {env env' : Environment} {e r r' : Expr} {C : Context} {built : Bool}
      (silent : Silent env built e (C.fill r)) (way : C.Open r)
      (rule : Rule Done (OneRewrite Done) pass env r r' env') (first : First e C r env pass) :
      OneRewrite Done env e (C.rebuilt r') env'

/-- Induction over a step: a rule may be used with what is known of the steps of its parts. -/
theorem OneRewrite.induct {Done : Environment → Expr → Prop}
    {motive : Environment → Expr → Expr → Environment → Prop}
    (expanded : ∀ {env e e₁}, Silent env true e e₁ → motive env e e₁ env)
    (rewritten : ∀ {pass env env' e r r' C built}, Silent env built e (C.fill r) → C.Open r →
      Rule Done motive pass env r r' env' → First e C r env pass →
      motive env e (C.rebuilt r') env')
    {env env' : Environment} {e e' : Expr} (h : OneRewrite Done env e e' env') :
    motive env e e' env' := by
  -- the eliminator of the two relations at once: in a rule `Part` becomes the motive
  refine @OneRewrite.rec Done (fun env e e' env' _ => motive env e e' env')
    (fun pass env r r' env' _ => Rule Done motive pass env r r' env')
    expanded (fun silent way _ first ih => rewritten silent way ih first)
    .definition .list .ifFalse .ifTrue ?_ .ifSettled ?_ ?_ .applyCall .lookup .application
    _ _ _ _ h
  · intro _ _ _ _ _ _ undecided notTrue bound moved _ ih
    exact .ifTest undecided notTrue bound moved ih
  · intro _ _ _ _ _ _ moved _ ih
    exact .applyFunction moved ih
  · intro _ _ _ _ _ _ _ still callable moved _ ih
    exact .applyLast still callable moved ih

/-- The second pass cannot step an expression. -/
def Reduced (env : Environment) (e : Expr) : Prop :=
  ∃ e', reduce .standard env e = .ok ⟨false, e'⟩

/-- An expression cannot step. -/
def Settled (env : Environment) (e : Expr) : Prop :=
  ∃ e', (step .standard e).exec env = (.ok ⟨false, e'⟩, env)

/-! ## The first pass on a special form -/

variable {Done Done' : Environment → Expr → Prop}
variable {Part Part' : Environment → Expr → Expr → Environment → Prop}
variable {env env' : Environment} {r r' : Expr}

/-- A rule may be read with other words for its items and its parts, if these hold of them. Only the
second pass asks something of items, and only the first steps parts. -/
theorem Rule.imp {pass : Pass} (h : Rule Done Part pass env r r' env')
    (hdone : pass = .reduction → ∀ items, r = .sequence items → ∀ a ∈ items,
      Done env a → Done' env a)
    (hpart : pass = .expansion → ∀ items, r = .sequence items → ∀ a ∈ items, ∀ a' env₁,
      (step .standard a).exec env = (.ok ⟨true, a'⟩, env₁) → Part' env a a' env₁) :
    Rule Done' Part' pass env r r' env' := by
  cases h with
  | definition binds free => exact .definition binds free
  | list => exact .list
  | ifFalse decided => exact .ifFalse decided
  | ifTrue => exact .ifTrue
  | ifTest undecided notTrue bound moved part =>
    exact .ifTest undecided notTrue bound moved (hpart rfl _ rfl _ (by simp) _ _ moved)
  | ifSettled undecided notTrue bound still => exact .ifSettled undecided notTrue bound still
  | applyFunction moved part => exact .applyFunction moved (hpart rfl _ rfl _ (by simp) _ _ moved)
  | applyLast still callable moved part =>
    exact .applyLast still callable moved (hpart rfl _ rfl _ (by simp) _ _ moved)
  | applyCall still callable spread => exact .applyCall still callable spread
  | lookup bound plain => exact .lookup bound plain
  | application callable done result =>
    exact .application callable (fun a ha => hdone rfl _ rfl a ha (done a ha)) result

theorem Rule.isMacroCall {items : List Expr}
    (h : Rule Done Part .expansion env (.sequence items) r' env') :
    MacroTable.standard.isMacroCall items = true := by
  cases h with
  | definition binds free => cases binds <;> rfl
  | _ => rfl

theorem Rule.expand_eq (h : Rule Done Part .expansion env r r' env') :
    (expand .standard r).exec env = (.ok (.visible r'), env') := by
  cases h with
  | definition binds free =>
    cases binds with
    | define parts => exact SpecialForm.expand_becomes rfl (SpecialForm.define_exec parts free) rfl
    | defineStruct parts =>
      exact SpecialForm.expand_becomes rfl (SpecialForm.defineStruct_exec parts free) rfl
  | list => exact SpecialForm.expand_becomes rfl (Stepping.exec_pure _ _) rfl
  | ifFalse decided => exact SpecialForm.expand_becomes rfl (SpecialForm.conditional_false decided) rfl
  | ifTrue =>
    refine SpecialForm.expand_becomes rfl ?_ rfl
    simp only [SpecialForm.run]
    exact SpecialForm.conditional_true
  | ifTest undecided notTrue bound moved part =>
    refine SpecialForm.expand_becomes rfl ?_ rfl
    simp only [SpecialForm.run]
    rw [SpecialForm.conditional_undecided undecided notTrue, bound, stepFirst_cons, moved]
    rfl
  | ifSettled undecided notTrue bound still =>
    refine SpecialForm.expand_becomes rfl ?_ rfl
    simp only [SpecialForm.run]
    rw [SpecialForm.conditional_undecided undecided notTrue, bound, stepFirst_cons, still]
    rfl
  | applyFunction moved part =>
    rw [← stepFirst_cons] at moved
    exact SpecialForm.expand_becomes rfl (SpecialForm.spread_moved moved) rfl
  | @applyLast _ _ function f last last' lead still callable moved part =>
    refine SpecialForm.expand_becomes rfl ?_ rfl
    simp only [SpecialForm.run]
    rw [SpecialForm.spread_still (by rw [stepFirst_cons]; exact still) callable]
    rw [← List.cons_append, stepLast_concat, moved]
  | @applyCall _ function f last lead items still callable spread =>
    refine SpecialForm.expand_becomes rfl ?_ rfl
    simp only [SpecialForm.run]
    rw [SpecialForm.spread_still (by rw [stepFirst_cons]; exact still) callable]
    rw [← List.cons_append, stepLast_concat, spread]

/-- A definition is one step, which makes its bindings and leaves no value behind. -/
theorem Defines.step_eq {form : Expr} {pairs : List (String × Expr)} (h : Defines form pairs)
    (free : env.user.frozen = false) :
    (step .standard form).exec env = (.ok ⟨true, .undefined⟩, env.bindAll pairs) := by
  have hrule : Rule (fun _ _ => True) (fun _ _ _ _ => True) .expansion env form .undefined
      (env.bindAll pairs) := .definition h free
  exact step_of_visible hrule.expand_eq

/-- What may come of a step: only a step changes the environment. -/
inductive Framed (env : Environment) : Except Error Step × Environment → Prop where
  | failed (err : Error) : Framed env (.error err, env)
  | still (e : Expr) : Framed env (.ok ⟨false, e⟩, env)
  | moved (e : Expr) (env' : Environment) : Framed env (.ok ⟨true, e⟩, env')

/-- What may come of the first pass on a special form. -/
inductive Answers (env : Environment) (r : Expr) :
    Except Error (Change Expr) × Environment → Prop where
  | failed (err : Error) : Answers env r (.error err, env)
  | deferred : Answers env r (.ok .unchanged, env)
  | closure {e : Expr} (rule : SilentRule env true r e) : Answers env r (.ok (.silent e), env)
  | rewritten {r' : Expr} {env' : Environment}
      (rule : Rule (fun _ _ => True) (fun _ _ _ _ => True) .expansion env r r' env') :
      Answers env r (.ok (.visible r'), env')

/-- An answer that is a rule is what the first pass does. -/
theorem Rule.answers (h : Rule (fun _ _ => True) (fun _ _ _ _ => True) .expansion env r r' env') :
    Answers env r ((expand .standard r).exec env) := by
  rw [h.expand_eq]
  exact .rewritten h

section Special

variable {head : Expr} {rule : MacroRule} {args : List Expr}

theorem Answers.of_failed {err : Error} (hrule : MacroTable.standard.rule? head = some rule)
    (hrun : (SpecialForm.run .standard rule head args (stepFirst .standard args)
      (stepLast .standard args)).exec env = (.error err, env)) :
    Answers env (.sequence (head :: args))
      ((expand .standard (.sequence (head :: args))).exec env) := by
  rw [SpecialForm.expand_failed hrule hrun]
  exact .failed err

theorem Answers.of_malformed {err : Error} (hrule : MacroTable.standard.rule? head = some rule)
    (hrun : (SpecialForm.run .standard rule head args (stepFirst .standard args)
      (stepLast .standard args)).exec env = (.ok (.failed err), env)) :
    Answers env (.sequence (head :: args))
      ((expand .standard (.sequence (head :: args))).exec env) := by
  rw [SpecialForm.expand_malformed hrule hrun]
  exact .failed err

theorem Answers.of_deferred (hrule : MacroTable.standard.rule? head = some rule)
    (hrun : (SpecialForm.run .standard rule head args (stepFirst .standard args)
      (stepLast .standard args)).exec env = (.ok .deferred, env)) :
    Answers env (.sequence (head :: args))
      ((expand .standard (.sequence (head :: args))).exec env) := by
  rw [SpecialForm.expand_deferred hrule hrun]
  exact .deferred

end Special

theorem expand_define (args : List Expr) :
    Answers env (.sequence (.symbol "define" :: args))
      ((expand .standard (.sequence (.symbol "define" :: args))).exec env) := by
  cases hparts : SpecialForm.definition args with
  | error err => exact .of_malformed rfl (SpecialForm.define_exec_malformed hparts)
  | ok bound =>
    obtain ⟨name, value⟩ := bound
    cases hfrozen : env.user.frozen with
    | true => exact .of_failed rfl (SpecialForm.define_exec_frozen hparts hfrozen)
    | false => exact (Rule.definition (.define hparts) hfrozen).answers

theorem expand_defineStruct (args : List Expr) :
    Answers env (.sequence (.symbol "define-struct" :: args))
      ((expand .standard (.sequence (.symbol "define-struct" :: args))).exec env) := by
  cases hparts : SpecialForm.structDefinition args with
  | error err => exact .of_malformed rfl (SpecialForm.defineStruct_exec_malformed hparts)
  | ok bound =>
    obtain ⟨tag, fields⟩ := bound
    cases hfrozen : env.user.frozen with
    | true =>
      obtain ⟨err, hrun⟩ := SpecialForm.defineStruct_exec_frozen hparts hfrozen
      exact .of_failed rfl hrun
    | false => exact (Rule.definition (.defineStruct hparts) hfrozen).answers

theorem expand_lambda (args : List Expr) :
    Answers env (.sequence (.symbol "lambda" :: args))
      ((expand .standard (.sequence (.symbol "lambda" :: args))).exec env) := by
  have hrule : MacroTable.standard.rule? (.symbol "lambda") = some .lambda := rfl
  rw [expand_special hrule]
  -- the only form whose result counts as silent
  show Answers env _ ((SpecialForm.conclude _ (SpecialForm.lambda args)).exec env)
  cases hclosure : SpecialForm.lambda args with
  | becomes e => exact .closure (.closure hclosure)
  | deferred => exact .deferred
  | failed err => exact .failed err

/-- An `if` chooses a branch, steps its test, or waits. -/
theorem expand_if (args : List Expr)
    (parts : ∀ a ∈ args, Framed env ((step .standard a).exec env)) :
    Answers env (.sequence (.symbol "if" :: args))
      ((expand .standard (.sequence (.symbol "if" :: args))).exec env) := by
  match args, parts with
  | [], _ => exact .of_malformed rfl rfl
  | [_], _ => exact .of_malformed rfl rfl
  | test :: thenBranch :: rest, parts =>
    by_cases hfalse : test.isFalse = true
    · exact (Rule.ifFalse hfalse).answers
    by_cases htrue : test = .boolean true
    · subst htrue
      exact Rule.ifTrue.answers
    -- an undecided test, which waits if a symbol of it is unbound
    have undecided : test.isFalse = false := by simpa using hfalse
    cases hbound : mentionsUnbound env .standard [] test with
    | true =>
      refine .of_deferred rfl ?_
      simp only [SpecialForm.run]
      rw [SpecialForm.conditional_undecided undecided htrue, hbound]
      rfl
    | false =>
      have htest := parts test (by simp)
      cases hstep : (step .standard test).exec env with
      | mk result env' =>
        rw [hstep] at htest
        cases htest with
        | failed err =>
          refine .of_failed rfl (?_ : _ = (Except.error err, env))
          simp only [SpecialForm.run]
          rw [SpecialForm.conditional_undecided undecided htrue, hbound, stepFirst_cons, hstep]
          rfl
        | still e => exact (Rule.ifSettled undecided htrue hbound hstep).answers
        | moved e env' => exact (Rule.ifTest undecided htrue hbound hstep trivial).answers

/-- An `apply` steps its function or its last argument, becomes the plain call, or waits. -/
theorem expand_apply (args : List Expr)
    (parts : ∀ a ∈ args, Framed env ((step .standard a).exec env)) :
    Answers env (.sequence (.symbol "apply" :: args))
      ((expand .standard (.sequence (.symbol "apply" :: args))).exec env) := by
  match args, parts with
  | [], _ => exact .of_deferred rfl rfl
  | [_], _ => exact .of_deferred rfl rfl
  | function :: arg :: more, parts =>
    -- the rule looks at the function first and at the last argument then
    obtain ⟨lead, last, hargs⟩ : ∃ lead last, arg :: more = lead ++ [last] :=
      ⟨_, _, (List.dropLast_concat_getLast (List.cons_ne_nil arg more)).symm⟩
    rw [hargs] at parts ⊢
    have hfunction := parts function (by simp)
    cases hstep : (step .standard function).exec env with
    | mk result env' =>
      rw [hstep] at hfunction
      have hfirst := hstep
      rw [← stepFirst_cons .standard function (lead ++ [last])] at hfirst
      cases hfunction with
      | failed err => exact .of_failed rfl (SpecialForm.spread_failed hfirst)
      | moved f env' => exact (Rule.applyFunction hstep trivial).answers
      | still f =>
        cases hcallable : f.isFunction with
        | false => exact .of_deferred rfl (SpecialForm.spread_deferred hfirst hcallable)
        | true =>
          have hlast := parts last (by simp)
          cases hfinal : (step .standard last).exec env with
          | mk result env' =>
            rw [hfinal] at hlast
            have hrun := hfinal
            rw [← stepLast_concat .standard (function :: lead) last] at hrun
            cases hlast with
            | failed err =>
              exact .of_failed rfl (SpecialForm.spread_failed_last hfirst hcallable hrun)
            | moved e env' => exact (Rule.applyLast hstep hcallable hfinal trivial).answers
            | still e =>
              cases e with
              | sequence items => exact (Rule.applyCall hstep hcallable hfinal).answers
              | _ =>
                exact .of_deferred rfl
                  (SpecialForm.spread_deferred_last hfirst hcallable hrun nofun)

/-- The first pass on a special form does what its rule says and nothing else, if the steps of the
arguments are known to change the environment only as steps. -/
theorem expand_special_cases {head : Expr} {rule : MacroRule} {args : List Expr}
    (hrule : MacroTable.standard.rule? head = some rule)
    (parts : ∀ a ∈ args, Framed env ((step .standard a).exec env)) :
    Answers env (.sequence (head :: args))
      ((expand .standard (.sequence (head :: args))).exec env) := by
  rcases MacroTable.rule?_standard hrule with
    ⟨rfl, -⟩ | ⟨rfl, -⟩ | ⟨rfl, -⟩ | ⟨rfl, -⟩ | ⟨rfl, -⟩ | ⟨rfl, -⟩
  · exact expand_define args
  · exact expand_lambda args
  · exact expand_if args parts
  · exact expand_apply args parts
  · exact Rule.list.answers
  · exact expand_defineStruct args

end Redex
