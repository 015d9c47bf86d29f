import Redex.Proofs.Binders
import Redex.Proofs.CallByValue
import Redex.Proofs.NormalForm

/-!
# Calls whose arguments are done

A call is one step once its arguments cannot step, whatever stands in front of them: a procedure, a
name that is bound to one, or a literal closure. Looking the name up and building the closure are
silent, and what the arguments stand for is put in their place in the same step.

* **`SettlesAs`** — an expression cannot step, and this is what stands for it.
* **`step_call`** — a call whose head the first pass turns into what stands for a procedure is one
  step, which applies the procedure.
* **`step_function_call`**, **`step_named_call`** and **`step_literal_call`** are its three cases.
* **`call_is_one_step`** — so the three spellings of a closure step alike.
-/

namespace Redex

variable {env : Environment} {head h g a v : Expr} {args values : List Expr}

/-! ## Arguments that are done -/

/-- The expression cannot step, and a step hands back the given one: itself, or the procedure that it
names. -/
def SettlesAs (env : Environment) (a v : Expr) : Prop :=
  ((step .standard a).exec env).1 = .ok ⟨false, v⟩

/-- Neither pass does anything with what cannot step. -/
theorem SettlesAs.inert (h : SettlesAs env a v) :
    (expand .standard a).exec env = (.ok .unchanged, env) ∧ Reduced env a ∧ v = env.named a := by
  cases hstep : (step .standard a).exec env with
  | mk result env' =>
    rw [SettlesAs, hstep] at h
    subst h
    obtain ⟨hexpand, hreduced, hnamed, -⟩ := step_still hstep
    exact ⟨hexpand, hreduced, hnamed⟩

/-- What stands for an expression is the result of a definition only if the expression is. -/
theorem Environment.named_ne_undefined (env : Environment) (h : a ≠ .undefined) :
    env.named a ≠ .undefined := by
  rcases env.named_cases a with hsame | ⟨name, f, -, -, hf, hnamed⟩
  · rwa [hsame]
  · rw [hnamed]
    rintro rfl
    cases hf

theorem SettlesAs.values_eq (h : List.Forall₂ (SettlesAs env) args values) :
    values = args.map env.named := by
  induction h with
  | nil => rfl
  | cons first rest ih =>
    obtain ⟨-, -, rfl⟩ := first.inert
    rw [ih, List.map_cons]

theorem SettlesAs.mem_inert (h : List.Forall₂ (SettlesAs env) args values) :
    ∀ a ∈ args, (expand .standard a).exec env = (.ok .unchanged, env) ∧ Reduced env a := by
  induction h with
  | nil => nofun
  | cons first rest ih =>
    obtain ⟨hexpand, hreduced, -⟩ := first.inert
    exact List.forall_mem_cons.mpr ⟨⟨hexpand, hreduced⟩, ih⟩

/-! ## The step of a call -/

/-- A call that is no special form, whose head the first pass hands on as what stands for a procedure,
is applied in one step. -/
theorem step_call (plain : MacroTable.standard.isMacroCall (head :: args) = false)
    (handed : HandedOn env head h) (plain' : MacroTable.standard.rule? h = none)
    (reduced : Reduced env h) (names : env.named h = g) (callable : g.isFunction = true)
    (still : List.Forall₂ (SettlesAs env) args values) (defined : ∀ a ∈ args, a ≠ .undefined) :
    (step .standard (.sequence (head :: args))).exec env =
      ((applyCall g values).map fun result => ⟨true, result⟩, env) := by
  have hinert := SettlesAs.mem_inert still
  have hhead : h ≠ .undefined := by
    rintro rfl
    rw [← names] at callable
    cases callable
  have hwhole : rebuild (h :: args) = h :: args := by
    refine List.filter_eq_self.mpr ?_
    intro x hx
    cases x with
    | undefined =>
      rcases List.mem_cons.mp hx with rfl | hx
      · exact absurd rfl hhead
      · exact absurd rfl (defined _ hx)
    | _ => rfl
  have hargs : ItemsHandedOn env args args :=
    Or.inl ⟨expandItems_unchanged fun a ha => (hinert a ha).1, rfl⟩
  have hhanded := (ItemsHandedOn.cons handed hargs).sequence plain hwhole
  -- no item steps in the second pass either, so the procedure is applied
  have hitems : reduceItems .standard env (h :: args) = .ok (false, g :: values) := by
    rw [reduceItems_of_reduced, List.map_cons, names, SettlesAs.values_eq still]
    exact List.forall_mem_cons.mpr ⟨reduced, fun a ha => (hinert a ha).2⟩
  have hvalues : ∀ v ∈ values, v ≠ .undefined := by
    rw [SettlesAs.values_eq still]
    exact List.forall_mem_map.mpr fun a ha => env.named_ne_undefined (defined a ha)
  refine step_of_handedOn hhanded ?_
  rw [reduce_items (MacroTable.isMacroCall_eq_false plain' args), hitems]
  simp only [rebuild_call callable hvalues, callable, if_true]

theorem step_function_call (callable : g.isFunction = true)
    (still : List.Forall₂ (SettlesAs env) args values) (defined : ∀ a ∈ args, a ≠ .undefined) :
    (step .standard (.sequence (g :: args))).exec env =
      ((applyCall g values).map fun result => ⟨true, result⟩, env) := by
  have hsymbol := ne_symbol_of_isFunction callable
  have hsequence := ne_sequence_of_isFunction callable
  exact step_call (isMacroCall_function callable args) (.of_unchanged (expand_leaf hsequence env))
    (MacroTable.rule?_eq_none_of_not_symbol _ hsymbol) ⟨g, reduce_leaf hsymbol hsequence⟩
    (env.named_of_not_symbol hsymbol) callable still defined

theorem step_named_call {name : String} (plain : MacroTable.standard.rule? (.symbol name) = none)
    (bound : env.get? name = some g) (callable : g.isFunction = true)
    (still : List.Forall₂ (SettlesAs env) args values) (defined : ∀ a ∈ args, a ≠ .undefined) :
    (step .standard (.sequence (.symbol name :: args))).exec env =
      ((applyCall g values).map fun result => ⟨true, result⟩, env) := by
  have hplain := MacroTable.isMacroCall_eq_false plain args
  have hreduced : Reduced env (.symbol name) := ⟨g, by simp [reduce, bound, callable]⟩
  exact step_call hplain (.of_unchanged (expand_leaf (fun _ => Expr.noConfusion) env)) plain hreduced
    (Environment.named_of_function bound callable) callable still defined

/-- A call by name moves with its argument, if the second pass does that. The name has become the
procedure by then. -/
theorem step_named_argument {name : String} {a' : Expr}
    (plain : MacroTable.standard.rule? (.symbol name) = none) (bound : env.get? name = some g)
    (callable : g.isFunction = true)
    (unchanged : (expand .standard a).exec env = (.ok .unchanged, env))
    (moved : reduce .standard env a = .ok ⟨true, a'⟩) (defined : a' ≠ .undefined) :
    (step .standard (.sequence [.symbol name, a])).exec env =
      (.ok ⟨true, .sequence [g, a']⟩, env) := by
  have hplain := MacroTable.isMacroCall_eq_false plain [a]
  have hname : (expand .standard (.symbol name)).exec env = (.ok .unchanged, env) :=
    expand_leaf (fun _ => Expr.noConfusion) env
  have hexpand := expand_sequence_unchanged hplain
    (List.forall_mem_cons.mpr ⟨hname, List.forall_mem_singleton.mpr unchanged⟩)
  have hitems : reduceItems .standard env [.symbol name, a] = .ok (true, [g, a']) := by
    simp [reduceItems, reduce, bound, callable, moved, bind, Except.bind, pure, Except.pure]
  have hwhole : rebuild [g, a'] = [g, a'] :=
    rebuild_call callable (List.forall_mem_singleton.mpr defined)
  rw [step_of_unchanged hexpand, reduce_items hplain, hitems]
  simp only [hwhole]

/-- A literal closure in front of its arguments is built and applied in one step. -/
theorem step_literal_call {parts : List Expr} {params : Params} {body : Expr} {label : String}
    (built : SpecialForm.lambda parts = .becomes (.closure params body label))
    (still : List.Forall₂ (SettlesAs env) args values) (defined : ∀ a ∈ args, a ≠ .undefined) :
    (step .standard (.sequence (.sequence (.symbol lambdaName :: parts) :: args))).exec env =
      (.ok ⟨true, (bindArguments params values).apply body⟩, env) :=
  step_call rfl (.inr (expand_closure built env)) rfl ⟨_, rfl⟩ rfl rfl still defined

/-- A call of a closure takes one step, however the closure is spelled: as the literal form that it is
built from, as the closure itself, or by a name that is bound to a closure with the same parameters
and body, and is the head of no special form. If no argument can step or is the result of a
definition, each of the three becomes the body of the closure with what stands for the arguments in
the place of the parameters, and the layers stay as they are. -/
theorem call_is_one_step (env : Environment) {spec body : Expr} {params : Params}
    {name label : String} {args values : List Expr} (valid : Params.ofSpec spec = .ok params)
    (plain : MacroTable.standard.rule? (.symbol name) = none)
    (bound : env.get? name = some (.closure params body label))
    (still : List.Forall₂ (SettlesAs env) args values) (defined : ∀ a ∈ args, a ≠ .undefined) :
    ∃ c, (expand .standard (.sequence [.symbol lambdaName, spec, body])).exec env =
        (.ok (.silent c), env) ∧
      ∀ head ∈ [.sequence [.symbol lambdaName, spec, body], c, .symbol name],
        (step .standard (.sequence (head :: args))).exec env =
          (.ok ⟨true, (bindArguments params values).apply body⟩, env) := by
  have hbuilt : SpecialForm.lambda [spec, body] =
      .becomes (.closure params body Expr.anonymous) := lambda_of_ofSpec valid [body]
  refine ⟨_, expand_closure hbuilt env, ?_⟩
  simp only [List.forall_mem_cons]
  refine ⟨?_, ?_, ?_, nofun⟩
  · exact step_literal_call hbuilt still defined
  · exact step_function_call rfl still defined
  · exact step_named_call plain bound rfl still defined

/-- `(f not (apply p) (p q))` is one step for the closure of `(lambda (x y) (list y x))`, also if `f` is
bound to it: a name of a procedure, a special form that waits and a sequence without a procedure
count as done, and the third argument is dropped. -/
theorem call_is_one_step_list :
    let swap := Expr.sequence [.symbol "list", .symbol "y", .symbol "x"]
    let env := Environment.fresh.bindAll [("f", .closure (.fixed ["x", "y"]) swap "f")]
    let args := [.symbol "not", .sequence [.symbol "apply", .symbol "p"],
      .sequence [.symbol "p", .symbol "q"]]
    ∃ c, (expand .standard (.sequence [.symbol lambdaName,
        .sequence [.symbol "x", .symbol "y"], swap])).exec env = (.ok (.silent c), env) ∧
      ∀ head ∈ [.sequence [.symbol lambdaName, .sequence [.symbol "x", .symbol "y"], swap], c,
          .symbol "f"],
        (step .standard (.sequence (head :: args))).exec env =
          (.ok ⟨true, .sequence [.symbol "list", .sequence [.symbol "apply", .symbol "p"],
            .native (.builtin .not)]⟩, env) := by
  intro swap env args
  have hvalid : Params.ofSpec (.sequence [.symbol "x", .symbol "y"]) = .ok (.fixed ["x", "y"]) := rfl
  have hbound : env.get? "f" = some (.closure (.fixed ["x", "y"]) swap "f") := rfl
  have hstill : List.Forall₂ (SettlesAs env) args [.native (.builtin .not),
      .sequence [.symbol "apply", .symbol "p"], .sequence [.symbol "p", .symbol "q"]] :=
    .cons rfl (.cons rfl (.cons rfl .nil))
  have hdefined : ∀ a ∈ args, a ≠ .undefined := by
    simp only [args, List.forall_mem_cons]
    exact ⟨nofun, nofun, nofun, nofun⟩
  exact call_is_one_step env hvalid rfl hbound hstill hdefined

end Redex
