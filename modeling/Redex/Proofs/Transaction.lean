import Redex.Proofs.Program
import Redex.Proofs.Rewriting.OneStep

/-!
# Steps are transactions

A step changes the user layer all at once or not at all. Definitions run as a side effect of the
first pass, perhaps deep inside the test of an `if` or the arguments of an `apply`, and nothing that
follows a definition can fail or go unnoticed.

* **`Executed`** says which form the first pass runs: the first that it can rewrite, or one inside a
  part that `if` or `apply` steps.
* **`OneRewrite.binds`** — a step changes nothing, or runs one definition.
* **`stepProgram_transaction`** — a failure and an unstepped program leave the layers as they were,
  and a step of a program makes the bindings of one definition or none.
* **`evaluate_failed`** — a run that fails leaves the layers of its last step.
-/

namespace Redex

/-! ## What a step runs -/

/-- The parts of a special form that its rule steps. -/
inductive PartOf : Expr → Expr → Prop where
  | test {test : Expr} {branches : List Expr} :
      PartOf test (.sequence (.symbol "if" :: test :: branches))
  | function {function : Expr} {args : List Expr} :
      PartOf function (.sequence (.symbol "apply" :: function :: args))
  | last {function last : Expr} {lead : List Expr} :
      PartOf last (.sequence (.symbol "apply" :: function :: (lead ++ [last])))

/-- What stands first of all that the first pass can rewrite in a tree. -/
def Leads (env : Environment) (r e : Expr) : Prop :=
  ∃ D : Context, e = D.fill r ∧ D.Open r ∧ ∀ a ∈ D.left, Quiet .expansion env a

theorem First.leads {C : Context} {env : Environment} {r e : Expr}
    (h : First e C r env .expansion) : Leads env r e := by
  obtain ⟨D, hfill, reached, -, hleft⟩ := h
  exact ⟨D, hfill, reached, hleft⟩

/-- The form that the first pass runs: the one that leads the tree, or the one that is run by the
step of a part of it. -/
inductive Executed (env : Environment) (form : Expr) : Expr → Prop where
  | here {e : Expr} (leads : Leads env form e) : Executed env form e
  | inside {e r part : Expr} (leads : Leads env r e) (isPart : PartOf part r)
      (inner : Executed env form part) : Executed env form e

variable {Done : Environment → Expr → Prop}
variable {Part : Environment → Expr → Expr → Environment → Prop}
variable {env env' : Environment} {e e' r r' : Expr} {program program' : Program}

/-- A rule changes nothing, runs a definition, or leaves what the step of a part left. -/
theorem Rule.env_cases {pass : Pass} (h : Rule Done Part pass env r r' env') :
    env' = env ∨
      (pass = .expansion ∧ ∃ pairs, Defines r pairs ∧ env.user.frozen = false ∧
        env' = env.bindAll pairs) ∨
      (pass = .expansion ∧ ∃ part part', PartOf part r ∧ Part env part part' env') := by
  cases h with
  | definition binds free => exact Or.inr (Or.inl ⟨rfl, _, binds, free, rfl⟩)
  | ifTest undecided notTrue bound moved part => exact Or.inr (Or.inr ⟨rfl, _, _, .test, part⟩)
  | applyFunction moved part => exact Or.inr (Or.inr ⟨rfl, _, _, .function, part⟩)
  | applyLast still callable moved part => exact Or.inr (Or.inr ⟨rfl, _, _, .last, part⟩)
  | _ => exact Or.inl rfl

/-- A step changes nothing in the layers, or makes the bindings of one definition that it runs. -/
theorem OneRewrite.binds (h : OneRewrite Done env e e' env') :
    env' = env ∨ ∃ form pairs, Executed env form e ∧ Defines form pairs ∧ env.user.frozen = false ∧
      env' = env.bindAll pairs := by
  -- along the steps of parts: `ih` is what is known of the part that was stepped
  refine OneRewrite.induct (motive := fun env e _ env' => env' = env ∨ ∃ form pairs,
    Executed env form e ∧ Defines form pairs ∧ env.user.frozen = false ∧ env' = env.bindAll pairs)
    ?_ ?_ h
  · intro env e e₁ silent
    exact Or.inl rfl
  · intro pass env env' e r r' C built silent way rule first
    rcases rule.env_cases with henv | ⟨rfl, pairs, hdefines, hfree, henv⟩ |
      ⟨rfl, part, part', hpart, ih⟩
    · exact Or.inl henv
    · exact Or.inr ⟨r, pairs, .here first.leads, hdefines, hfree, henv⟩
    -- the step of a part ran a definition inside it, if any
    · rcases ih with henv | ⟨form, pairs, hexecuted, hdefines, hfree, henv⟩
      · exact Or.inl henv
      · have hinside := Executed.inside first.leads hpart hexecuted
        exact Or.inr ⟨form, pairs, hinside, hdefines, hfree, henv⟩

/-! ## What a step of a program changes -/

theorem stepProgram_failed {err : Error}
    (h : (stepProgram .standard program).exec env = (.error err, env')) : env' = env := by
  rcases stepProgram_cases program env with
    ⟨err', hexec⟩ | ⟨-, hexec⟩ | ⟨before, e, after, e', env₁, -, -, -, hexec⟩
  · rw [hexec] at h
    cases h
    rfl
  · rw [hexec] at h
    cases h
  · rw [hexec] at h
    cases h

theorem stepProgram_binds
    (h : (stepProgram .standard program).exec env = (.ok (true, program'), env')) :
    env' = env ∨ ∃ before top after, program = before ++ top :: after ∧
      (∀ x ∈ before, (step .standard x).exec env = (.ok ⟨false, env.named x⟩, env)) ∧
      ∃ form pairs, Executed env form top ∧ Defines form pairs ∧ env.user.frozen = false ∧
        env' = env.bindAll pairs := by
  rcases stepProgram_cases program env with
    ⟨err', hexec⟩ | ⟨-, hexec⟩ | ⟨before, e, after, e', env₁, rfl, hleft, hstep, hexec⟩
  · rw [hexec] at h
    cases h
  · rw [hexec] at h
    cases h
  · rw [hexec] at h
    cases h
    rcases (step_rewrites_reduced e env hstep).binds with henv | ⟨form, pairs, hbinds⟩
    · exact Or.inl henv
    · exact Or.inr ⟨before, e, after, rfl, hleft, form, pairs, hbinds⟩

/-- A step of a program never changes the built-ins. -/
theorem stepProgram_builtins {result : Except Error (Bool × Program)}
    (h : (stepProgram .standard program).exec env = (result, env')) :
    env'.builtins = env.builtins := by
  cases result with
  | error err => rw [stepProgram_failed h]
  | ok stepped =>
    obtain ⟨stepped, next⟩ := stepped
    cases stepped with
    | false =>
      obtain ⟨-, -, rfl⟩ := stepProgram_still h
      rfl
    | true =>
      rcases stepProgram_binds h with rfl | ⟨before, top, after, -, -, form, pairs, -, -, -, rfl⟩
      · rfl
      · rfl

/-- A run that fails: its steps, and a last program whose step fails and changes nothing. -/
theorem evaluate_failed {budget : Nat} {run : Run Program} {err : Error}
    (h : evaluate .standard budget program env = some run) (herr : run.outcome = .error err) :
    ∃ last, StepsTo run.steps program env last run.env ∧
      (stepProgram .standard last).exec run.env = (.error err, run.env) := by
  obtain ⟨n, last, env₁, hsteps, hcount, ⟨err', herror, hend⟩ | ⟨result, hresult, -⟩⟩ :=
    runFrom_cases h
  · rw [herror] at herr
    cases herr
    have henv := stepProgram_failed hend
    rw [← henv] at hsteps hend
    rw [hcount, Nat.zero_add]
    exact ⟨last, hsteps, hend⟩
  · rw [hresult] at herr
    cases herr

/-- Steps of a program are transactions on the layers. A failure changes nothing, and neither does a
program that does not step. A step changes nothing either, or makes exactly the bindings of the one
definition that it runs, in the first form that can step. The built-ins are never changed. So a run
that fails leaves the layers as its last step left them. -/
theorem stepProgram_transaction (program : Program) (env : Environment) :
    (∀ err env', (stepProgram .standard program).exec env = (.error err, env') → env' = env) ∧
    (∀ program' env', (stepProgram .standard program).exec env = (.ok (false, program'), env') →
      env' = env) ∧
    (∀ program' env', (stepProgram .standard program).exec env = (.ok (true, program'), env') →
      env' = env ∨ ∃ before top after, program = before ++ top :: after ∧
        (∀ x ∈ before, ∃ x', (step .standard x).exec env = (.ok ⟨false, x'⟩, env)) ∧
        ∃ form pairs, Executed env form top ∧ Defines form pairs ∧
          env' = { env with user := env.user.bindAll pairs }) ∧
    (∀ result env', (stepProgram .standard program).exec env = (result, env') →
      env'.builtins = env.builtins) ∧
    (∀ budget run err, evaluate .standard budget program env = some run →
      run.outcome = .error err → ∃ last, StepsTo run.steps program env last run.env ∧
        (stepProgram .standard last).exec run.env = (.error err, run.env)) := by
  refine ⟨fun err env' h => stepProgram_failed h, ?_, ?_, fun result env' h =>
    stepProgram_builtins h, fun budget run err h herr => evaluate_failed h herr⟩
  · intro program' env' h
    exact (stepProgram_still h).2.2
  · intro program' env' h
    rcases stepProgram_binds h with
      henv | ⟨before, top, after, hsplit, hleft, form, pairs, hexecuted, hdefines, -, henv⟩
    · exact Or.inl henv
    · exact Or.inr ⟨before, top, after, hsplit, fun x hx => ⟨_, hleft x hx⟩, form, pairs,
        hexecuted, hdefines, henv⟩

/-- A definition in the test of an `if` is all that the step of the `if` changes, and it hides a
built-in without changing it. -/
theorem stepProgram_transaction_test :
    ∃ form pairs, ∃ env' : Environment, Defines form pairs ∧
      Executed .fresh form (.sequence [.symbol "if",
        .sequence [.symbol "define", .symbol "not", .boolean true], .boolean true]) ∧
      env'.user = Environment.fresh.user.bindAll pairs ∧ env'.get? "not" = some (.boolean true) ∧
      env'.builtins = Environment.fresh.builtins := by
  have hstep : (stepProgram .standard [.sequence [.symbol "if",
      .sequence [.symbol "define", .symbol "not", .boolean true], .boolean true]]).exec .fresh =
      (.ok (true, [.sequence [.symbol "if", .undefined, .boolean true]]),
        Environment.fresh.bindAll [("not", .boolean true)]) := rfl
  obtain ⟨-, -, hstepped, hbuiltins, -⟩ := stepProgram_transaction _ .fresh
  rcases hstepped _ _ hstep with henv | ⟨before, top, after, hsplit, -, form, pairs, hform, hpairs,
    henv⟩
  · cases henv
  · cases before with
    | nil =>
      cases hsplit
      exact ⟨form, pairs, _, hpairs, hform, congrArg Environment.user henv, rfl, hbuiltins _ _ hstep⟩
    | cons x before => simp at hsplit

end Redex
