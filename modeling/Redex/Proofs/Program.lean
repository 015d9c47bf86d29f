import Redex.Proofs.Rewriting.Passes
import Redex.Proofs.Runs

/-!
# Steps and runs of programs

What one step of a program does, and what a run of steps comes to.

* **`stepForms_cases`** — a step of a program fails, finds no form that can step, or steps the first
  form that can; only the last changes the environment.
* **`StepsTo`** counts the steps of a program, and **`runFrom_cases`** splits a run that came to its
  end into its steps and the round that ended it.
* **`evaluate_idempotent`** — the program that a run ends with cannot step, and evaluating it again
  gives it back.
-/

namespace Redex

variable {env env' : Environment} {e e' : Expr} {program program' : Program}

/-! ## A form that does not step -/

/-- What a step that does not count says: the first pass changed nothing, and the second took a
symbol for the procedure that it names, if that. -/
theorem step_still (h : (step .standard e).exec env = (.ok ⟨false, e'⟩, env')) :
    (expand .standard e).exec env = (.ok .unchanged, env) ∧ Reduced env e ∧
      e' = env.named e ∧ env' = env := by
  have hspec := expand_spec e env
  cases hexpand : (expand .standard e).exec env with
  | mk result env₁ =>
    rw [hexpand] at hspec
    cases hspec with
    | failed err =>
      rw [step_of_failed hexpand] at h
      cases h
    | unchanged quiet =>
      rw [step_of_unchanged hexpand] at h
      simp only [Prod.mk.injEq] at h
      obtain ⟨hreduce, rfl⟩ := h
      exact ⟨rfl, ⟨e', hreduce⟩, reduce_still hreduce, rfl⟩
    | @silent e₁ silent quiet =>
      rw [step_of_silent hexpand] at h
      -- a closure that was built counts, whatever the second pass does
      cases hreduce : reduce .standard env e₁ with
      | error err =>
        rw [hreduce] at h
        cases h
      | ok reduced =>
        rw [hreduce] at h
        cases h
    | visible silent way rule first =>
      rw [step_of_visible hexpand] at h
      cases h

/-- What is neither a symbol nor a sequence cannot step. -/
theorem step_leaf (hsymbol : ∀ name, e ≠ .symbol name) (hsequence : ∀ items, e ≠ .sequence items)
    (env : Environment) : (step .standard e).exec env = (.ok ⟨false, e⟩, env) := by
  have hexpand := expand_leaf hsequence env
  rw [step_of_unchanged hexpand, reduce_leaf hsymbol hsequence]

theorem step_function (hf : e.isFunction = true) (env : Environment) :
    (step .standard e).exec env = (.ok ⟨false, e⟩, env) :=
  step_leaf (ne_symbol_of_isFunction hf) (ne_sequence_of_isFunction hf) env

/-- What a form that cannot step stands for cannot step either, and stands for itself. -/
theorem step_named (h : (step .standard e).exec env = (.ok ⟨false, env.named e⟩, env)) :
    (step .standard (env.named e)).exec env = (.ok ⟨false, env.named e⟩, env) := by
  rcases env.named_cases e with hnamed | ⟨name, f, -, -, hf, hnamed⟩
  · rw [hnamed] at h ⊢
    exact h
  · rw [hnamed]
    exact step_function hf env

/-! ## One step -/

/-- What may come of a step of the forms of a program. -/
inductive FormsStepped (env : Environment) :
    List Expr → Except Error (Bool × List Expr) × Environment → Prop where
  | failed (forms : List Expr) (err : Error) : FormsStepped env forms (.error err, env)
  | still {forms : List Expr}
      (all : ∀ e ∈ forms, (step .standard e).exec env = (.ok ⟨false, env.named e⟩, env)) :
      FormsStepped env forms (.ok (false, forms.map env.named), env)
  | moved {before after : List Expr} {e e' : Expr} {env' : Environment}
      (left : ∀ e ∈ before, (step .standard e).exec env = (.ok ⟨false, env.named e⟩, env))
      (first : (step .standard e).exec env = (.ok ⟨true, e'⟩, env')) :
      FormsStepped env (before ++ e :: after)
        (.ok (true, before.map env.named ++ e' :: after), env')

theorem FormsStepped.cons {forms : List Expr}
    (he : (step .standard e).exec env = (.ok ⟨false, env.named e⟩, env))
    (h : FormsStepped env forms ((stepForms .standard forms).exec env)) :
    FormsStepped env (e :: forms) ((stepForms .standard (e :: forms)).exec env) := by
  rw [stepForms, Stepping.exec_bind_of_ok he]
  simp only [Bool.false_eq_true, if_false]
  rw [Stepping.exec_bind]
  cases hforms : (stepForms .standard forms).exec env with
  | mk result env' =>
    rw [hforms] at h
    cases h with
    | failed _ err => exact .failed _ err
    | still all => exact .still (List.forall_mem_cons.mpr ⟨he, all⟩)
    | @moved before after x x' _ left first =>
      have hleft : ∀ y ∈ e :: before,
          (step .standard y).exec env = (.ok ⟨false, env.named y⟩, env) :=
        List.forall_mem_cons.mpr ⟨he, left⟩
      exact .moved hleft first

/-- A step of a program steps the first form that can, and visits none behind it. -/
theorem stepForms_cases (forms : List Expr) (env : Environment) :
    FormsStepped env forms ((stepForms .standard forms).exec env) := by
  induction forms with
  | nil =>
    rw [stepForms]
    exact .still nofun
  | cons e forms ih =>
    have hframed := step_framed e env
    cases he : (step .standard e).exec env with
    | mk result env' =>
      rw [he] at hframed
      cases hframed with
      | failed err =>
        rw [stepForms, Stepping.exec_bind_of_error he]
        exact .failed _ err
      | still e' =>
        obtain ⟨-, -, rfl, -⟩ := step_still he
        exact .cons he ih
      | moved e' env' =>
        rw [stepForms, Stepping.exec_bind_of_ok he]
        exact .moved (List.forall_mem_nil _) he

theorem stepProgram_cases (program : Program) (env : Environment) :
    (∃ err, (stepProgram .standard program).exec env = (.error err, env)) ∨
      ((∀ e ∈ program, (step .standard e).exec env = (.ok ⟨false, env.named e⟩, env)) ∧
        (stepProgram .standard program).exec env =
          (.ok (false, rebuild (program.map env.named)), env)) ∨
      ∃ before e after e' env', program = before ++ e :: after ∧
        (∀ x ∈ before, (step .standard x).exec env = (.ok ⟨false, env.named x⟩, env)) ∧
        (step .standard e).exec env = (.ok ⟨true, e'⟩, env') ∧
        (stepProgram .standard program).exec env =
          (.ok (true, rebuild (before.map env.named ++ e' :: after)), env') := by
  have hforms := stepForms_cases program env
  unfold stepProgram
  cases hexec : (stepForms .standard program).exec env with
  | mk result env' =>
    rw [hexec] at hforms
    cases hforms with
    | failed _ err => exact Or.inl ⟨err, Stepping.exec_bind_of_error hexec _⟩
    | still all =>
      refine Or.inr (Or.inl ⟨all, ?_⟩)
      rw [Stepping.exec_bind_of_ok hexec]
      rfl
    | @moved before after e e' _ left first =>
      refine Or.inr (Or.inr ⟨before, e, after, e', env', rfl, left, first, ?_⟩)
      rw [Stepping.exec_bind_of_ok hexec]
      rfl

/-- A program that cannot step: none of its forms can, and its symbols are taken for the procedures
that they name. -/
theorem stepProgram_still
    (h : (stepProgram .standard program).exec env = (.ok (false, program'), env')) :
    (∀ e ∈ program, (step .standard e).exec env = (.ok ⟨false, env.named e⟩, env)) ∧
      program' = rebuild (program.map env.named) ∧ env' = env := by
  rcases stepProgram_cases program env with
    ⟨err, hexec⟩ | ⟨all, hexec⟩ | ⟨before, e, after, e', env₁, -, -, -, hexec⟩
  · rw [hexec] at h
    cases h
  · rw [hexec] at h
    cases h
    exact ⟨all, rfl, rfl⟩
  · rw [hexec] at h
    cases h

/-- A program none of whose forms steps does not step. -/
theorem stepProgram_of_still
    (h : ∀ e ∈ program, (step .standard e).exec env = (.ok ⟨false, env.named e⟩, env)) :
    (stepProgram .standard program).exec env =
      (.ok (false, rebuild (program.map env.named)), env) := by
  have hforms : (stepForms .standard program).exec env =
      (.ok (false, program.map env.named), env) := by
    induction program with
    | nil => rfl
    | cons e program ih =>
      have hrest := ih fun x hx => h x (List.mem_cons_of_mem e hx)
      rw [stepForms, Stepping.exec_bind_of_ok (h e List.mem_cons_self)]
      simp only [Bool.false_eq_true, if_false]
      rw [Stepping.exec_bind_of_ok hrest]
      rfl
  unfold stepProgram
  rw [Stepping.exec_bind_of_ok hforms]
  rfl

/-! ## Runs -/

/-- The program comes to another by the given number of steps. -/
inductive StepsTo : Nat → Program → Environment → Program → Environment → Prop where
  | refl (program : Program) (env : Environment) : StepsTo 0 program env program env
  | step {n : Nat} {program next last : Program} {env env₁ env₂ : Environment}
      (first : (stepProgram .standard program).exec env = (.ok (true, next), env₁))
      (rest : StepsTo n next env₁ last env₂) : StepsTo (n + 1) program env last env₂

theorem stepsTo_iff {n : Nat} :
    StepsTo n program env program' env' ↔
      Rounds (stepProgram .standard) n program env program' env' := by
  constructor
  · intro h
    induction h with
    | refl program env => exact .refl program env
    | step first rest ih => exact .step first ih
  · intro h
    induction h with
    | refl program env => exact .refl program env
    | step first rest ih => exact .step first ih

/-- A run that came to its end: its steps, and the round that ended it. -/
theorem runFrom_cases {budget steps : Nat} {run : Run Program}
    (h : runFrom (stepProgram .standard) budget steps program env = some run) :
    ∃ n last env₁, StepsTo n program env last env₁ ∧ run.steps = steps + n ∧
      ((∃ err, run.outcome = .error err ∧
          (stepProgram .standard last).exec env₁ = (.error err, run.env)) ∨
        ∃ result, run.outcome = .ok result ∧
          (stepProgram .standard last).exec env₁ = (.ok (false, result), run.env)) := by
  simp only [stepsTo_iff]
  exact runFrom_rounds h

/-- The evaluation of an expression to a value: its steps, and a round that does not step from what
they lead to. -/
theorem evaluateExpr_ok {budget : Nat} {run : Run Expr} {v : Expr}
    (h : evaluateExpr .standard budget e env = some run) (hok : run.outcome = .ok v) :
    ∃ last, Rounds Expr.round run.steps e env last run.env ∧
      (step .standard last).exec run.env = (.ok ⟨false, v⟩, run.env) := by
  have hrun : runFrom Expr.round budget 0 e env = some run := h
  obtain ⟨n, last, env₁, hrounds, hcount, ⟨err, herror, -⟩ | ⟨result, hresult, hend⟩⟩ :=
    runFrom_rounds hrun
  · rw [hok] at herror
    cases herror
  · rw [hok] at hresult
    cases hresult
    have hstill := Expr.round_ok_iff.mp hend
    obtain ⟨-, -, -, henv⟩ := step_still hstill
    rw [Nat.zero_add] at hcount
    rw [hcount, henv]
    rw [henv] at hstill
    exact ⟨last, hrounds, hstill⟩

/-! ## The end of a run -/

/-- What a program that cannot step becomes cannot step either, and becomes itself. -/
theorem stepProgram_again
    (h : (stepProgram .standard program).exec env = (.ok (false, program'), env')) :
    (stepProgram .standard program').exec env' = (.ok (false, program'), env') := by
  obtain ⟨hall, rfl, rfl⟩ := stepProgram_still h
  -- a form that is left stands for one that could not step
  have hstill : ∀ e ∈ rebuild (program.map env'.named),
      env'.named e = e ∧ (step .standard e).exec env' = (.ok ⟨false, e⟩, env') := by
    intro e he
    obtain ⟨x, hx, rfl⟩ := List.mem_map.mp (List.mem_filter.mp he).1
    exact ⟨env'.named_named x, step_named (hall x hx)⟩
  have hnamed : (rebuild (program.map env'.named)).map env'.named =
      rebuild (program.map env'.named) := by
    have hid := List.map_congr_left fun e he => (hstill e he).1
    rw [hid, List.map_id']
  have hrebuild : rebuild (rebuild (program.map env'.named)) =
      rebuild (program.map env'.named) := by
    unfold rebuild
    rw [List.filter_filter]
    simp only [Bool.and_self]
  rw [stepProgram_of_still, hnamed, hrebuild]
  intro e he
  rw [(hstill e he).1]
  exact (hstill e he).2

/-- The program that a run ends with cannot step, and evaluating it again gives it back. -/
theorem evaluate_idempotent {budget : Nat} {run : Run Program}
    (h : evaluate .standard budget program env = some run) (hok : run.outcome = .ok program') :
    (stepProgram .standard program').exec run.env = (.ok (false, program'), run.env) ∧
      ∀ rounds, evaluate .standard (rounds + 1) program' run.env =
        some ⟨.ok program', run.env, 0⟩ := by
  obtain ⟨n, last, env₁, -, -, ⟨err, herror, -⟩ | ⟨result, hresult, hend⟩⟩ := runFrom_cases h
  · rw [herror] at hok
    cases hok
  · rw [hresult] at hok
    cases hok
    have hagain := stepProgram_again hend
    refine ⟨hagain, ?_⟩
    intro rounds
    rw [evaluate, runFrom, hagain]

/-- `not (not #t)` ends with the procedure and `#f`, and these with themselves. -/
theorem evaluate_idempotent_not :
    (stepProgram .standard [.native (.builtin .not), .boolean false]).exec .fresh =
        (.ok (false, [.native (.builtin .not), .boolean false]), .fresh) ∧
      ∀ rounds, evaluate .standard (rounds + 1) [.native (.builtin .not), .boolean false] .fresh =
        some ⟨.ok [.native (.builtin .not), .boolean false], .fresh, 0⟩ := by
  have hrun : evaluate .standard 2
      [.symbol "not", .sequence [.symbol "not", .boolean true]] .fresh =
        some ⟨.ok [.native (.builtin .not), .boolean false], .fresh, 1⟩ := rfl
  exact evaluate_idempotent hrun rfl

end Redex
