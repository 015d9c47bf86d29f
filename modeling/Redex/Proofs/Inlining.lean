import Redex.Proofs.Concatenation
import Redex.Proofs.Isolation
import Redex.Proofs.TopLevel

/-!
# Definitions may be inlined

A run evaluates its definitions first, in a program of their own, and then the expression. It comes
to the same if the definitions stand before the expression in one text.

* **`formsOf_newline`** — a line break ends a text that needs no repair: what is read of two texts
  with a line break between them is what is read of each.
* **`Ends.append_iff`** — a program that evaluates to no values may stand in front of another.
* **`Interpreting.run_observe_iff`** — what is seen of a run is what the expression evaluates to
  behind the definitions.
* **`run_inlined`** — so a run with definitions is a run of the joined text.
-/

namespace Redex

/-! ## Texts with a line break between them -/

/-- What is read of a text without strictness. -/
def formsOf (source : String) : Program :=
  (readTokens (lex source)).program

theorem formsOf_newline {s : String} (whole : (readTokens (lex s)).isTruncated = false)
    (t : String) : formsOf (s ++ "\n" ++ t) = formsOf s ++ formsOf t :=
  (readTokens_lex_append whole (by decide) isBlank_newline t).1

/-! ## Programs without values -/

variable {env env₁ env' : Environment} {program rest : Program} {outcome : Except Error Program}

/-- A program that evaluates to no values is evaluated first, and leaves the forms behind it as they
were. -/
theorem Ends.append_iff (h : Ends (stepProgram .standard) program env (.ok []) env₁) :
    Ends (stepProgram .standard) (program ++ rest) env outcome env' ↔
      Ends (stepProgram .standard) rest env₁ outcome env' := by
  generalize hv : Except.ok [] = result at h
  induction h generalizing rest with
  | failed round => cases hv
  | @still program values env env₁ round =>
    cases hv
    obtain ⟨hstill, hnone, rfl⟩ := stepProgram_still round
    have hround : (stepProgram .standard (program ++ rest)).exec env₁ =
        (stepProgram .standard rest).exec env₁ := by
      rw [stepProgram_append hstill, ← hnone, Stepping.exec_bind]
      cases (stepProgram .standard rest).exec env₁ with
      | mk result env' => cases result <;> rfl
    exact ends_congr hround
  | @step program program' env env₂ env₁ _ round more ih =>
    -- the first step drops the results of definitions behind the program, which makes no difference
    rw [ends_step_iff (stepProgram_append_moved round rest), ih hv, ends_rebuild_iff]

/-! ## What is seen of a run -/

/-- The interpreter reads without strictness and evaluates in the environment. -/
structure Interpreter.Stands (interp : Interpreter) (env : Environment) : Prop where
  lenient : interp.strict = false
  standard : interp.macros = .standard
  sessions : interp.sessions ≠ []
  environment : interp.environment interp.current = env

namespace Interpreter.Stands

variable {interp : Interpreter}

theorem renew (h : SameBase (.initial false) interp) : interp.renew.Stands .fresh := by
  have hview := h.renew
  refine ⟨hview.strict, hview.macros, hview.right, ?_⟩
  rw [renew_environment, h.builtins]
  rfl

theorem withEnvironment (h : interp.Stands env) (env' : Environment) :
    (interp.withEnvironment interp.current env').Stands env' := by
  refine ⟨h.lenient, h.standard, withEnvironment_sessions_ne h.sessions _ _, ?_⟩
  rw [current_withEnvironment, environment_withEnvironment h.sessions]

theorem note (h : interp.Stands env) (notice : Notice) : (interp.note notice).Stands env :=
  ⟨h.lenient, h.standard, h.sessions, h.environment⟩

theorem userLayer (h : interp.Stands env) : interp.userLayer = env.user :=
  congrArg Environment.user h.environment

end Interpreter.Stands

namespace Interpreting

variable {interp : Interpreter}

theorem read_stands (h : interp.Stands env) (source : String) :
    (read source).exec interp = some (.ok (formsOf source), interp) := by
  rw [read_exec]
  unfold Interpreter.read readProgram
  rw [h.lenient]
  rfl

theorem evaluate_none (h : interp.Stands env) {budget : Nat}
    (hrun : Redex.evaluate .standard budget program env = none) :
    (evaluate budget program).exec interp = none := by
  rw [evaluate_exec, h.standard, h.environment, hrun]
  rfl

theorem evaluate_some (h : interp.Stands env) {budget : Nat} {run : Run Program}
    (hrun : Redex.evaluate .standard budget program env = some run) :
    ∃ left, (evaluate budget program).exec interp = some (run.outcome, left) ∧
      left.Stands run.env := by
  rw [evaluate_exec, h.standard, h.environment, hrun]
  obtain ⟨outcome, env', steps⟩ := run
  have hleft := h.withEnvironment env'
  cases outcome with
  | error err => exact ⟨_, rfl, hleft⟩
  | ok values => exact ⟨_, rfl, hleft.note _⟩

/-- What a report makes of an outcome. -/
def reported : Except Error Program → Except Error (Except Error Program)
  | .ok values => .ok (.ok values)
  | .error err => if err.isReported then .ok (.error err) else .error err

theorem evaluateAll_observe (h : interp.Stands env) (budget : Nat) (program : Program) :
    (evaluateAll budget program).observe interp =
      (Redex.evaluate .standard budget program env).map
        fun run => (reported run.outcome, run.env.user) := by
  unfold observe evaluateAll
  rw [report_exec]
  cases hrun : Redex.evaluate .standard budget program env with
  | none =>
    rw [evaluate_none h hrun]
    rfl
  | some run =>
    obtain ⟨left, hexec, hleft⟩ := evaluate_some h hrun
    obtain ⟨outcome, env', steps⟩ := run
    rw [hexec]
    cases outcome with
    | ok values => simp [reported, hleft.userLayer]
    | error err =>
      by_cases hreported : err.isReported = true
      · simp [reported, hreported, (hleft.note _).userLayer]
      · simp [reported, hreported, hleft.userLayer]

variable {definitions : String} {values : Program}

/-- A preparation reads the expression behind the evaluation of the definitions, unless the budget
is too small for these. -/
theorem prepare_stands (hbase : Interpreter.SameBase (.initial false) interp)
    (defines : (formsOf definitions).Evaluates .fresh (.ok values) env₁) (expression : String) :
    ∃ n, ∀ budget, budget ≤ n ∧ (prepare budget definitions expression).exec interp = none ∨
      ∃ left, (prepare budget definitions expression).exec interp =
        some (.ok (formsOf expression), left) ∧ left.Stands env₁ := by
  have hrenewed := Interpreter.Stands.renew hbase
  have hends := Program.evaluates_iff.mp defines
  obtain ⟨n, hn⟩ := hends.runFrom_cases
  refine ⟨n, fun budget => ?_⟩
  have hrenew : (modify Interpreter.renew : Interpreting Unit).exec interp =
      some (.ok (), interp.renew) := rfl
  unfold prepare
  rw [exec_bind, hrenew]
  simp only
  cases hempty : definitions.isEmpty with
  | true =>
    -- definitions without text are not evaluated, and would leave the empty layer
    obtain rfl : definitions = "" := by simpa using hempty
    have hnone : Ends (stepProgram .standard) [] .fresh (.ok []) .fresh := .still rfl
    obtain ⟨-, rfl⟩ := hnone.unique hends
    exact Or.inr ⟨_, read_stands hrenewed expression, hrenewed⟩
  | false =>
    simp only [Bool.not_false, if_true]
    rw [exec_bind, read_stands hrenewed]
    simp only
    rw [exec_bind]
    rcases hn budget with ⟨hle, hnone⟩ | ⟨steps, hrun⟩
    · rw [evaluate_none hrenewed hnone]
      exact Or.inl ⟨hle, rfl⟩
    · obtain ⟨left, hexec, hleft⟩ := evaluate_some hrenewed hrun
      rw [hexec]
      exact Or.inr ⟨left, read_stands hleft expression, hleft⟩

/-- A run comes to what the expression evaluates to behind the definitions. -/
theorem run_observe_iff (hbase : Interpreter.SameBase (.initial false) interp)
    (defines : (formsOf definitions).Evaluates .fresh (.ok values) env₁) {expression : String}
    {seen : Except Error (Except Error Program) × Layer} :
    (∃ budget, (run budget definitions expression).observe interp = some seen) ↔
      ∃ outcome env', (formsOf expression).Evaluates env₁ outcome env' ∧
        seen = (reported outcome, env'.user) := by
  obtain ⟨n, hn⟩ := prepare_stands hbase defines expression
  have hrun : ∀ {budget left}, (prepare budget definitions expression).exec interp =
      some (.ok (formsOf expression), left) → (run budget definitions expression).observe interp =
        (evaluateAll budget (formsOf expression)).observe left := by
    intro budget left hprepare
    unfold run observe
    rw [exec_bind, report_exec, hprepare]
    rfl
  constructor
  · rintro ⟨budget, hseen⟩
    rcases hn budget with ⟨-, hnone⟩ | ⟨left, hprepare, hleft⟩
    · unfold run observe at hseen
      rw [exec_bind, report_exec, hnone] at hseen
      cases hseen
    · rw [hrun hprepare, evaluateAll_observe hleft] at hseen
      obtain ⟨result, hresult, rfl⟩ := Option.map_eq_some_iff.mp hseen
      exact ⟨_, _, ⟨budget, result, hresult, rfl, rfl⟩, rfl⟩
  · rintro ⟨outcome, env', hevaluates, rfl⟩
    obtain ⟨m, hm⟩ := (Program.evaluates_iff.mp hevaluates).runFrom
    refine ⟨max n m + 1, ?_⟩
    rcases hn (max n m + 1) with ⟨hle, -⟩ | ⟨left, hprepare, hleft⟩
    · omega
    · have hresult := hm (max n m + 1) 0 (by omega)
      rw [hrun hprepare, evaluateAll_observe hleft, Redex.evaluate, hresult]
      rfl

end Interpreting

/-! ## Inlined definitions -/

/-- Definitions whose text needs no repair and which evaluate to no values may as well stand before
the expression, on a line of their own: an interpreter that is not strict comes to the same outcome,
if to any, and leaves the same bindings. -/
theorem run_inlined {w : Workshop} (history : Workshop.Reaches (.initial false) w)
    {definitions : String} (whole : (readTokens (lex definitions)).isTruncated = false)
    {env₁ : Environment}
    (defines : (readTokens (lex definitions)).program.Evaluates .fresh (.ok []) env₁)
    (expression : String) (result : Except Error (Except Error Program)) (layer : Layer) :
    (∃ budget, (Interpreting.run budget definitions expression).observe w.interp =
      some (result, layer)) ↔
    ∃ budget, (Interpreting.run budget "" (definitions ++ "\n" ++ expression)).observe w.interp =
      some (result, layer) := by
  have hbase := history.sameBase rfl
  have hnone : (formsOf "").Evaluates .fresh (.ok []) .fresh := ⟨1, _, rfl, rfl, rfl⟩
  have hjoined : ∀ outcome env', (formsOf expression).Evaluates env₁ outcome env' ↔
      (formsOf (definitions ++ "\n" ++ expression)).Evaluates .fresh outcome env' := by
    intro outcome env'
    rw [formsOf_newline whole, Program.evaluates_iff, Program.evaluates_iff]
    exact (Program.evaluates_iff.mp defines).append_iff.symm
  rw [Interpreting.run_observe_iff hbase defines, Interpreting.run_observe_iff hbase hnone]
  simp only [hjoined]

/-- `(not x)` behind the definition of `x` as `#t`, on a line of its own in the same text, comes to
`#f` and leaves `x` bound, as it does with the definition apart. -/
theorem run_inlined_defined :
    ∃ budget seen, (Interpreting.run budget "" ("(define x #t)" ++ "\n" ++ "(not x)")).observe
        (Workshop.initial false).interp = some seen ∧
      (seen.1.toOption.bind Except.toOption).map Program.surface = some "#f" ∧
      seen.2.names = ["x"] := by
  have hdefines : (evaluate .standard 9 (readTokens (lex "(define x #t)")).program .fresh).any
      (fun run => run.outcome.toOption.any List.isEmpty) = true := by decide +kernel
  have hseen : ((Interpreting.run 9 "(define x #t)" "(not x)").observe (.initial false)).any
      (fun seen => (seen.1.toOption.bind Except.toOption).map Program.surface = some "#f" ∧
        seen.2.names = ["x"]) = true := by decide +kernel
  obtain ⟨⟨outcome, env₁, steps⟩, hrun, hempty⟩ := (Option.any_eq_true _ _).mp hdefines
  have houtcome : outcome = .ok [] := by
    cases outcome with
    | error err => cases hempty
    | ok values => rw [List.isEmpty_iff.mp hempty]
  obtain ⟨⟨result, layer⟩, hobserved, htext⟩ := (Option.any_eq_true _ _).mp hseen
  have hinlined := run_inlined .refl (by decide +kernel) ⟨9, _, hrun, houtcome, rfl⟩ "(not x)"
    result layer
  obtain ⟨budget, hbudget⟩ := hinlined.mp ⟨9, hobserved⟩
  exact ⟨budget, (result, layer), hbudget, by simpa using htext⟩

end Redex
