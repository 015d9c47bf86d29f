import Redex.Proofs.Program

/-!
# `if` follows its test

An `if` is stepped by stepping its test, for as long as the test can step; the round after that puts
a branch in its place. The branches stay as they are until then, and what the test defines is there
when the branch is chosen.

* **`step_of_isFalse`** and **`Expr.round_moves`** — only an undecided test can step.
* **`Rounds.ofTest`** is the lifting of rounds: an `if` makes the rounds of its test.
* **`round_ifForm_of_still`** — behind the last of them a branch is chosen.
* **`conditional_follows`** — so the run of a test with `n` steps is followed for `n` rounds, and the
  round after them gives the branch.
-/

namespace Redex

variable {env env' : Environment} {test test' thenBranch v : Expr} {rest : List Expr}

/-- An `if` with its test and branches. -/
def ifForm (test thenBranch : Expr) (rest : List Expr) : Expr :=
  .sequence (.symbol "if" :: test :: thenBranch :: rest)

/-- The branch that an `if` chooses for the value of its test; without an else-branch it is `#f`. -/
def branchFor (v thenBranch : Expr) (rest : List Expr) : Expr :=
  if v.isFalse then rest.head?.getD (.boolean false) else thenBranch

/-! ## Decided tests -/

/-- What is false cannot step. -/
theorem step_of_isFalse (h : test.isFalse = true) (env : Environment) :
    (step .standard test).exec env = (.ok ⟨false, test⟩, env) := by
  cases test with
  | boolean b | answered e =>
    exact step_leaf (fun _ => Expr.noConfusion) (fun _ => Expr.noConfusion) env
  | sequence items =>
    rw [List.isEmpty_iff.mp h]
    rfl
  | _ => cases h

/-- A test that steps was not decided. -/
theorem Expr.round_moves (h : test.round.exec env = (.ok (true, test'), env')) :
    (step .standard test).exec env = (.ok ⟨true, test'⟩, env') ∧ test.isFalse = false ∧
      test ≠ .boolean true := by
  rw [Expr.round_ok_iff] at h
  refine ⟨h, ?_, ?_⟩
  · rw [← Bool.not_eq_true]
    intro hfalse
    rw [step_of_isFalse hfalse] at h
    cases h
  · rintro rfl
    cases h

/-- A procedure is true, so a name counts as what it stands for. -/
theorem Environment.isFalse_named (env : Environment) (e : Expr) :
    (env.named e).isFalse = e.isFalse := by
  rcases env.named_cases e with h | ⟨name, f, rfl, -, hf, h⟩
  · rw [h]
  · rw [h]
    cases f with
    | native p => rfl
    | closure params body label => rfl
    | _ => cases hf

/-! ## Rounds of an `if` -/

/-- A visible rewrite of the whole is a round. -/
theorem Rule.round {r r' : Expr}
    (h : Rule (fun _ _ => True) (fun _ _ _ _ => True) .expansion env r r' env') :
    r.round.exec env = (.ok (true, r'), env') :=
  Expr.round_ok_iff.mpr (step_of_visible h.expand_eq)

/-- An `if` makes the rounds of its test, if none of the tests waits for a symbol to be bound. -/
theorem Rounds.ofTest {n : Nat} (h : Rounds Expr.round n test env test' env')
    (bound : ∀ i e env₁, Rounds Expr.round i test env e env₁ →
      mentionsUnbound env₁ .standard [] e = false) (thenBranch : Expr) (rest : List Expr) :
    Rounds Expr.round n (ifForm test thenBranch rest) env
      (ifForm test' thenBranch rest) env' := by
  induction h with
  | refl test env => exact .refl _ env
  | @step n test next last env env₁ env' first others ih =>
    obtain ⟨hstep, undecided, notTrue⟩ := Expr.round_moves first
    have hbound := bound 0 test env (.refl test env)
    have hround : (ifForm test thenBranch rest).round.exec env =
        (.ok (true, ifForm next thenBranch rest), env₁) :=
      (Rule.ifTest undecided notTrue hbound hstep trivial).round
    -- the tests that follow are those that follow the next one
    exact .step hround (ih fun i e env₂ he => bound (i + 1) e env₂ (.step first he))

/-- An `if` whose test cannot step chooses its branch. -/
theorem round_ifForm_of_still (h : test.round.exec env = (.ok (false, v), env'))
    (bound : mentionsUnbound env .standard [] test = false) (thenBranch : Expr) (rest : List Expr) :
    (ifForm test thenBranch rest).round.exec env =
      (.ok (true, branchFor v thenBranch rest), env') := by
  rw [Expr.round_ok_iff] at h
  obtain ⟨-, -, rfl, rfl⟩ := step_still h
  have hbranch : branchFor (env'.named test) thenBranch rest = branchFor test thenBranch rest := by
    rw [branchFor, env'.isFalse_named, branchFor]
  rw [hbranch]
  cases hfalse : test.isFalse with
  | true =>
    rw [branchFor, if_pos hfalse]
    exact (Rule.ifFalse hfalse).round
  | false =>
    rw [branchFor, if_neg (by simp [hfalse])]
    by_cases htrue : test = .boolean true
    · subst htrue
      exact Rule.ifTrue.round
    · exact (Rule.ifSettled hfalse htrue bound h).round

/-- The run of a test comes to `v` after some steps, and no test on the way mentions a symbol that is
bound nowhere. Then an `if` with this test takes as many rounds, in each of which it holds the test
at that point and its branches as they were, and one round more to become the branch for `v`. The
user layer is that of the test's run. -/
theorem conditional_follows {budget : Nat} {run : Run Expr} (thenBranch : Expr) (rest : List Expr)
    (h : evaluateExpr .standard budget test env = some run) (hok : run.outcome = .ok v)
    (bound : ∀ i e env₁, Rounds Expr.round i test env e env₁ →
      mentionsUnbound env₁ .standard [] e = false) :
    (∀ i ≤ run.steps, ∃ e env₁, Rounds Expr.round i test env e env₁ ∧
      Rounds Expr.round i (ifForm test thenBranch rest) env (ifForm e thenBranch rest) env₁) ∧
    Rounds Expr.round (run.steps + 1) (ifForm test thenBranch rest) env
      (branchFor v thenBranch rest) run.env := by
  have hrun : runFrom Expr.round budget 0 test env = some run := h
  obtain ⟨n, last, env₁, hrounds, hcount, ⟨err, herror, -⟩ | ⟨result, hresult, hend⟩⟩ :=
    runFrom_rounds hrun
  · rw [hok] at herror
    cases herror
  · rw [hok] at hresult
    cases hresult
    rw [Nat.zero_add] at hcount
    subst hcount
    refine ⟨fun i hi => ?_, ?_⟩
    · obtain ⟨e, env₂, he⟩ := hrounds.upTo hi
      exact ⟨e, env₂, he, he.ofTest bound thenBranch rest⟩
    · have hlast := bound run.steps last env₁ hrounds
      exact (hrounds.ofTest bound thenBranch rest).concat
        (round_ifForm_of_still hend hlast thenBranch rest)

/-- `(if (not #t) x (not y))` becomes `(if #f x (not y))` and then `(not y)`. -/
theorem conditional_follows_not :
    (∀ i ≤ 1, ∃ e env₁,
      Rounds Expr.round i (.sequence [.symbol "not", .boolean true]) .fresh e env₁ ∧
      Rounds Expr.round i (ifForm (.sequence [.symbol "not", .boolean true]) (.symbol "x")
        [.sequence [.symbol "not", .symbol "y"]]) .fresh
        (ifForm e (.symbol "x") [.sequence [.symbol "not", .symbol "y"]]) env₁) ∧
    Rounds Expr.round (1 + 1) (ifForm (.sequence [.symbol "not", .boolean true]) (.symbol "x")
      [.sequence [.symbol "not", .symbol "y"]]) .fresh
      (.sequence [.symbol "not", .symbol "y"]) .fresh := by
  have hrun : evaluateExpr .standard 2 (.sequence [.symbol "not", .boolean true]) .fresh =
      some ⟨.ok (.boolean false), .fresh, 1⟩ := rfl
  have hfirst : (Expr.sequence [.symbol "not", .boolean true]).round.exec .fresh =
      (.ok (true, .boolean false), .fresh) := rfl
  have hsecond : (Expr.boolean false).round.exec .fresh = (.ok (false, .boolean false), .fresh) := rfl
  refine conditional_follows _ _ hrun rfl ?_
  intro i e env₁ hrounds
  cases hrounds with
  | refl => rfl
  | step first rest =>
    rw [hfirst] at first
    cases first
    cases rest with
    | refl => rfl
    | step second rest =>
      rw [hsecond] at second
      cases second

end Redex
