import Redex.Proofs.Stepping

/-!
# Ends of runs

A run is given a budget of rounds, and whether a budget suffices is of no interest once one does.
Here the budget is left out: a run ends with an outcome or it has no end.

* **`Ends`** follows a run round by round: a round fails, makes no step, or makes a step behind
  which the run ends.
* **`ends_iff`** — that is what a run within some budget comes to, and **`Ends.runFrom`** — every
  budget beyond the steps of the run suffices.
* **`Rounds`** counts rounds that step, and **`runFrom_rounds`** splits a run that came to its end
  into these and the round that ended it.
* **`runFrom_of_measure`** — rounds that make a measure smaller come to an end.
* **`Ends.congr`** and **`ends_step_iff`** — the end of a run depends on its next round only.
* **`Program.Evaluates`** and **`Expr.Evaluates`** say it of the two evaluations.
-/

namespace Redex

section Ends

variable {α : Type} {next : α → Stepping (Bool × α)} {a b : α} {env env₁ env' : Environment}
variable {outcome : Except Error α}

/-- Repeated rounds come to an end, with an outcome and in the environment that they leave. -/
inductive Ends (next : α → Stepping (Bool × α)) :
    α → Environment → Except Error α → Environment → Prop where
  | failed {a : α} {env env' : Environment} {err : Error}
      (round : (next a).exec env = (.error err, env')) : Ends next a env (.error err) env'
  | still {a b : α} {env env' : Environment}
      (round : (next a).exec env = (.ok (false, b), env')) : Ends next a env (.ok b) env'
  | step {a b : α} {env env₁ env' : Environment} {outcome : Except Error α}
      (round : (next a).exec env = (.ok (true, b), env₁)) (rest : Ends next b env₁ outcome env') :
      Ends next a env outcome env'

/-- The end of a run depends on its next round only. -/
theorem Ends.congr {env₂ : Environment} (h : Ends next a env outcome env')
    (hround : (next b).exec env₂ = (next a).exec env) : Ends next b env₂ outcome env' := by
  cases h with
  | failed round => exact .failed (hround.trans round)
  | still round => exact .still (hround.trans round)
  | step round rest => exact .step (hround.trans round) rest

theorem ends_congr {env₂ : Environment} (hround : (next b).exec env₂ = (next a).exec env) :
    Ends next b env₂ outcome env' ↔ Ends next a env outcome env' :=
  ⟨fun h => h.congr hround.symm, fun h => h.congr hround⟩

theorem ends_step_iff (hround : (next a).exec env = (.ok (true, b), env₁)) :
    Ends next a env outcome env' ↔ Ends next b env₁ outcome env' := by
  constructor
  · intro h
    cases h with
    | failed round =>
      rw [hround] at round
      cases round
    | still round =>
      rw [hround] at round
      cases round
    | step round rest =>
      rw [hround] at round
      cases round
      exact rest
  · exact .step hround

/-- A run has one end. -/
theorem Ends.unique {outcome' : Except Error α} {env'' : Environment}
    (h : Ends next a env outcome env') (h' : Ends next a env outcome' env'') :
    outcome' = outcome ∧ env'' = env' := by
  induction h with
  | failed round =>
    cases h' with
    | failed round' =>
      rw [round] at round'
      cases round'
      exact ⟨rfl, rfl⟩
    | still round' =>
      rw [round] at round'
      cases round'
    | step round' rest =>
      rw [round] at round'
      cases round'
  | still round =>
    cases h' with
    | failed round' =>
      rw [round] at round'
      cases round'
    | still round' =>
      rw [round] at round'
      cases round'
      exact ⟨rfl, rfl⟩
    | step round' rest =>
      rw [round] at round'
      cases round'
  | step round rest ih => exact ih ((ends_step_iff round).mp h')

/-! ## Rounds -/

variable {c : α} {n : Nat}

/-- So many rounds, each of which makes a step. -/
inductive Rounds (next : α → Stepping (Bool × α)) :
    Nat → α → Environment → α → Environment → Prop where
  | refl (a : α) (env : Environment) : Rounds next 0 a env a env
  | step {n : Nat} {a b c : α} {env env₁ env' : Environment}
      (first : (next a).exec env = (.ok (true, b), env₁)) (rest : Rounds next n b env₁ c env') :
      Rounds next (n + 1) a env c env'

theorem Rounds.concat (h : Rounds next n a env b env₁)
    (last : (next b).exec env₁ = (.ok (true, c), env')) : Rounds next (n + 1) a env c env' := by
  induction h with
  | refl a env => exact .step last (.refl c env')
  | step first rest ih => exact .step first (ih last)

theorem Rounds.eq_of_zero (h : Rounds next 0 a env b env') : b = a ∧ env' = env := by
  cases h with
  | refl => exact ⟨rfl, rfl⟩

theorem Rounds.trans {m : Nat} (h : Rounds next m a env b env₁) (h' : Rounds next n b env₁ c env') :
    Rounds next (m + n) a env c env' := by
  induction h with
  | refl a env => rwa [Nat.zero_add]
  | @step m a b _ _ _ _ first rest ih =>
    rw [Nat.succ_add]
    exact .step first (ih h')

/-- The rounds up to some point of a sequence of rounds. -/
theorem Rounds.upTo (h : Rounds next n a env b env') {i : Nat} (hi : i ≤ n) :
    ∃ c env₁, Rounds next i a env c env₁ := by
  induction h generalizing i with
  | refl a env =>
    obtain rfl := Nat.le_zero.mp hi
    exact ⟨a, env, .refl a env⟩
  | @step n a b c env env₁ env' first rest ih =>
    cases i with
    | zero => exact ⟨a, env, .refl a env⟩
    | succ i =>
      obtain ⟨d, env₂, hrounds⟩ := ih (Nat.le_of_succ_le_succ hi)
      exact ⟨d, env₂, .step first hrounds⟩

theorem Rounds.ends (h : Rounds next n a env b env₁) (rest : Ends next b env₁ outcome env') :
    Ends next a env outcome env' := by
  induction h with
  | refl a env => exact rest
  | step first _ ih => exact .step first (ih rest)

/-- A run that came to its end: its rounds, and the one that ended it. -/
theorem runFrom_rounds {budget steps : Nat} {run : Run α}
    (h : runFrom next budget steps a env = some run) :
    ∃ n last env₁, Rounds next n a env last env₁ ∧ run.steps = steps + n ∧
      ((∃ err, run.outcome = .error err ∧ (next last).exec env₁ = (.error err, run.env)) ∨
        ∃ result, run.outcome = .ok result ∧
          (next last).exec env₁ = (.ok (false, result), run.env)) := by
  induction budget generalizing steps a env with
  | zero => cases h
  | succ budget ih =>
    rw [Redex.runFrom] at h
    split at h
    · rename_i err env₁ hexec
      cases h
      exact ⟨0, a, env, .refl _ _, rfl, Or.inl ⟨err, rfl, hexec⟩⟩
    · rename_i b env₁ hexec
      -- the rest of the run goes on from `b`, with one step more
      obtain ⟨n, last, env₂, hrounds, hcount, hend⟩ := ih h
      refine ⟨n + 1, last, env₂, .step hexec hrounds, ?_, hend⟩
      omega
    · rename_i result env₁ hexec
      cases h
      exact ⟨0, a, env, .refl _ _, rfl, Or.inr ⟨result, rfl, hexec⟩⟩

/-! ## Budgets -/

theorem Ends.of_runFrom {budget steps : Nat} {run : Run α}
    (h : runFrom next budget steps a env = some run) : Ends next a env run.outcome run.env := by
  obtain ⟨n, last, env₁, hrounds, -, ⟨err, houtcome, hend⟩ | ⟨result, houtcome, hend⟩⟩ :=
    runFrom_rounds h
  · rw [houtcome]
    exact hrounds.ends (.failed hend)
  · rw [houtcome]
    exact hrounds.ends (.still hend)

/-- Rounds that keep an invariant and make a measure smaller come to an end: there are at most as many
steps as the measure says. -/
theorem runFrom_of_measure {I : α → Environment → Prop} {μ : α → Nat}
    (decreases : ∀ {a b env env'}, I a env → (next a).exec env = (.ok (true, b), env') →
      I b env' ∧ μ b < μ a) {budget : Nat} (steps : Nat) (h : I a env) (hbudget : μ a < budget) :
    ∃ run, runFrom next budget steps a env = some run ∧ run.steps ≤ steps + μ a := by
  induction budget generalizing steps a env with
  | zero => exact absurd hbudget (Nat.not_lt_zero _)
  | succ budget ih =>
    rw [Redex.runFrom]
    split
    · exact ⟨_, rfl, Nat.le_add_right steps _⟩
    · rename_i b env₁ hround
      obtain ⟨hb, hlt⟩ := decreases h hround
      obtain ⟨run, hrun, hsteps⟩ := ih (steps + 1) hb (by omega)
      refine ⟨run, hrun, ?_⟩
      omega
    · exact ⟨_, rfl, Nat.le_add_right steps _⟩

/-- Every budget beyond the steps of a run suffices. -/
theorem Ends.runFrom (h : Ends next a env outcome env') :
    ∃ n, ∀ budget steps, n < budget →
      Redex.runFrom next budget steps a env = some ⟨outcome, env', steps + n⟩ := by
  induction h with
  | failed round =>
    refine ⟨0, fun budget steps hlt => ?_⟩
    obtain ⟨budget, rfl⟩ := Nat.exists_eq_succ_of_ne_zero (Nat.ne_of_gt hlt)
    rw [Redex.runFrom, round]
    rfl
  | still round =>
    refine ⟨0, fun budget steps hlt => ?_⟩
    obtain ⟨budget, rfl⟩ := Nat.exists_eq_succ_of_ne_zero (Nat.ne_of_gt hlt)
    rw [Redex.runFrom, round]
    rfl
  | step round rest ih =>
    obtain ⟨n, hn⟩ := ih
    refine ⟨n + 1, fun budget steps hlt => ?_⟩
    obtain ⟨budget, rfl⟩ := Nat.exists_eq_succ_of_ne_zero (Nat.ne_of_gt (Nat.zero_lt_of_lt hlt))
    have hrest := hn budget (steps + 1) (by omega)
    have hcount : steps + 1 + n = steps + (n + 1) := by omega
    rw [hcount] at hrest
    rw [Redex.runFrom, round]
    exact hrest

/-- A run that ends: a budget is too small for it, or brings it to its end. -/
theorem Ends.runFrom_cases (h : Ends next a env outcome env') :
    ∃ n, ∀ budget, budget ≤ n ∧ Redex.runFrom next budget 0 a env = none ∨
      ∃ steps, Redex.runFrom next budget 0 a env = some ⟨outcome, env', steps⟩ := by
  obtain ⟨n, hn⟩ := h.runFrom
  refine ⟨n, fun budget => ?_⟩
  rcases Nat.lt_or_ge n budget with hlt | hle
  · exact Or.inr ⟨_, hn budget 0 hlt⟩
  · cases hrun : Redex.runFrom next budget 0 a env with
    | none => exact Or.inl ⟨hle, rfl⟩
    | some run =>
      -- a smaller budget may do, but to no other end
      obtain ⟨houtcome, henv⟩ := h.unique (Ends.of_runFrom hrun)
      refine Or.inr ⟨run.steps, ?_⟩
      rw [← houtcome, ← henv]

/-- A run comes to its end if and only if some budget suffices for it. -/
theorem ends_iff : Ends next a env outcome env' ↔
    ∃ budget run, runFrom next budget 0 a env = some run ∧ run.outcome = outcome ∧
      run.env = env' := by
  constructor
  · intro h
    obtain ⟨n, hn⟩ := h.runFrom
    exact ⟨n + 1, _, hn (n + 1) 0 (Nat.lt_succ_self n), rfl, rfl⟩
  · rintro ⟨budget, run, hrun, rfl, rfl⟩
    exact .of_runFrom hrun

end Ends

/-! ## Evaluations -/

variable {env env' : Environment}

/-- The evaluation of a program comes to an end: with an outcome, in the environment that it
leaves. -/
def Program.Evaluates (program : Program) (env : Environment) (outcome : Except Error Program)
    (env' : Environment) : Prop :=
  ∃ budget run, evaluate .standard budget program env = some run ∧ run.outcome = outcome ∧
    run.env = env'

/-- The evaluation of an expression comes to an end: with an outcome, in the environment that it
leaves. -/
def Expr.Evaluates (e : Expr) (env : Environment) (outcome : Except Error Expr)
    (env' : Environment) : Prop :=
  ∃ budget run, evaluateExpr .standard budget e env = some run ∧ run.outcome = outcome ∧
    run.env = env'

theorem Program.evaluates_iff {program : Program} {outcome : Except Error Program} :
    program.Evaluates env outcome env' ↔ Ends (stepProgram .standard) program env outcome env' :=
  ends_iff.symm

/-- A round of the evaluation of an expression. -/
def Expr.round (e : Expr) : Stepping (Bool × Expr) := do
  let s ← step .standard e
  return (s.stepped, s.expr)

theorem Expr.evaluates_iff {e : Expr} {outcome : Except Error Expr} :
    e.Evaluates env outcome env' ↔ Ends Expr.round e env outcome env' :=
  ends_iff.symm

/-- A round is a step of the expression. -/
theorem Expr.round_ok_iff {e e' : Expr} {stepped : Bool} :
    e.round.exec env = (.ok (stepped, e'), env') ↔
      (step .standard e).exec env = (.ok ⟨stepped, e'⟩, env') := by
  unfold Expr.round
  rw [Stepping.exec_bind]
  cases (step .standard e).exec env with
  | mk result env₁ =>
    cases result with
    | error err => simp
    | ok s =>
      obtain ⟨moved, e₁⟩ := s
      simp

theorem Expr.round_error_iff {e : Expr} {err : Error} :
    e.round.exec env = (.error err, env') ↔
      (step .standard e).exec env = (.error err, env') := by
  unfold Expr.round
  rw [Stepping.exec_bind]
  cases (step .standard e).exec env with
  | mk result env₁ =>
    cases result with
    | error err => simp
    | ok s => simp

end Redex
