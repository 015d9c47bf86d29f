import Redex.Proofs.Conditional

/-!
# `apply` follows its function and its last argument

An `apply` is stepped by stepping its function for as long as that can step, then its last argument,
and the round after that puts the plain call in its place. The arguments between the two are handed
on as they are. A name that stands for a function is taken for it as soon as the last argument
moves, so what the last argument defines makes no difference to the function any more.

* **`round_applyForm_function`**, **`round_applyForm_last`** and **`round_applyForm_of_still`** are the
  rounds of an `apply`: it steps its function, then its last argument, and then becomes the plain
  call.
* **`Rounds.ofFunction`** and **`Rounds.ofLast`** lift rounds: an `apply` makes the rounds of its
  function, and those of its last argument once the function is a procedure.
* **`application_follows`** — so the runs of the two parts are followed one after the other, and the
  round after them gives the plain call.
-/

namespace Redex

variable {env env' : Environment} {function function' last last' g : Expr} {lead items : List Expr}
variable {n : Nat}

/-- An `apply` with its function, its leading arguments and its last one. -/
def applyForm (function : Expr) (lead : List Expr) (last : Expr) : Expr :=
  .sequence (.symbol "apply" :: function :: (lead ++ [last]))

/-! ## Rounds of an `apply` -/

/-- An `apply` steps its function while that can step. -/
theorem round_applyForm_function
    (moved : (step .standard function).exec env = (.ok ⟨true, function'⟩, env'))
    (lead : List Expr) (last : Expr) :
    (applyForm function lead last).round.exec env =
      (.ok (true, applyForm function' lead last), env') :=
  (Rule.applyFunction moved trivial).round

/-- Behind its function an `apply` steps its last argument. -/
theorem round_applyForm_last
    (still : (step .standard function).exec env = (.ok ⟨false, g⟩, env))
    (callable : g.isFunction = true)
    (moved : (step .standard last).exec env = (.ok ⟨true, last'⟩, env')) (lead : List Expr) :
    (applyForm function lead last).round.exec env =
      (.ok (true, applyForm g lead last'), env') :=
  (Rule.applyLast still callable moved trivial).round

/-- An `apply` none of whose parts can step becomes the plain call. -/
theorem round_applyForm_of_still
    (still : (step .standard function).exec env = (.ok ⟨false, g⟩, env))
    (callable : g.isFunction = true)
    (spread : (step .standard last).exec env = (.ok ⟨false, .sequence items⟩, env))
    (lead : List Expr) :
    (applyForm function lead last).round.exec env =
      (.ok (true, .sequence (g :: (lead ++ items))), env) :=
  (Rule.applyCall still callable spread).round

/-- An `apply` makes the rounds of its function. -/
theorem Rounds.ofFunction (h : Rounds Expr.round n function env function' env') (lead : List Expr)
    (last : Expr) :
    Rounds Expr.round n (applyForm function lead last) env (applyForm function' lead last) env' := by
  induction h with
  | refl function env => exact .refl _ env
  | step first rest ih =>
    exact .step (round_applyForm_function (Expr.round_ok_iff.mp first) lead last) ih

/-- An `apply` of a procedure makes the rounds of its last argument. -/
theorem Rounds.ofLast (h : Rounds Expr.round n last env last' env') (callable : g.isFunction = true)
    (lead : List Expr) :
    Rounds Expr.round n (applyForm g lead last) env (applyForm g lead last') env' := by
  induction h with
  | refl last env => exact .refl _ env
  | @step _ _ _ _ env _ _ first rest ih =>
    have hround := round_applyForm_last (step_function callable env) callable
      (Expr.round_ok_iff.mp first) lead
    exact .step hround ih

/-- With the first move of the last argument, the procedure takes the place of what stands for it. -/
theorem Rounds.ofLast_of_still (h : Rounds Expr.round (n + 1) last env last' env')
    (still : (Redex.step .standard function).exec env = (.ok ⟨false, g⟩, env))
    (callable : g.isFunction = true) (lead : List Expr) :
    Rounds Expr.round (n + 1) (applyForm function lead last) env (applyForm g lead last') env' := by
  cases h with
  | step first rest =>
    have hround := round_applyForm_last still callable (Expr.round_ok_iff.mp first) lead
    exact .step hround (rest.ofLast callable lead)

/-! ## The run of an `apply` -/

/-- The run of `f` comes to the procedure `g` after some steps, and the run of `e` behind it to a
sequence. Then an `apply` of `f` to `e` follows the one run and then the other, and takes one round
more to become the plain call of `g`. In every round but the last it is an `apply`, with the function
at that point, or `g`, and the last argument at that point. The leading arguments stay as they are,
and the user layer is that of the two runs. -/
theorem application_follows {f e : Expr} {fBudget eBudget : Nat} {fRun eRun : Run Expr}
    (lead : List Expr) (hf : evaluateExpr .standard fBudget f env = some fRun)
    (hfok : fRun.outcome = .ok g) (callable : g.isFunction = true)
    (he : evaluateExpr .standard eBudget e fRun.env = some eRun)
    (heok : eRun.outcome = .ok (.sequence items)) :
    (∀ i ≤ fRun.steps, ∃ f' env₁, Rounds Expr.round i f env f' env₁ ∧
      Rounds Expr.round i (applyForm f lead e) env (applyForm f' lead e) env₁) ∧
    (∀ i, 0 < i → i ≤ eRun.steps → ∃ e' env₁, Rounds Expr.round i e fRun.env e' env₁ ∧
      Rounds Expr.round (fRun.steps + i) (applyForm f lead e) env (applyForm g lead e') env₁) ∧
    Rounds Expr.round (fRun.steps + eRun.steps + 1) (applyForm f lead e) env
      (.sequence (g :: (lead ++ items))) eRun.env := by
  obtain ⟨f', hfRounds, hfStill⟩ := evaluateExpr_ok hf hfok
  obtain ⟨e', heRounds, heStill⟩ := evaluateExpr_ok he heok
  have hfirst := hfRounds.ofFunction lead e
  -- the rounds of the last argument, from the first on
  have hsecond : ∀ i {e'' env₁}, Rounds Expr.round (i + 1) e fRun.env e'' env₁ →
      Rounds Expr.round (fRun.steps + (i + 1)) (applyForm f lead e) env (applyForm g lead e'') env₁ :=
    fun i _ _ h => hfirst.trans (h.ofLast_of_still hfStill callable lead)
  refine ⟨?_, ?_, ?_⟩
  · intro i hi
    obtain ⟨f'', env₁, h⟩ := hfRounds.upTo hi
    exact ⟨f'', env₁, h, h.ofFunction lead e⟩
  · intro i hpos hi
    obtain ⟨j, rfl⟩ := Nat.exists_eq_add_one_of_ne_zero (Nat.ne_of_gt hpos)
    obtain ⟨e'', env₁, h⟩ := heRounds.upTo hi
    exact ⟨e'', env₁, h, hsecond j h⟩
  · cases hsteps : eRun.steps with
    | zero =>
      -- nothing moved, so the function may still be a name
      rw [hsteps] at heRounds
      obtain ⟨rfl, henv⟩ := heRounds.eq_of_zero
      rw [henv] at heStill ⊢
      exact hfirst.concat (round_applyForm_of_still hfStill callable heStill lead)
    | succ n =>
      rw [hsteps] at heRounds
      exact (hsecond n heRounds).concat
        (round_applyForm_of_still (step_function callable _) callable heStill lead)

/-- In `(apply (if (define not #t) +) p (list not))` the function takes two rounds and binds `not`,
and the last argument takes two more, in which `not` is looked up. -/
theorem application_follows_definition :
    Rounds Expr.round 5
      (applyForm (.sequence [.symbol "if",
          .sequence [.symbol "define", .symbol "not", .boolean true], .symbol "+"])
        [.symbol "p"] (.sequence [.symbol "list", .symbol "not"])) .fresh
      (.sequence [.native (.builtin .add), .symbol "p", .boolean true])
      (Environment.fresh.bindAll [("not", .boolean true)]) := by
  let bound := Environment.fresh.bindAll [("not", .boolean true)]
  have hfunction : evaluateExpr .standard 3 (.sequence [.symbol "if",
      .sequence [.symbol "define", .symbol "not", .boolean true], .symbol "+"]) .fresh =
        some ⟨.ok (.native (.builtin .add)), bound, 2⟩ := rfl
  have hlast : evaluateExpr .standard 3 (.sequence [.symbol "list", .symbol "not"]) bound =
      some ⟨.ok (.sequence [.boolean true]), bound, 2⟩ := rfl
  exact (application_follows [.symbol "p"] hfunction rfl rfl hlast rfl).2.2

end Redex
