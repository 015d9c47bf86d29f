import Mathlib.Data.List.Forall2
import Redex.Proofs.Program
import Redex.Proofs.Rewriting.OneStep

/-!
# Calls by value

What comes of a call whose head is a procedure and whose arguments still have to be evaluated. The
steps of the arguments are interleaved: a special form in a later argument is expanded before a call
in an earlier one is applied, closures are built on the way, and symbols become the procedures that
they name. Still every argument goes the way of its own run, and the procedure is applied last.

* **`Expr.StepsIn`** counts steps that leave the layers as they are, and **`EvaluatesIn`** says that
  a run ends with a value and that all its steps are of that kind.
* **`Course`** is the way of an argument in terms of the two passes. It survives what happens to an
  argument while another one steps: **`Course.handedOn`**, **`Course.named`**.
* **`Courses.expandItems_cases`** and **`Courses.reduceItems_cases`** follow the passes over the
  arguments, and **`Courses.step`** is a step of the call: one argument moves on by one, or all are
  done and the procedure is applied.
* **`call_by_value`** — the call comes to the outcome of the application, if the runs are steady.
* **`call_by_value_early`** — where a run is not steady, the procedure may be applied too early.
-/

namespace Redex

variable {env env' : Environment} {e e' e₁ v : Expr} {n : Nat}

/-! ## Runs that leave the layers alone -/

/-- An expression comes to another by the given number of steps, none of which changes the layers. -/
inductive Expr.StepsIn (env : Environment) : Nat → Expr → Expr → Prop where
  | refl (e : Expr) : StepsIn env 0 e e
  | step {n : Nat} {e next last : Expr}
      (first : (Redex.step .standard e).exec env = (.ok ⟨true, next⟩, env))
      (rest : StepsIn env n next last) : StepsIn env (n + 1) e last

/-- No step of the run of an expression changes the layers. -/
def RunsInPlace (env : Environment) (e : Expr) : Prop :=
  ∀ n e' e'' env', e.StepsIn env n e' →
    (step .standard e').exec env = (.ok ⟨true, e''⟩, env') → env' = env

/-- The run of an expression ends with a value, and none of its steps changes the layers. -/
structure EvaluatesIn (env : Environment) (e v : Expr) : Prop where
  ends : ∃ budget run, evaluateExpr .standard budget e env = some run ∧ run.outcome = .ok v
  inPlace : RunsInPlace env e

/-- In no form of the run of an expression does a sequence that the passes reach become a special
form when the results of definitions leave it. -/
def SteadyRun (env : Environment) (e : Expr) : Prop :=
  ∀ n e', e.StepsIn env n e' → InSightSteady e'

/-- Repeated steps, none of which changes the layers, end with an outcome: the last of them gives the
result, or fails. -/
def ComesTo (env : Environment) (e : Expr) (outcome : Except Error Expr) : Prop :=
  ∃ n last, e.StepsIn env n last ∧
    (step .standard last).exec env = (outcome.map fun result => ⟨true, result⟩, env)

/-! A run from its first step on: what holds of the form at its start and of the run behind the first
step holds of the whole. -/

theorem Expr.StepsIn.cases_first {next last : Expr}
    (first : (Redex.step .standard e).exec env = (.ok ⟨true, next⟩, env'))
    (h : e.StepsIn env n last) :
    last = e ∨ ∃ m, next.StepsIn env m last := by
  cases h with
  | refl => exact Or.inl rfl
  | step first' rest =>
    rw [first] at first'
    cases first'
    exact Or.inr ⟨_, rest⟩

theorem Expr.StepsIn.eq_of_still {last : Expr}
    (still : (Redex.step .standard e).exec env = (.ok ⟨false, e'⟩, env'))
    (h : e.StepsIn env n last) : last = e := by
  cases h with
  | refl => rfl
  | step first rest =>
    rw [still] at first
    cases first

theorem RunsInPlace.of_still (still : (step .standard e).exec env = (.ok ⟨false, e'⟩, env)) :
    RunsInPlace env e := by
  intro n x y env' hsteps hstep
  rw [hsteps.eq_of_still still, still] at hstep
  cases hstep

theorem RunsInPlace.of_step (first : (step .standard e).exec env = (.ok ⟨true, e'⟩, env))
    (rest : RunsInPlace env e') : RunsInPlace env e := by
  intro n x y env' hsteps hstep
  rcases hsteps.cases_first first with rfl | ⟨m, hsteps⟩
  · rw [first] at hstep
    cases hstep
    rfl
  · exact rest m x y env' hsteps hstep

theorem SteadyRun.of_still (still : (step .standard e).exec env = (.ok ⟨false, e'⟩, env))
    (h : InSightSteady e) : SteadyRun env e := by
  intro n x hsteps
  rw [hsteps.eq_of_still still]
  exact h

theorem SteadyRun.of_step (first : (step .standard e).exec env = (.ok ⟨true, e'⟩, env))
    (h : InSightSteady e) (rest : SteadyRun env e') : SteadyRun env e := by
  intro n x hsteps
  rcases hsteps.cases_first first with rfl | ⟨m, hsteps⟩
  · exact h
  · exact rest m x hsteps

theorem ComesTo.cases_first {outcome : Except Error Expr}
    (first : (step .standard e).exec env = (.ok ⟨true, e'⟩, env)) (h : ComesTo env e outcome) :
    outcome = .ok e' ∨ ComesTo env e' outcome := by
  obtain ⟨n, last, hsteps, hlast⟩ := h
  rcases hsteps.cases_first first with rfl | ⟨m, hsteps⟩
  · rw [first] at hlast
    cases outcome with
    | error err => cases hlast
    | ok result =>
      cases hlast
      exact Or.inl rfl
  · exact Or.inr ⟨m, last, hsteps, hlast⟩

theorem ComesTo.not_of_still {outcome : Except Error Expr}
    (still : (step .standard e).exec env = (.ok ⟨false, e'⟩, env)) : ¬ ComesTo env e outcome := by
  rintro ⟨n, last, hsteps, hlast⟩
  rw [hsteps.eq_of_still still, still] at hlast
  cases outcome <;> cases hlast

theorem InSightSteady.leaf (leaf : ∀ items, e ≠ .sequence items) : InSightSteady e := by
  intro items hstands
  exact absurd (hstands.eq_of_leaf leaf).symm (leaf items)

/-- A sequence that nothing leaves stays what it is. -/
theorem InSightSteady.sequence {items : List Expr} (whole : rebuild items = items)
    (all : ∀ x ∈ items, InSightSteady x) : InSightSteady (.sequence items) := by
  intro inner hstands plain
  rcases hstands.sequence_cases with heq | ⟨-, x, hx, hstands⟩
  · cases heq
    rwa [whole]
  · exact all x hx inner hstands plain

/-! ## The course of an argument -/

/-- The way of an expression to its value, by what the passes do to it: the first pass moves it on, or
prepares it for the second, which moves it on or finds it done. Behind the first pass there is
nothing left to do for that pass itself. -/
inductive Course (env : Environment) : Nat → Expr → Expr → Prop where
  | done {e e₁ : Expr} (handed : HandedOn env e e₁)
      (again : (expand .standard e₁).exec env = (.ok .unchanged, env)) (reduced : Reduced env e₁) :
      Course env 0 e (env.named e₁)
  | expanded {n : Nat} {e e' v : Expr}
      (moved : (expand .standard e).exec env = (.ok (.visible e'), env))
      (rest : Course env n e' v) : Course env (n + 1) e v
  | reduced {n : Nat} {e e₁ e' v : Expr} (handed : HandedOn env e e₁)
      (again : (expand .standard e₁).exec env = (.ok .unchanged, env))
      (moved : reduce .standard env e₁ = .ok ⟨true, e'⟩) (rest : Course env n e' v) :
      Course env (n + 1) e v

theorem HandedOn.of_unchanged (h : (expand .standard e).exec env = (.ok .unchanged, env)) :
    HandedOn env e e :=
  .inl ⟨h, rfl⟩

theorem HandedOn.not_visible (h : HandedOn env e e₁) :
    (expand .standard e).exec env ≠ (.ok (.visible e'), env') := by
  rcases h with ⟨h, -⟩ | h
  · rw [h]
    nofun
  · rw [h]
    nofun

/-- The first pass hands on one tree. -/
theorem HandedOn.unique {e₂ : Expr} (h : HandedOn env e e₁) (h' : HandedOn env e e₂) : e₁ = e₂ := by
  rcases h with ⟨h, rfl⟩ | h
  · rcases h' with ⟨-, rfl⟩ | h'
    · rfl
    · rw [h] at h'
      cases h'
  · rcases h' with ⟨h', -⟩ | h'
    · rw [h] at h'
      cases h'
    · rw [h] at h'
      cases h'
      rfl

/-- An argument in which closures are built while another argument steps stays on its course. -/
theorem Course.handedOn (h : Course env n e v) (handed : HandedOn env e e₁) :
    Course env n e₁ v ∧ (expand .standard e₁).exec env = (.ok .unchanged, env) := by
  cases h with
  | done handed' again reduced =>
    obtain rfl := handed.unique handed'
    exact ⟨.done (.of_unchanged again) again reduced, again⟩
  | expanded moved rest => exact absurd moved handed.not_visible
  | reduced handed' again moved rest =>
    obtain rfl := handed.unique handed'
    exact ⟨.reduced (.of_unchanged again) again moved rest, again⟩

/-- The value of an argument that neither pass moves is what it stands for. -/
theorem Course.eq_named (h : Course env n e v)
    (still : (expand .standard e).exec env = (.ok .unchanged, env)) (reduced : Reduced env e) :
    n = 0 ∧ v = env.named e := by
  have hself := HandedOn.of_unchanged still
  cases h with
  | done handed again _ =>
    obtain rfl := hself.unique handed
    exact ⟨rfl, rfl⟩
  | expanded moved rest => exact absurd moved hself.not_visible
  | reduced handed again moved rest =>
    obtain rfl := hself.unique handed
    rw [reduced.reduce_eq] at moved
    cases moved

/-- An argument that was taken for the procedure that it names is done. -/
theorem Course.named (still : (expand .standard e).exec env = (.ok .unchanged, env))
    (reduced : Reduced env e) : Course env 0 (env.named e) (env.named e) := by
  have hstill := expand_named still
  have hdone := Course.done (.of_unchanged hstill) hstill reduced.named
  rwa [env.named_named] at hdone

theorem Course.eq_undefined (h : Course env n .undefined v) : v = .undefined :=
  (h.eq_named rfl ⟨_, rfl⟩).2

/-- A step in front of a course. Building closures is a step of its own where nothing else happens,
but then there is nothing to do for the passes behind it. -/
theorem Course.of_step (steady : InSightSteady e)
    (h : (step .standard e).exec env = (.ok ⟨true, e'⟩, env)) (rest : Course env n e' v) :
    ∃ m, Course env m e v := by
  have hspec := expand_spec e env
  cases hexpand : (expand .standard e).exec env with
  | mk result env₁ =>
    rw [hexpand] at hspec
    cases hspec with
    | failed err =>
      rw [step_of_failed hexpand] at h
      cases h
    | visible silent way rule first =>
      rw [step_of_visible hexpand] at h
      cases h
      exact ⟨n + 1, .expanded hexpand rest⟩
    | unchanged quiet =>
      rw [step_of_unchanged hexpand] at h
      have hmoved := (Prod.mk.inj h).1
      exact ⟨n + 1, .reduced (.of_unchanged hexpand) hexpand hmoved rest⟩
    | @silent e₁ silent quiet =>
      have again := expand_again e steady hexpand
      rw [step_of_silent hexpand] at h
      cases hreduce : reduce .standard env e₁ with
      | error err =>
        rw [hreduce] at h
        cases h
      | ok reduced =>
        obtain ⟨stepped, e₂⟩ := reduced
        rw [hreduce] at h
        cases h
        cases stepped with
        | true => exact ⟨n + 1, .reduced (.inr hexpand) again hreduce rest⟩
        | false =>
          obtain rfl := reduce_still hreduce
          have hreduced : Reduced env e₁ := ⟨_, hreduce⟩
          have hvalue := (rest.eq_named (expand_named again) hreduced.named).2
          rw [hvalue, env.named_named]
          exact ⟨0, .done (.inr hexpand) again hreduced⟩

/-- The run of a steady expression is a course. -/
theorem Course.of_run {budget steps : Nat} {run : Run Expr}
    (h : runFrom (fun e => do let s ← step .standard e; return (s.stepped, s.expr)) budget steps e
      env = some run) (hok : run.outcome = .ok v) (inPlace : RunsInPlace env e)
    (steady : SteadyRun env e) : ∃ n, Course env n e v := by
  induction budget generalizing steps e with
  | zero => cases h
  | succ budget ih =>
    rw [runFrom, Stepping.exec_bind] at h
    have hframed := step_framed e env
    cases hstep : (step .standard e).exec env with
    | mk result env₁ =>
      rw [hstep] at h hframed
      cases hframed with
      | failed err =>
        cases h
        cases hok
      | still e' =>
        cases h
        cases hok
        obtain ⟨hexpand, hreduced, rfl, -⟩ := step_still hstep
        exact ⟨0, .done (.of_unchanged hexpand) hexpand hreduced⟩
      | moved e' env₁ =>
        obtain rfl := inPlace 0 e e' env₁ (.refl e) hstep
        -- the rest of the run starts one step later
        have hinPlace : RunsInPlace env₁ e' := fun n x y env' hsteps =>
          inPlace (n + 1) x y env' (.step hstep hsteps)
        have hsteady : SteadyRun env₁ e' := fun n x hsteps => steady (n + 1) x (.step hstep hsteps)
        obtain ⟨n, hrest⟩ := ih h hinPlace hsteady
        exact Course.of_step (steady 0 e (.refl e)) hstep hrest

theorem EvaluatesIn.course (h : EvaluatesIn env e v) (steady : SteadyRun env e) :
    ∃ n, Course env n e v := by
  obtain ⟨⟨budget, run, hrun, hok⟩, inPlace⟩ := h
  exact Course.of_run hrun hok inPlace steady

/-! ## The arguments of a call -/

/-- The courses of the arguments of a call, and the number of moves that are left in all of them. -/
inductive Courses (env : Environment) : Nat → List Expr → List Expr → Prop where
  | nil : Courses env 0 [] []
  | cons {m n : Nat} {x v : Expr} {xs vs : List Expr} (first : Course env m x v)
      (rest : Courses env n xs vs) : Courses env (m + n) (x :: xs) (v :: vs)

variable {xs ys vs : List Expr}

/-- What is on the way to a value is not the result of a definition. -/
theorem Courses.defined (h : Courses env n xs vs) (defined : ∀ v ∈ vs, v ≠ .undefined) :
    ∀ x ∈ xs, x ≠ .undefined := by
  induction h with
  | nil => nofun
  | @cons m n x v xs vs first rest ih =>
    obtain ⟨hv, hvs⟩ := List.forall_mem_cons.mp defined
    refine List.forall_mem_cons.mpr ⟨?_, ih hvs⟩
    rintro rfl
    exact hv first.eq_undefined

/-- The list that the first pass over the items hands to the second. -/
def ItemsHandedOn (env : Environment) (xs ys : List Expr) : Prop :=
  ((expandItems .standard xs).exec env = (.ok .unchanged, env) ∧ ys = xs) ∨
    (expandItems .standard xs).exec env = (.ok (.silent ys), env)

theorem ItemsHandedOn.cons {x y : Expr} (first : HandedOn env x y) (rest : ItemsHandedOn env xs ys) :
    ItemsHandedOn env (x :: xs) (y :: ys) := by
  unfold ItemsHandedOn
  rcases first with ⟨hx, rfl⟩ | hx
  · rw [expandItems_cons hx rfl]
    rcases rest with ⟨hxs, rfl⟩ | hxs
    · rw [Stepping.exec_bind_of_ok hxs]
      exact Or.inl ⟨rfl, rfl⟩
    · rw [Stepping.exec_bind_of_ok hxs]
      exact Or.inr rfl
  · rw [expandItems_cons hx rfl]
    rcases rest with ⟨hxs, rfl⟩ | hxs
    · rw [Stepping.exec_bind_of_ok hxs]
      exact Or.inr rfl
    · rw [Stepping.exec_bind_of_ok hxs]
      exact Or.inr rfl

theorem ItemsHandedOn.sequence (h : ItemsHandedOn env xs ys)
    (plain : MacroTable.standard.isMacroCall xs = false) (whole : rebuild ys = ys) :
    HandedOn env (.sequence xs) (.sequence ys) := by
  unfold HandedOn
  rw [expand_items plain]
  rcases h with ⟨hitems, rfl⟩ | hitems
  · rw [Stepping.exec_bind_of_ok hitems]
    exact Or.inl ⟨rfl, rfl⟩
  · rw [Stepping.exec_bind_of_ok hitems]
    refine Or.inr ?_
    rw [Change.enclose, whole]
    rfl

/-- A step whose second pass steps, whether or not the first has built closures. -/
theorem step_of_handedOn {outcome : Except Error Expr} (handed : HandedOn env e e₁)
    (h : reduce .standard env e₁ = outcome.map fun result => ⟨true, result⟩) :
    (step .standard e).exec env = (outcome.map fun result => ⟨true, result⟩, env) := by
  rcases handed with ⟨hexpand, rfl⟩ | hexpand
  · rw [step_of_unchanged hexpand, h]
  · rw [step_of_silent hexpand, h]
    cases outcome <;> rfl

theorem expandItems_cons_visible {x y : Expr} (first : HandedOn env x y)
    (rest : (expandItems .standard xs).exec env = (.ok (.visible ys), env)) :
    (expandItems .standard (x :: xs)).exec env = (.ok (.visible (y :: ys)), env) := by
  rcases first with ⟨hx, rfl⟩ | hx
  · rw [expandItems_cons hx rfl, Stepping.exec_bind_of_ok rest]
    rfl
  · rw [expandItems_cons hx rfl, Stepping.exec_bind_of_ok rest]
    rfl

/-- An argument on its course is moved by the first pass or handed on by it. -/
theorem Course.expand_cases (h : Course env n e v) :
    (∃ e' m, (expand .standard e).exec env = (.ok (.visible e'), env) ∧ n = m + 1 ∧
      Course env m e' v) ∨ ∃ e₁, HandedOn env e e₁ := by
  cases h with
  | done handed again reduced => exact Or.inr ⟨_, handed⟩
  | expanded moved rest => exact Or.inl ⟨_, _, moved, rfl, rest⟩
  | reduced handed again moved rest => exact Or.inr ⟨_, handed⟩

/-- The first pass over arguments on their courses moves one of them, or hands all of them on. -/
theorem Courses.expandItems_cases (h : Courses env n xs vs) :
    (∃ ys m, (expandItems .standard xs).exec env = (.ok (.visible ys), env) ∧ n = m + 1 ∧
      Courses env m ys vs) ∨
    ∃ ys, ItemsHandedOn env xs ys ∧ Courses env n ys vs ∧
      ∀ y ∈ ys, (expand .standard y).exec env = (.ok .unchanged, env) := by
  induction h with
  | nil =>
    refine Or.inr ⟨[], Or.inl ⟨?_, rfl⟩, .nil, nofun⟩
    rw [expandItems]
    rfl
  | @cons m n x v xs vs first rest ih =>
    rcases first.expand_cases with ⟨x', m', hx, rfl, hfirst⟩ | ⟨y, handed⟩
    · refine Or.inl ⟨x' :: xs, m' + n, ?_, by omega, .cons hfirst rest⟩
      rw [expandItems, consPass, Stepping.exec_bind_of_ok hx]
      rfl
    · obtain ⟨hfirst, hy⟩ := first.handedOn handed
      rcases ih with ⟨ys, k, hys, rfl, hrest⟩ | ⟨ys, hys, hrest, hstill⟩
      · exact Or.inl ⟨y :: ys, m + k, expandItems_cons_visible handed hys, by omega,
          .cons hfirst hrest⟩
      · exact Or.inr ⟨y :: ys, .cons handed hys, .cons hfirst hrest,
          List.forall_mem_cons.mpr ⟨hy, hstill⟩⟩

/-- The second pass over arguments on their courses moves one of them, or all are done. -/
theorem Courses.reduceItems_cases (h : Courses env n xs vs)
    (still : ∀ x ∈ xs, (expand .standard x).exec env = (.ok .unchanged, env)) :
    (∃ ys m, reduceItems .standard env xs = .ok (true, ys) ∧ n = m + 1 ∧ Courses env m ys vs) ∨
      n = 0 ∧ reduceItems .standard env xs = .ok (false, vs) := by
  induction h with
  | nil => exact Or.inr ⟨rfl, rfl⟩
  | @cons m n x v xs vs first rest ih =>
    obtain ⟨hx, hxs⟩ := List.forall_mem_cons.mp still
    have hself := HandedOn.of_unchanged hx
    cases first with
    | expanded moved rest => exact absurd moved hself.not_visible
    | @reduced m' _ x₁ x' _ handed again moved hfirst =>
      obtain rfl := hself.unique handed
      refine Or.inl ⟨x' :: xs, m' + n, ?_, by omega, .cons hfirst rest⟩
      rw [reduceItems, moved]
      rfl
    | @done _ x₁ handed again reduced =>
      obtain rfl := hself.unique handed
      have hdone := Course.named hx reduced
      rw [reduceItems, reduced.reduce_eq]
      rcases ih hxs with ⟨ys, k, hys, rfl, hrest⟩ | ⟨rfl, hys⟩
      · refine Or.inl ⟨env.named x :: ys, 0 + k, ?_, by omega, .cons hdone hrest⟩
        simp only [bind, Except.bind, hys]
        rfl
      · refine Or.inr ⟨rfl, ?_⟩
        simp only [bind, Except.bind, hys]
        rfl

/-! ## Steps of the call -/

section Call

variable {g : Expr}

theorem isMacroCall_function (hg : g.isFunction = true) (xs : List Expr) :
    MacroTable.standard.isMacroCall (g :: xs) = false :=
  MacroTable.isMacroCall_eq_false
    (MacroTable.rule?_eq_none_of_not_symbol _ (ne_symbol_of_isFunction hg)) xs

theorem rebuild_call (hg : g.isFunction = true) (defined : ∀ x ∈ xs, x ≠ .undefined) :
    rebuild (g :: xs) = g :: xs := by
  refine List.filter_eq_self.mpr (List.forall_mem_cons.mpr ⟨?_, ?_⟩)
  · cases g with
    | undefined => cases hg
    | _ => rfl
  · intro x hx
    cases x with
    | undefined => exact absurd rfl (defined _ hx)
    | _ => rfl

/-- The second pass on the call: one argument moves, or the procedure is applied. -/
theorem Courses.reduce (hg : g.isFunction = true) (h : Courses env n xs vs)
    (defined : ∀ v ∈ vs, v ≠ .undefined)
    (still : ∀ x ∈ xs, (expand .standard x).exec env = (.ok .unchanged, env)) :
    (∃ ys m, Redex.reduce .standard env (.sequence (g :: xs)) = .ok ⟨true, .sequence (g :: ys)⟩ ∧
      n = m + 1 ∧ Courses env m ys vs) ∨
    n = 0 ∧ Redex.reduce .standard env (.sequence (g :: xs)) =
      (applyCall g vs).map fun result => ⟨true, result⟩ := by
  have hhead : Redex.reduce .standard env g = .ok ⟨false, g⟩ :=
    reduce_leaf (ne_symbol_of_isFunction hg) (ne_sequence_of_isFunction hg)
  rw [reduce_items (isMacroCall_function hg xs), reduceItems, hhead]
  simp only [bind, Except.bind, Bool.false_eq_true, if_false]
  rcases h.reduceItems_cases still with ⟨ys, m, hys, rfl, hrest⟩ | ⟨rfl, hvs⟩
  · simp only [hys, pure, Except.pure, rebuild_call hg (hrest.defined defined)]
    exact Or.inl ⟨ys, m, rfl, rfl, hrest⟩
  · refine Or.inr ⟨rfl, ?_⟩
    simp only [hvs, pure, Except.pure, rebuild_call hg defined, hg, if_true]

/-- A step of the call: one argument moves on by one, or all are done and the procedure is applied. -/
theorem Courses.step (hg : g.isFunction = true) (h : Courses env n xs vs)
    (defined : ∀ v ∈ vs, v ≠ .undefined) :
    (∃ ys m, (Redex.step .standard (.sequence (g :: xs))).exec env =
        (.ok ⟨true, .sequence (g :: ys)⟩, env) ∧ n = m + 1 ∧ Courses env m ys vs) ∨
    n = 0 ∧ (Redex.step .standard (.sequence (g :: xs))).exec env =
      ((applyCall g vs).map fun result => ⟨true, result⟩, env) := by
  have hplain := isMacroCall_function hg xs
  have hhead : HandedOn env g g :=
    .of_unchanged (expand_leaf (ne_sequence_of_isFunction hg) env)
  rcases h.expandItems_cases with ⟨ys, m, hys, rfl, hrest⟩ | ⟨ys, hys, hrest, hstill⟩
  · have hitems := expandItems_cons_visible hhead hys
    have hexpand : (expand .standard (.sequence (g :: xs))).exec env =
        (.ok (.visible (.sequence (rebuild (g :: ys)))), env) := by
      rw [expand_items hplain, Stepping.exec_bind_of_ok hitems]
      rfl
    rw [rebuild_call hg (hrest.defined defined)] at hexpand
    exact Or.inl ⟨ys, m, step_of_visible hexpand, rfl, hrest⟩
  · have hhanded := (ItemsHandedOn.cons hhead hys).sequence hplain
      (rebuild_call hg (hrest.defined defined))
    rcases hrest.reduce hg defined hstill with ⟨zs, m, hzs, rfl, hmoved⟩ | ⟨rfl, hdone⟩
    · have hstep := @step_of_handedOn _ _ _ (.ok (.sequence (g :: zs))) hhanded hzs
      exact Or.inl ⟨zs, m, hstep, rfl, hmoved⟩
    · exact Or.inr ⟨rfl, step_of_handedOn hhanded hdone⟩

/-- The call comes to the outcome of the application, after as many steps as are left in the courses
of its arguments. -/
theorem Courses.comesTo (hg : g.isFunction = true) (h : Courses env n xs vs)
    (defined : ∀ v ∈ vs, v ≠ .undefined) : ComesTo env (.sequence (g :: xs)) (applyCall g vs) := by
  induction n generalizing xs with
  | zero =>
    rcases h.step hg defined with ⟨ys, m, -, hcount, -⟩ | ⟨-, hstep⟩
    · cases hcount
    · exact ⟨0, _, .refl _, hstep⟩
  | succ n ih =>
    rcases h.step hg defined with ⟨ys, m, hstep, hcount, hrest⟩ | ⟨hcount, -⟩
    · obtain rfl : n = m := by omega
      obtain ⟨k, last, hsteps, hlast⟩ := ih hrest
      exact ⟨k + 1, last, .step hstep hsteps, hlast⟩
    · cases hcount

end Call

/-! ## Calls -/

theorem Courses.of_runs (h : List.Forall₂ (EvaluatesIn env) xs vs)
    (steady : ∀ x ∈ xs, SteadyRun env x) : ∃ n, Courses env n xs vs := by
  induction h with
  | nil => exact ⟨0, .nil⟩
  | @cons x v xs vs first rest ih =>
    obtain ⟨hx, hxs⟩ := List.forall_mem_cons.mp steady
    obtain ⟨m, hfirst⟩ := first.course hx
    obtain ⟨n, hrest⟩ := ih hxs
    exact ⟨m + n, .cons hfirst hrest⟩

/-- A call whose arguments evaluate to values, by steady runs that leave the layers alone, comes to
the outcome of applying the procedure to the values, and leaves the layers alone on the way. -/
theorem call_by_value (env : Environment) {g : Expr} {args values : List Expr}
    (hg : g.isFunction = true) (runs : List.Forall₂ (EvaluatesIn env) args values)
    (defined : ∀ v ∈ values, v ≠ .undefined) (steady : ∀ a ∈ args, SteadyRun env a) :
    ComesTo env (.sequence (g :: args)) (applyCall g values) := by
  obtain ⟨n, hcourses⟩ := Courses.of_runs runs steady
  exact hcourses.comesTo hg defined

/-! ### A call with two arguments

In `(g (not #t) (list (not #f)))` the list is made before either call of `not` is applied. -/

namespace TwoArguments

/-- The closure of `(lambda (a b) (b a))`. -/
def swap : Expr :=
  .closure (.fixed ["a", "b"]) (.sequence [.symbol "b", .symbol "a"]) Expr.anonymous

/-- `(not #t)` or `(not #f)`. -/
def negation (b : Bool) : Expr :=
  .sequence [.symbol "not", .boolean b]

theorem negation_steady (b : Bool) : InSightSteady (negation b) := by
  refine .sequence rfl ?_
  simp only [List.forall_mem_cons]
  exact ⟨.leaf nofun, .leaf nofun, nofun⟩

theorem evaluates_first : EvaluatesIn .fresh (negation true) (.boolean false) :=
  ⟨⟨2, _, rfl, rfl⟩, .of_step rfl (.of_still rfl)⟩

theorem steady_first : SteadyRun .fresh (negation true) :=
  .of_step rfl (negation_steady true) (.of_still rfl (.leaf nofun))

theorem evaluates_second :
    EvaluatesIn .fresh (.sequence [.symbol "list", negation false]) (.sequence [.boolean true]) :=
  ⟨⟨3, _, rfl, rfl⟩, .of_step rfl (.of_step rfl (.of_still rfl))⟩

theorem steady_second : SteadyRun .fresh (.sequence [.symbol "list", negation false]) := by
  have hlist : InSightSteady (.sequence [.symbol "list", negation false]) := by
    refine .sequence rfl ?_
    simp only [List.forall_mem_cons]
    exact ⟨.leaf nofun, negation_steady false, nofun⟩
  have hitem : InSightSteady (.sequence [negation false]) := by
    refine .sequence rfl ?_
    simp only [List.forall_mem_cons]
    exact ⟨negation_steady false, nofun⟩
  have hvalue : InSightSteady (.sequence [.boolean true]) := by
    refine .sequence rfl ?_
    simp only [List.forall_mem_cons]
    exact ⟨.leaf nofun, nofun⟩
  exact .of_step rfl hlist (.of_step rfl hitem (.of_still rfl hvalue))

end TwoArguments

open TwoArguments in
/-- `(g (not #t) (list (not #f)))`, with the closure of `(lambda (a b) (b a))` for `g`, comes to
`((#t) #f)`. -/
theorem call_by_value_swap :
    ComesTo .fresh (.sequence [swap, negation true, .sequence [.symbol "list", negation false]])
      (.ok (.sequence [.sequence [.boolean true], .boolean false])) := by
  refine call_by_value .fresh rfl (.cons evaluates_first (.cons evaluates_second .nil)) ?_ ?_
  · simp only [List.forall_mem_cons]
    exact ⟨nofun, nofun, nofun⟩
  · simp only [List.forall_mem_cons]
    exact ⟨steady_first, steady_second, nofun⟩

/-! ## A run that is not steady

The function of an `apply` may be the result of a definition, or of a closure without a body, and
then the `apply` waits for ever. As an argument it gets into the body of a closure whose parameter is
called `apply` and collects no arguments. So the head of the form is spliced away, and a sequence is
left that becomes a `list` form once the result of the definition leaves it. -/

namespace Early

/-- `(lambda () #f)` as it is written. -/
def literal : Expr :=
  .sequence [.symbol "lambda", .sequence [], .boolean false]

/-- `((lambda ()))`, which has no value. -/
def nothing : Expr :=
  .sequence [.sequence [.symbol "lambda", .sequence []]]

/-- `(((lambda (y) (lambda apply y)) (apply ((lambda ())) list (lambda () #f))))`. -/
def argument : Expr :=
  .sequence [.sequence [
    .sequence [.symbol "lambda", .sequence [.symbol "y"],
      .sequence [.symbol "lambda", .symbol "apply", .symbol "y"]],
    .sequence [.symbol "apply", nothing, .symbol "list", literal]]]

/-- The argument by itself comes to `#f`. -/
theorem evaluates_argument : EvaluatesIn .fresh argument (.boolean false) :=
  ⟨⟨7, _, rfl, rfl⟩, .of_step rfl (.of_step rfl (.of_step rfl (.of_step rfl (.of_step rfl
    (.of_step rfl (.of_still rfl))))))⟩

/-- The call of `not` with that argument comes to `#f` as well, since `not` is applied to a `list`
form that has not been expanded. -/
theorem not_comesTo_true :
    ¬ ComesTo .fresh (.sequence [.native (.builtin .not), argument]) (.ok (.boolean true)) := by
  intro h
  rcases h.cases_first rfl with h | h
  · cases h
  rcases h.cases_first rfl with h | h
  · cases h
  rcases h.cases_first rfl with h | h
  · cases h
  rcases h.cases_first rfl with h | h
  · cases h
  exact ComesTo.not_of_still rfl h

end Early

/-- Without steady runs a procedure may be applied too early: `(not x)` may come to `#f` although `x`
comes to `#f`. -/
theorem call_by_value_early :
    ¬ ∀ (env : Environment) (g : Expr) (args values : List Expr), g.isFunction = true →
      List.Forall₂ (EvaluatesIn env) args values → (∀ v ∈ values, v ≠ .undefined) →
      ComesTo env (.sequence (g :: args)) (applyCall g values) := by
  intro hall
  have hcall := hall .fresh (.native (.builtin .not)) [Early.argument] [.boolean false] rfl
    (.cons Early.evaluates_argument .nil) (by simp)
  exact Early.not_comesTo_true hcall

end Redex
