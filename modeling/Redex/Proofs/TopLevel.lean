import Redex.Proofs.NormalForm
import Redex.Proofs.Runs

/-!
# Top-level forms

Every round of an evaluation looks at a program from its first form on, takes symbols for the
procedures that they name and drops the results of definitions. Still it comes to evaluating the
forms one after the other, if the values that are left behind hold no symbols: a symbol may be bound
by a later form.

* **`stepProgram_append`** and **`stepProgram_append_moved`** — a step of a program in two parts, by
  what the first part does. **`stepProgram_rebuild`** — results of definitions make no difference.
* **`Expr.Rests`** — a value does not step whatever is bound; **`Expr.Rests.of_still`** — a value
  without symbols that does not step once is one.
* **`Ends.behind`** — values that rest may stand in front of a run, and **`Ends.form`** — the first
  form of a program may be replaced by its value.
* **`evaluate_in_turn`** — so a program evaluates as its forms do in turn.
-/

namespace Redex

variable {env env₁ env' : Environment} {e e' v : Expr} {before rest : List Expr}
variable {program program' : Program}

/-! ## Steps of a program in parts -/

theorem rebuild_append (xs ys : List Expr) : rebuild (xs ++ ys) = rebuild xs ++ rebuild ys :=
  List.filter_append ..

theorem rebuild_rebuild (xs : List Expr) : rebuild (rebuild xs) = rebuild xs := by
  unfold rebuild
  rw [List.filter_filter]
  simp only [Bool.and_self]

theorem stepForms_append
    (still : ∀ x ∈ before, (step .standard x).exec env = (.ok ⟨false, env.named x⟩, env))
    (rest : List Expr) :
    (stepForms .standard (before ++ rest)).exec env =
      (do let (stepped, results) ← stepForms .standard rest
          return (stepped, before.map env.named ++ results) : Stepping _).exec env := by
  induction before with
  | nil =>
    rw [List.nil_append, Stepping.exec_bind]
    cases (stepForms .standard rest).exec env with
    | mk result env' => cases result <;> rfl
  | cons x before ih =>
    obtain ⟨hx, hbefore⟩ := List.forall_mem_cons.mp still
    rw [List.cons_append, stepForms, Stepping.exec_bind_of_ok hx]
    simp only [Bool.false_eq_true, if_false]
    rw [Stepping.exec_bind, ih hbefore, Stepping.exec_bind, Stepping.exec_bind]
    cases (stepForms .standard rest).exec env with
    | mk result env' => cases result <;> rfl

/-- Forms that do not step stand by while the forms behind them are stepped. -/
theorem stepProgram_append
    (still : ∀ x ∈ before, (step .standard x).exec env = (.ok ⟨false, env.named x⟩, env))
    (rest : List Expr) :
    (stepProgram .standard (before ++ rest)).exec env =
      (do let (stepped, results) ← stepProgram .standard rest
          return (stepped, rebuild (before.map env.named) ++ results) : Stepping _).exec env := by
  unfold stepProgram
  rw [Stepping.exec_bind, stepForms_append still, Stepping.exec_bind, Stepping.exec_bind,
    Stepping.exec_bind]
  cases (stepForms .standard rest).exec env with
  | mk result env' =>
    cases result with
    | error err => rfl
    | ok found =>
      simp only [Stepping.exec_pure, rebuild_append]

theorem stepProgram_cons_moved (h : (step .standard e).exec env = (.ok ⟨true, e'⟩, env'))
    (rest : List Expr) :
    (stepProgram .standard (e :: rest)).exec env = (.ok (true, rebuild (e' :: rest)), env') := by
  have hforms : (stepForms .standard (e :: rest)).exec env = (.ok (true, e' :: rest), env') := by
    rw [stepForms, Stepping.exec_bind_of_ok h]
    rfl
  unfold stepProgram
  rw [Stepping.exec_bind_of_ok hforms]
  rfl

theorem stepProgram_cons_failed {err : Error} (h : (step .standard e).exec env = (.error err, env'))
    (rest : List Expr) :
    (stepProgram .standard (e :: rest)).exec env = (.error err, env') := by
  have hforms : (stepForms .standard (e :: rest)).exec env = (.error err, env') := by
    rw [stepForms]
    exact Stepping.exec_bind_of_error h _
  unfold stepProgram
  exact Stepping.exec_bind_of_error hforms _

/-- Behind a form that can step nothing is stepped, but the results of definitions leave. -/
theorem stepProgram_append_moved
    (h : (stepProgram .standard program).exec env = (.ok (true, program'), env'))
    (rest : List Expr) :
    (stepProgram .standard (program ++ rest)).exec env =
      (.ok (true, program' ++ rebuild rest), env') := by
  rcases stepProgram_cases program env with
    ⟨err, hexec⟩ | ⟨-, hexec⟩ | ⟨before, e, after, e', env₁, rfl, hleft, hstep, hexec⟩
  · rw [hexec] at h
    cases h
  · rw [hexec] at h
    cases h
  · rw [hexec] at h
    cases h
    have hmoved := stepProgram_cons_moved hstep (after ++ rest)
    have hafter : rebuild (e' :: (after ++ rest)) = rebuild (e' :: after) ++ rebuild rest :=
      rebuild_append (e' :: after) rest
    rw [List.append_assoc, List.cons_append, stepProgram_append hleft,
      Stepping.exec_bind_of_ok hmoved]
    simp only [Stepping.exec_pure, rebuild_append, hafter, List.append_assoc]

/-- A step of a program depends on the forms behind the first by what their own step is. -/
theorem stepProgram_cons_congr {rest' : List Expr}
    (hrest : (stepProgram .standard rest').exec env = (stepProgram .standard rest).exec env)
    (hrebuild : rebuild rest' = rebuild rest) :
    (stepProgram .standard (e :: rest')).exec env =
      (stepProgram .standard (e :: rest)).exec env := by
  have hframed := step_framed e env
  cases he : (step .standard e).exec env with
  | mk result env' =>
    rw [he] at hframed
    cases hframed with
    | failed err => rw [stepProgram_cons_failed he, stepProgram_cons_failed he]
    | moved e' env' =>
      have hsame : rebuild (e' :: rest') = rebuild (e' :: rest) := by
        rw [← List.singleton_append, rebuild_append, hrebuild, ← rebuild_append,
          List.singleton_append]
      rw [stepProgram_cons_moved he, stepProgram_cons_moved he, hsame]
    | still e' =>
      obtain ⟨-, -, rfl, -⟩ := step_still he
      have hstill : ∀ x ∈ [e], (step .standard x).exec env = (.ok ⟨false, env.named x⟩, env) :=
        List.forall_mem_singleton.mpr he
      rw [← List.singleton_append, stepProgram_append hstill, Stepping.exec_bind, hrest,
        ← Stepping.exec_bind, ← stepProgram_append hstill, List.singleton_append]

/-- The results of definitions make no difference to a step of a program. -/
theorem stepProgram_rebuild (program : Program) (env : Environment) :
    (stepProgram .standard (rebuild program)).exec env =
      (stepProgram .standard program).exec env := by
  induction program with
  | nil => rfl
  | cons e rest ih =>
    cases hundefined : e.isUndefined with
    | false =>
      have hcons : rebuild (e :: rest) = e :: rebuild rest := by simp [rebuild, hundefined]
      rw [hcons]
      exact stepProgram_cons_congr ih (rebuild_rebuild rest)
    | true =>
      have hcons : rebuild (e :: rest) = rebuild rest := by simp [rebuild, hundefined]
      obtain rfl : e = .undefined := by
        cases e with
        | undefined => rfl
        | _ => cases hundefined
      have hstill : ∀ x ∈ [Expr.undefined],
          (step .standard x).exec env = (.ok ⟨false, env.named x⟩, env) :=
        List.forall_mem_singleton.mpr rfl
      rw [hcons, ih, ← List.singleton_append, stepProgram_append hstill, Stepping.exec_bind]
      cases (stepProgram .standard rest).exec env with
      | mk result env' => cases result <;> rfl

/-- A form that does not step may be replaced by what it stands for. -/
theorem stepProgram_cons_named
    (still : (step .standard e).exec env = (.ok ⟨false, env.named e⟩, env)) (rest : List Expr) :
    (stepProgram .standard (e :: rest)).exec env =
      (stepProgram .standard (env.named e :: rest)).exec env := by
  have hnamed : ∀ x ∈ [env.named e],
      (step .standard x).exec env = (.ok ⟨false, env.named x⟩, env) := by
    rw [List.forall_mem_singleton, env.named_named]
    exact step_named still
  have hleft := stepProgram_append (List.forall_mem_singleton.mpr still) rest
  have hright := stepProgram_append hnamed rest
  rw [List.map_singleton, env.named_named] at hright
  exact hleft.trans hright.symm

/-! ## Values without symbols -/

mutual

/-- A symbol stands in the expression, other than in a closure, a struct or a quotation. -/
def Expr.showsSymbol : Expr → Bool
  | .symbol _ => true
  | .sequence items => anyShowsSymbol items
  | .answered e => e.showsSymbol
  | _ => false
termination_by structural e => e

def anyShowsSymbol : List Expr → Bool
  | [] => false
  | e :: items => e.showsSymbol || anyShowsSymbol items
termination_by structural items => items

end

theorem showsSymbol_sequence_iff {items : List Expr} :
    (Expr.sequence items).showsSymbol = false ↔ ∀ x ∈ items, x.showsSymbol = false := by
  rw [Expr.showsSymbol]
  induction items with
  | nil => simp [anyShowsSymbol]
  | cons x items ih => simp [anyShowsSymbol, ih]

theorem ne_symbol_of_showsSymbol (h : e.showsSymbol = false) (name : String) :
    e ≠ .symbol name := by
  rintro rfl
  cases h

theorem named_of_showsSymbol (h : e.showsSymbol = false) (env : Environment) : env.named e = e :=
  env.named_of_not_symbol (ne_symbol_of_showsSymbol h)

/-- Without symbols there are no special forms. -/
theorem isMacroCall_of_showsSymbol {items : List Expr} (h : ∀ x ∈ items, x.showsSymbol = false) :
    MacroTable.standard.isMacroCall items = false := by
  cases items with
  | nil => rfl
  | cons head args =>
    have hhead := ne_symbol_of_showsSymbol (h head List.mem_cons_self)
    exact MacroTable.isMacroCall_eq_false (MacroTable.rule?_eq_none_of_not_symbol _ hhead) _

theorem expand_of_showsSymbol (e : Expr) (h : e.showsSymbol = false) (env : Environment) :
    (expand .standard e).exec env = (.ok .unchanged, env) := by
  induction e using Expr.sequence_induction with
  | leaf e hleaf => exact expand_leaf hleaf env
  | sequence items ih =>
    have hitems := showsSymbol_sequence_iff.mp h
    exact expand_sequence_unchanged (isMacroCall_of_showsSymbol hitems)
      fun x hx => ih x hx (hitems x hx)

/-- Without symbols the second pass looks nothing up. -/
theorem Reduced.of_showsSymbol (e : Expr) (h : e.showsSymbol = false) (hreduced : Reduced env e)
    (env' : Environment) : Reduced env' e := by
  induction e using Expr.sequence_induction with
  | leaf e hleaf => exact ⟨e, reduce_leaf (ne_symbol_of_showsSymbol h) hleaf⟩
  | sequence items ih =>
    have hitems := showsSymbol_sequence_iff.mp h
    have hplain := isMacroCall_of_showsSymbol hitems
    have hnamed : ∀ env : Environment, items.map env.named = items := by
      intro env
      rw [List.map_congr_left fun x hx => named_of_showsSymbol (hitems x hx) env, List.map_id']
    obtain ⟨hall, hhead⟩ := hreduced.of_sequence hplain
    rw [hnamed] at hhead
    refine .sequence hplain (fun x hx => ih x hx (hitems x hx) (hall x hx)) ?_
    rwa [hnamed]

/-- The value does not step, whatever is bound. -/
def Expr.Rests (v : Expr) : Prop :=
  ∀ env, (step .standard v).exec env = (.ok ⟨false, v⟩, env)

theorem Expr.Rests.of_still (h : v.showsSymbol = false)
    (still : (step .standard v).exec env = (.ok ⟨false, e'⟩, env₁)) : v.Rests := by
  intro env'
  obtain ⟨-, hreduced, -, -⟩ := step_still still
  have hreduced' := hreduced.of_showsSymbol v h env'
  rw [step_of_unchanged (expand_of_showsSymbol v h env'), hreduced'.reduce_eq,
    named_of_showsSymbol h]

theorem Expr.Rests.still (h : v.Rests) (env : Environment) :
    env.named v = v ∧ (step .standard v).exec env = (.ok ⟨false, env.named v⟩, env) := by
  obtain ⟨-, -, hnamed, -⟩ := step_still (h env)
  rw [← hnamed]
  exact ⟨rfl, h env⟩

/-! ## Runs of forms -/

variable {outcome : Except Error Program}

theorem ends_rebuild_iff :
    Ends (stepProgram .standard) (rebuild program) env outcome env' ↔
      Ends (stepProgram .standard) program env outcome env' :=
  ends_congr (stepProgram_rebuild program env)

/-- Values that rest stand by while the forms behind them run. -/
theorem Ends.behind (h : Ends (stepProgram .standard) rest env outcome env')
    (rests : ∀ v ∈ before, v.Rests) :
    Ends (stepProgram .standard) (before ++ rest) env (outcome.map (rebuild before ++ ·)) env' := by
  induction h generalizing before with
  | @failed rest env env' err round =>
    have hround := stepProgram_append (fun x hx => ((rests x hx).still env).2) rest
    rw [Stepping.exec_bind_of_error round] at hround
    exact .failed hround
  | @still rest results env env' round =>
    have hnamed : before.map env.named = before := by
      rw [List.map_congr_left fun x hx => ((rests x hx).still env).1, List.map_id']
    have hround := stepProgram_append (fun x hx => ((rests x hx).still env).2) rest
    rw [Stepping.exec_bind_of_ok round, hnamed] at hround
    exact .still hround
  | @step rest next env env₁ env' outcome round more ih =>
    have hnamed : before.map env.named = before := by
      rw [List.map_congr_left fun x hx => ((rests x hx).still env).1, List.map_id']
    have hround := stepProgram_append (fun x hx => ((rests x hx).still env).2) rest
    rw [Stepping.exec_bind_of_ok round, hnamed] at hround
    -- the results of definitions leave with the first step
    have hrests : ∀ v ∈ rebuild before, v.Rests := fun v hv => rests v (List.mem_filter.mp hv).1
    have hmore := ih hrests
    rw [rebuild_rebuild] at hmore
    exact .step hround hmore

/-- The value that an expression evaluates to does not step where the evaluation ended. -/
theorem Ends.value_still (h : Ends Expr.round e env (.ok v) env') :
    (Redex.step .standard v).exec env' = (.ok ⟨false, v⟩, env') := by
  generalize hv : Except.ok v = result at h
  induction h with
  | failed round => cases hv
  | still round =>
    cases hv
    have hstep := Expr.round_ok_iff.mp round
    obtain ⟨-, -, rfl, rfl⟩ := step_still hstep
    exact step_named hstep
  | step round more ih => exact ih hv

/-- The first form of a program is evaluated before the others, and its value takes its place. -/
theorem Ends.form (h : Ends Expr.round e env (.ok v) env₁)
    (hrest : Ends (stepProgram .standard) (v :: rest) env₁ outcome env') :
    Ends (stepProgram .standard) (e :: rest) env outcome env' := by
  generalize hv : Except.ok v = result at h
  induction h with
  | failed round => cases hv
  | still round =>
    cases hv
    have hstep := Expr.round_ok_iff.mp round
    obtain ⟨-, -, rfl, rfl⟩ := step_still hstep
    exact hrest.congr (stepProgram_cons_named hstep rest)
  | step round more ih =>
    have hround := stepProgram_cons_moved (Expr.round_ok_iff.mp round) rest
    exact .step hround (ends_rebuild_iff.mpr (ih hrest hv))

theorem Ends.form_failed {err : Error} (h : Ends Expr.round e env (.error err) env')
    (rest : List Expr) : Ends (stepProgram .standard) (e :: rest) env (.error err) env' := by
  generalize hv : Except.error err = result at h
  induction h with
  | failed round =>
    cases hv
    exact .failed (stepProgram_cons_failed (Expr.round_error_iff.mp round) rest)
  | still round => cases hv
  | step round more ih =>
    have hround := stepProgram_cons_moved (Expr.round_ok_iff.mp round) rest
    exact .step hround (ends_rebuild_iff.mpr (ih hv))

/-- A form whose value holds no symbols is evaluated, and then the forms behind it. -/
theorem Ends.form_before (h : Ends Expr.round e env (.ok v) env₁) (free : v.showsSymbol = false)
    (hrest : Ends (stepProgram .standard) rest env₁ outcome env') :
    Ends (stepProgram .standard) (e :: rest) env (outcome.map (rebuild [v] ++ ·)) env' := by
  have hrests : v.Rests := .of_still free h.value_still
  exact h.form (hrest.behind (List.forall_mem_singleton.mpr hrests))

/-! ## Forms in turn -/

/-- The forms evaluate to values one after the other, each in the environment that the one before it
left. -/
inductive InTurn : Environment → List Expr → List Expr → Environment → Prop where
  | nil (env : Environment) : InTurn env [] [] env
  | cons {env env₁ env' : Environment} {e v : Expr} {forms values : List Expr}
      (first : e.Evaluates env (.ok v) env₁) (rest : InTurn env₁ forms values env') :
      InTurn env (e :: forms) (v :: values) env'

theorem InTurn.ends {forms values : List Expr} (h : InTurn env forms values env')
    (free : ∀ v ∈ values.dropLast, v.showsSymbol = false) :
    Ends (stepProgram .standard) forms env (.ok (rebuild values)) env' := by
  induction h with
  | nil env => exact .still rfl
  | @cons env env₁ env' e v forms values first rest ih =>
    have hfirst := Expr.evaluates_iff.mp first
    cases rest with
    | nil env₁ =>
      -- the last value may hold symbols, since nothing is bound behind it
      have hstill := hfirst.value_still
      obtain ⟨-, -, hnamed, -⟩ := step_still hstill
      have hround : (stepProgram .standard [v]).exec env₁ = (.ok (false, rebuild [v]), env₁) := by
        rw [stepProgram_of_still, List.map_singleton, ← hnamed]
        rw [List.forall_mem_singleton, ← hnamed]
        exact hstill
      exact hfirst.form (.still hround)
    | @cons _ env₂ _ e₁ v₁ forms values second more =>
      rw [List.dropLast_cons_cons, List.forall_mem_cons] at free
      have hends := hfirst.form_before free.1 (ih free.2)
      rwa [Except.map, ← rebuild_append, List.singleton_append] at hends

/-- Forms that have been evaluated in turn stand by while the forms behind them run. -/
theorem InTurn.append {values : List Expr} (h : InTurn env before values env₁)
    (free : ∀ v ∈ values, v.showsSymbol = false)
    (hrest : Ends (stepProgram .standard) rest env₁ outcome env') :
    Ends (stepProgram .standard) (before ++ rest) env (outcome.map (rebuild values ++ ·)) env' := by
  induction h with
  | nil env =>
    cases outcome with
    | error err => exact hrest
    | ok results => exact hrest
  | @cons env env₂ env₁ e v forms values first more ih =>
    obtain ⟨hv, hvalues⟩ := List.forall_mem_cons.mp free
    have hends := (Expr.evaluates_iff.mp first).form_before hv (ih hvalues hrest)
    have happend : rebuild (v :: values) = rebuild [v] ++ rebuild values :=
      rebuild_append [v] values
    cases outcome with
    | error err => exact hends
    | ok results =>
      simp only [Except.map, happend, List.append_assoc] at hends ⊢
      exact hends

/-- A program evaluates as its forms do one after the other, each in the environment that the one
before it left, if no value but the last holds a symbol: it comes to the values that are not results
of definitions. If a form fails in its turn, the program fails alike. -/
theorem evaluate_in_turn (env : Environment) :
    (∀ (forms values : List Expr) (env' : Environment), InTurn env forms values env' →
      (∀ v ∈ values.dropLast, v.showsSymbol = false) →
      Program.Evaluates forms env (.ok (values.filter fun v => !v.isUndefined)) env') ∧
    ∀ (before : List Expr) (e : Expr) (after values : List Expr) (env₁ : Environment) (err : Error)
      (env' : Environment), InTurn env before values env₁ →
      (∀ v ∈ values, v.showsSymbol = false) → e.Evaluates env₁ (.error err) env' →
      Program.Evaluates (before ++ e :: after) env (.error err) env' := by
  constructor
  · intro forms values env' h free
    exact Program.evaluates_iff.mpr (h.ends free)
  · intro before e after values env₁ err env' h free hfails
    have hrest := (Expr.evaluates_iff.mp hfails).form_failed after
    exact Program.evaluates_iff.mpr (h.append free hrest)

/-- `(define x #t) (not x) (list p)` comes to `#f` and `(p)`, and `(define x #t) (if) (define x #f)`
fails at the `if` with `x` bound to `#t`. -/
theorem evaluate_in_turn_defined :
    let bound := Environment.fresh.bindAll [("x", .boolean true)]
    let definition := Expr.sequence [.symbol "define", .symbol "x", .boolean true]
    Program.Evaluates [definition, .sequence [.symbol "not", .symbol "x"],
        .sequence [.symbol "list", .symbol "p"]] .fresh
        (.ok [.boolean false, .sequence [.symbol "p"]]) bound ∧
      Program.Evaluates [definition, .sequence [.symbol "if"],
        .sequence [.symbol "define", .symbol "x", .boolean false]] .fresh (.error .ifParts)
        bound := by
  intro bound definition
  have hdefinition : definition.Evaluates .fresh (.ok .undefined) bound := ⟨2, _, rfl, rfl, rfl⟩
  have hnot : (Expr.sequence [.symbol "not", .symbol "x"]).Evaluates bound (.ok (.boolean false))
      bound := ⟨3, _, rfl, rfl, rfl⟩
  have hlist : (Expr.sequence [.symbol "list", .symbol "p"]).Evaluates bound
      (.ok (.sequence [.symbol "p"])) bound := ⟨2, _, rfl, rfl, rfl⟩
  have hif : (Expr.sequence [.symbol "if"]).Evaluates bound (.error .ifParts) bound :=
    ⟨1, _, rfl, rfl, rfl⟩
  obtain ⟨hvalues, hfails⟩ := evaluate_in_turn .fresh
  refine ⟨hvalues _ _ _ (.cons hdefinition (.cons hnot (.cons hlist (.nil _)))) ?_,
    hfails [definition] _ _ _ _ _ _ (.cons hdefinition (.nil _)) ?_ hif⟩
  · simp [Expr.showsSymbol]
  · simp [Expr.showsSymbol]

/-- Without the condition on the values it is not so: in `x (define x #t)` the symbol is looked up
once the definition has been run. -/
example : (evaluate .standard 4 [.symbol "x",
      .sequence [.symbol "define", .symbol "x", .boolean true]] .fresh).map Run.outcome =
    some (.ok [.boolean true]) := rfl

end Redex
