import Redex.Evaluation

/-!
# Running a step

The facts about a single run that the theory of stepping rests on.

* **`Stepping.exec_bind`** and its companions say what the parts of a computation make of the
  environment, so that no later proof opens the monad.
* **`Expr.sequence_induction`** is the induction that both passes follow: over the items of
  sequences, with everything else a leaf.
* **`MacroTable.rule?_standard`** lists the heads of the standard special forms.
* **`expand_leaf`**, **`expand_items`** and **`expand_special`** give the first pass by the shape of
  its argument, and the `step_of_` lemmas the step by what the first pass made of it.
* **`reduceItems_still`** and **`reduceItems_moved`** split a list at the first item that the second
  pass steps.
-/

namespace Redex

/-! ## Computations

A computation is known by its run from an environment. -/

namespace Stepping

variable {α β : Type}

@[simp] theorem exec_pure (a : α) (env : Environment) :
    (pure a : Stepping α).exec env = (.ok a, env) := rfl

@[simp] theorem exec_get (env : Environment) :
    (get : Stepping Environment).exec env = (.ok env, env) := rfl

/-- A computation runs its first part and, unless that failed, the rest from the environment that
the first part left. -/
theorem exec_bind (m : Stepping α) (f : α → Stepping β) (env : Environment) :
    (m >>= f).exec env =
      match m.exec env with
      | (.ok a, env') => (f a).exec env'
      | (.error e, env') => (.error e, env') := by
  show (m >>= f) env = _
  unfold exec
  simp only [bind, ExceptT.bind, ExceptT.mk, ExceptT.run, StateT.run, StateT.bind]
  cases m env with
  | mk r env' => cases r <;> rfl

theorem exec_bind_of_ok {m : Stepping α} {env env' : Environment} {a : α}
    (h : m.exec env = (.ok a, env')) (f : α → Stepping β) :
    (m >>= f).exec env = (f a).exec env' := by
  rw [exec_bind, h]

theorem exec_bind_of_error {m : Stepping α} {env env' : Environment} {e : Error}
    (h : m.exec env = (.error e, env')) (f : α → Stepping β) :
    (m >>= f).exec env = (.error e, env') := by
  rw [exec_bind, h]

@[simp] theorem exec_lift (r : Except Error α) (env : Environment) :
    (lift r).exec env = (r, env) := by
  cases r <;> rfl

end Stepping

/-! ## Bindings of the user layer

A definition binds all its names or none of them: the layer is frozen or it is not. -/

def Layer.bindAll (layer : Layer) (pairs : List (String × Expr)) : Layer :=
  { layer with bindings := Assoc.insertAll layer.bindings pairs }

/-- The environment with the given names bound in its user layer. -/
def Environment.bindAll (env : Environment) (pairs : List (String × Expr)) : Environment :=
  { env with user := env.user.bindAll pairs }

theorem Stepping.exec_define (name : String) (value : Expr) (env : Environment) :
    (Stepping.define name value).exec env =
      if env.user.frozen then (.error (.frozen name), env)
      else (.ok (), env.bindAll [(name, value)]) := by
  unfold Stepping.define
  rw [exec_bind_of_ok (exec_get env), exec_bind, exec_lift]
  unfold Layer.define
  by_cases h : env.user.frozen = true
  · rw [if_pos h, if_pos h]
  · rw [if_neg h, if_neg h]
    rfl

/-- Binding names one after the other fails at the first of them or not at all. -/
theorem Stepping.exec_update (env : Environment) (pairs : List (String × Expr))
    (h : env.user.frozen = false) :
    (Stepping.update pairs).exec env = (.ok (), env.bindAll pairs) := by
  induction pairs generalizing env with
  | nil => rfl
  | cons p pairs ih =>
    obtain ⟨name, value⟩ := p
    have hdefine : (Stepping.define name value).exec env =
        (.ok (), env.bindAll [(name, value)]) := by
      rw [exec_define, h]
      rfl
    unfold Stepping.update
    rw [exec_bind_of_ok hdefine]
    -- the layer is as free behind the first binding as before it
    exact ih (env.bindAll [(name, value)]) h

theorem Stepping.exec_update_frozen (env : Environment) (p : String × Expr)
    (pairs : List (String × Expr)) (h : env.user.frozen = true) :
    (Stepping.update (p :: pairs)).exec env = (.error (.frozen p.1), env) := by
  have hdefine : (Stepping.define p.1 p.2).exec env = (.error (.frozen p.1), env) := by
    rw [exec_define, h]
    rfl
  unfold Stepping.update
  exact exec_bind_of_error hdefine _

/-! ## Induction over sequences -/

/-- The induction that both passes follow: through the items of sequences. -/
theorem Expr.sequence_induction {P : Expr → Prop}
    (leaf : ∀ e, (∀ items, e ≠ .sequence items) → P e)
    (sequence : ∀ items, (∀ e ∈ items, P e) → P (.sequence items)) : ∀ e, P e
  | .sequence items => sequence items fun e he =>
      have : sizeOf e < 1 + sizeOf items := Nat.lt_add_left 1 (List.sizeOf_lt_of_mem he)
      sequence_induction leaf sequence e
  | .number _ => leaf _ nofun
  | .text _ => leaf _ nofun
  | .boolean _ => leaf _ nofun
  | .symbol _ => leaf _ nofun
  | .native _ => leaf _ nofun
  | .closure .. => leaf _ nofun
  | .struct .. => leaf _ nofun
  | .quoted _ => leaf _ nofun
  | .answered _ => leaf _ nofun
  | .undefined => leaf _ nofun
  | .absent => leaf _ nofun
termination_by e => sizeOf e

/-! ## The standard special forms -/

/-- The heads of the standard special forms, each with its rule. -/
theorem MacroTable.rule?_standard {head : Expr} {rule : MacroRule}
    (h : MacroTable.standard.rule? head = some rule) :
    (head = .symbol "define" ∧ rule = .define) ∨ (head = .symbol "lambda" ∧ rule = .lambda) ∨
      (head = .symbol "if" ∧ rule = .conditional) ∨ (head = .symbol "apply" ∧ rule = .spread) ∨
      (head = .symbol "list" ∧ rule = .list) ∨
      (head = .symbol "define-struct" ∧ rule = .defineStruct) := by
  cases head with
  | symbol name =>
    have hmem : (name, rule) ∈ MacroTable.standard := Assoc.mem_of_lookup h
    simpa [MacroTable.standard] using hmem
  | _ => exact absurd h nofun

theorem MacroTable.rule?_eq_none_of_not_mem (macros : MacroTable) {name : String}
    (h : name ∉ Assoc.names macros) : macros.rule? (.symbol name) = none := by
  rw [← Assoc.isSome_lookup, Option.not_isSome_iff_eq_none] at h
  exact h

theorem MacroTable.rule?_eq_none_of_not_symbol (macros : MacroTable) {e : Expr}
    (h : ∀ name, e ≠ .symbol name) : macros.rule? e = none := by
  cases e with
  | symbol name => exact absurd rfl (h name)
  | _ => rfl

@[simp] theorem MacroTable.isMacroCall_cons (macros : MacroTable) (head : Expr)
    (args : List Expr) : macros.isMacroCall (head :: args) = (macros.rule? head).isSome := rfl

/-- A call is no special form if its head is that of none. -/
theorem MacroTable.isMacroCall_eq_false {macros : MacroTable} {head : Expr}
    (h : macros.rule? head = none) (args : List Expr) :
    macros.isMacroCall (head :: args) = false := by
  rw [isMacroCall_cons, h]
  rfl

/-- A sequence that is no special form stays one when an item of it becomes the head of none. -/
theorem MacroTable.isMacroCall_replace (macros : MacroTable) (before after : List Expr)
    {e e' : Expr} (h : macros.isMacroCall (before ++ e :: after) = false)
    (hrule : macros.rule? e = none → macros.rule? e' = none) :
    macros.isMacroCall (before ++ e' :: after) = false := by
  cases before with
  | nil =>
    -- the item itself is the head
    have hnone : macros.rule? e = none := by simpa using h
    simpa using hrule hnone
  | cons head before => exact h

/-! ## The parts of a special form

The rules of `if` and `apply` are given the steps of an argument; these are steps of the argument by
itself. -/

@[simp] theorem stepFirst_cons (macros : MacroTable) (arg : Expr) (rest : List Expr) :
    stepFirst macros (arg :: rest) = step macros arg := by
  rw [stepFirst]
  rfl

@[simp] theorem stepLast_concat (macros : MacroTable) (lead : List Expr) (last : Expr) :
    stepLast macros (lead ++ [last]) = step macros last := by
  induction lead with
  | nil =>
    rw [List.nil_append, stepLast]
    rfl
  | cons arg lead ih =>
    rw [List.cons_append, stepLast.eq_def]
    -- there is an item behind `arg`, so `arg` is passed over
    cases hrest : lead ++ [last] with
    | nil => exact absurd hrest (by simp)
    | cons next more => rw [← ih, hrest]

/-! ## The first pass -/

/-- The first pass leaves everything alone that is no sequence. -/
theorem expand_leaf {e : Expr} (h : ∀ items, e ≠ .sequence items) (env : Environment) :
    (expand .standard e).exec env = (.ok .unchanged, env) := by
  cases e with
  | sequence items => exact absurd rfl (h items)
  | answered e =>
    rw [expand]
    -- no rule of the standard table has a fixed answer
    have hstanding : SpecialForm.standing .standard e = .unchanged := by
      unfold SpecialForm.standing
      split
      · rename_i head args
        split
        · rename_i answer hrule
          rcases MacroTable.rule?_standard hrule with
            ⟨-, h⟩ | ⟨-, h⟩ | ⟨-, h⟩ | ⟨-, h⟩ | ⟨-, h⟩ | ⟨-, h⟩ <;> cases h
        · rfl
      · rfl
    rw [hstanding]
    rfl
  | _ => rfl

/-- On a sequence that is no special form the first pass visits the items in order. -/
theorem expand_items {macros : MacroTable} {items : List Expr}
    (h : macros.isMacroCall items = false) :
    expand macros (.sequence items) =
      (do return (← expandItems macros items).enclose : Stepping (Change Expr)) := by
  cases items with
  | nil =>
    rw [expand, expandItems]
    rfl
    all_goals nofun
  | cons head args =>
    have hrule : macros.rule? head = none := by simpa using h
    rw [expand, hrule, expandItems]

/-- Behind an item that does not end the pass the rest of the items is visited. -/
theorem expandItems_cons {macros : MacroTable} {x : Expr} {change : Change Expr} {env : Environment}
    (hx : (expand macros x).exec env = (.ok change, env)) (goesOn : change.endsPass = false)
    (xs : List Expr) :
    (expandItems macros (x :: xs)).exec env =
      (do return Change.cons x xs change (← expandItems macros xs) : Stepping _).exec env := by
  rw [expandItems, consPass, Stepping.exec_bind_of_ok hx]
  simp only [goesOn, Bool.false_eq_true, if_false]

theorem expand_special {macros : MacroTable} {head : Expr} {rule : MacroRule}
    (h : macros.rule? head = some rule) (args : List Expr) :
    expand macros (.sequence (head :: args)) =
      (do SpecialForm.conclude head (← SpecialForm.run macros rule head args
        (stepFirst macros args) (stepLast macros args)) : Stepping (Change Expr)) := by
  rw [expand, h]

/-! ## The step

A step by what the first pass made of the expression: a failure and a visible change end it, and the
second pass follows anything else. -/

variable {macros : MacroTable} {e e' : Expr} {env env' : Environment}

theorem step_of_failed {err : Error} (h : (expand macros e).exec env = (.error err, env')) :
    (step macros e).exec env = (.error err, env') := by
  unfold step
  exact Stepping.exec_bind_of_error h _

theorem step_of_visible (h : (expand macros e).exec env = (.ok (.visible e'), env')) :
    (step macros e).exec env = (.ok ⟨true, e'⟩, env') := by
  unfold step
  rw [Stepping.exec_bind_of_ok h]
  rfl

/-- Behind a silent change everything counts as a step. -/
theorem step_of_silent (h : (expand macros e).exec env = (.ok (.silent e'), env')) :
    (step macros e).exec env =
      ((reduce macros env' e').map fun reduced => ⟨true, reduced.expr⟩, env') := by
  unfold step
  rw [Stepping.exec_bind_of_ok h]
  unfold settle
  rw [Stepping.exec_bind_of_ok (Stepping.exec_get env'), Stepping.exec_bind, Stepping.exec_lift]
  cases hreduced : reduce macros env' e' with
  | error err => rfl
  | ok reduced => rfl

theorem step_of_unchanged (h : (expand macros e).exec env = (.ok .unchanged, env')) :
    (step macros e).exec env = (reduce macros env' e, env') := by
  unfold step
  rw [Stepping.exec_bind_of_ok h]
  unfold settle
  rw [Stepping.exec_bind_of_ok (Stepping.exec_get env'), Stepping.exec_lift]

/-! ## The second pass

An item that does not step is left as it is, or becomes the procedure that it names. -/

/-- A symbol that names a procedure stands for it; everything else stands for itself. -/
def Environment.named (env : Environment) : Expr → Expr
  | .symbol name =>
    match env.get? name with
    | some value => if value.isFunction then value else .symbol name
    | none => .symbol name
  | e => e

theorem Environment.named_of_function {name : String} (hget : env.get? name = some e)
    (hf : e.isFunction = true) : env.named (.symbol name) = e := by
  simp only [named, hget]
  exact if_pos hf

theorem Environment.named_cases (env : Environment) (e : Expr) :
    env.named e = e ∨
      ∃ name f, e = .symbol name ∧ env.get? name = some f ∧ f.isFunction = true ∧
        env.named e = f := by
  cases e with
  | symbol name =>
    cases hget : env.get? name with
    | none =>
      left
      simp only [named, hget]
    | some value =>
      by_cases hf : value.isFunction = true
      · exact Or.inr ⟨name, value, rfl, hget, hf, named_of_function hget hf⟩
      · left
        simp only [named, hget]
        exact if_neg hf
  | _ => exact Or.inl rfl

theorem Environment.named_of_not_symbol (env : Environment) (h : ∀ name, e ≠ .symbol name) :
    env.named e = e := by
  cases e with
  | symbol name => exact absurd rfl (h name)
  | _ => rfl

theorem ne_symbol_of_isFunction (h : e.isFunction = true) (name : String) : e ≠ .symbol name := by
  rintro rfl
  cases h

theorem ne_sequence_of_isFunction (h : e.isFunction = true) (items : List Expr) :
    e ≠ .sequence items := by
  rintro rfl
  cases h

/-- What stands for a procedure already stands for itself. -/
theorem Environment.named_named (env : Environment) (e : Expr) :
    env.named (env.named e) = env.named e := by
  rcases env.named_cases e with h | ⟨name, f, -, -, hf, h⟩
  · rw [h, h]
  · rw [h]
    exact env.named_of_not_symbol (ne_symbol_of_isFunction hf)

theorem reduce_leaf (hsymbol : ∀ name, e ≠ .symbol name) (hsequence : ∀ items, e ≠ .sequence items) :
    reduce macros env e = .ok ⟨false, e⟩ := by
  cases e with
  | symbol name => exact absurd rfl (hsymbol name)
  | sequence items => exact absurd rfl (hsequence items)
  | _ => rfl

theorem reduce_special {items : List Expr} (h : macros.isMacroCall items = true) :
    reduce macros env (.sequence items) = .ok ⟨false, .sequence items⟩ := by
  rw [reduce, if_pos h]

theorem reduce_items {items : List Expr} (h : macros.isMacroCall items = false) :
    reduce macros env (.sequence items) =
      match reduceItems macros env items with
      | .error err => .error err
      | .ok (true, results) => .ok ⟨true, .sequence (rebuild results)⟩
      | .ok (false, results) =>
        match rebuild results with
        | [] => .ok ⟨false, .sequence items⟩
        | head :: args =>
          if head.isFunction then (applyCall head args).map fun r => ⟨true, r⟩
          else .ok ⟨false, .sequence items⟩ := by
  rw [reduce, if_neg (by simp [h])]
  cases reduceItems macros env items with
  | error err => rfl
  | ok found =>
    obtain ⟨stepped, results⟩ := found
    cases stepped with
    | true => rfl
    | false =>
      cases hcall : rebuild results with
      | nil => simp [bind, Except.bind, pure, Except.pure, hcall]
      | cons head args =>
        by_cases hf : head.isFunction = true
        · simp only [bind, Except.bind, pure, Except.pure, hcall, hf, if_true]
          cases applyCall head args <;> rfl
        · simp [bind, Except.bind, pure, Except.pure, hcall, hf]

/-- What does not step in the second pass stands for itself or for the procedure it names. -/
theorem reduce_still (h : reduce macros env e = .ok ⟨false, e'⟩) : e' = env.named e := by
  cases e with
  | symbol name =>
    rw [reduce] at h
    cases hget : env.get? name with
    | none =>
      rw [hget] at h
      cases h
      simp only [Environment.named, hget]
    | some value =>
      rw [hget] at h
      simp only [Except.ok.injEq, Step.mk.injEq, Bool.not_eq_eq_eq_not, Bool.not_false] at h
      obtain ⟨hf, rfl⟩ := h
      exact (Environment.named_of_function hget hf).symm
  | sequence items =>
    -- a sequence that does not step is handed back as it came, its items unnamed
    show e' = .sequence items
    by_cases hmacro : macros.isMacroCall items = true
    · rw [reduce_special hmacro] at h
      cases h
      rfl
    · rw [reduce_items (by simpa using hmacro)] at h
      split at h
      · cases h
      · cases h
      · split at h
        · cases h
          rfl
        · split at h
          · -- an applied call counts as a step
            rename_i head args _ _
            cases hcall : applyCall head args with
            | error err =>
              rw [hcall] at h
              cases h
            | ok r =>
              rw [hcall] at h
              cases h
          · cases h
            rfl
  | _ =>
    cases h
    rfl

/-- The second pass on a list: it steps the first item and stops, or the first item does not step and
the pass goes on behind it. -/
theorem reduceItems_cons_cases {item : Expr} {rest results : List Expr} {stepped : Bool}
    (h : reduceItems macros env (item :: rest) = .ok (stepped, results)) :
    (∃ item', reduce macros env item = .ok ⟨true, item'⟩ ∧ stepped = true ∧
      results = item' :: rest) ∨
    (reduce macros env item = .ok ⟨false, env.named item⟩ ∧
      ∃ others, reduceItems macros env rest = .ok (stepped, others) ∧
        results = env.named item :: others) := by
  rw [reduceItems] at h
  cases hfirst : reduce macros env item with
  | error err =>
    rw [hfirst] at h
    cases h
  | ok first =>
    obtain ⟨moved, first⟩ := first
    rw [hfirst] at h
    cases moved with
    | true =>
      cases h
      exact Or.inl ⟨first, rfl, rfl, rfl⟩
    | false =>
      have hnamed := reduce_still hfirst
      cases hrest : reduceItems macros env rest with
      | error err =>
        simp only [bind, Except.bind, hrest] at h
        cases h
      | ok found =>
        simp only [bind, Except.bind, hrest] at h
        cases h
        rw [hnamed]
        exact Or.inr ⟨rfl, found.2, rfl, rfl⟩

theorem reduceItems_still {items results : List Expr}
    (h : reduceItems macros env items = .ok (false, results)) :
    results = items.map env.named ∧
      ∀ x ∈ items, reduce macros env x = .ok ⟨false, env.named x⟩ := by
  induction items generalizing results with
  | nil =>
    rw [reduceItems] at h
    cases h
    exact ⟨rfl, nofun⟩
  | cons item rest ih =>
    rcases reduceItems_cons_cases h with ⟨item', -, hmoved, -⟩ | ⟨hitem, others, hrest, rfl⟩
    · cases hmoved
    · obtain ⟨rfl, hall⟩ := ih hrest
      exact ⟨rfl, List.forall_mem_cons.mpr ⟨hitem, hall⟩⟩

/-- A list in which the second pass steps an item: the items before it do not step, and those behind
it are not visited. -/
theorem reduceItems_moved {items results : List Expr}
    (h : reduceItems macros env items = .ok (true, results)) :
    ∃ before x after x', items = before ++ x :: after ∧
      (∀ b ∈ before, reduce macros env b = .ok ⟨false, env.named b⟩) ∧
      reduce macros env x = .ok ⟨true, x'⟩ ∧
      results = before.map env.named ++ x' :: after := by
  induction items generalizing results with
  | nil =>
    rw [reduceItems] at h
    cases h
  | cons item rest ih =>
    rcases reduceItems_cons_cases h with ⟨item', hitem, -, rfl⟩ | ⟨hitem, others, hrest, rfl⟩
    · exact ⟨[], item, rest, item', rfl, nofun, hitem, rfl⟩
    · obtain ⟨before, x, after, x', rfl, hbefore, hx, rfl⟩ := ih hrest
      exact ⟨item :: before, x, after, x', rfl, List.forall_mem_cons.mpr ⟨hitem, hbefore⟩, hx, rfl⟩

end Redex
