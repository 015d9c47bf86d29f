import Redex.Proofs.Stepping

/-!
# The answers of special forms

What the rule of each standard special form answers when it is run, by the shape of its arguments
and by the steps of the parts that it takes. A definition binds its names when the layer is open; an
`if` chooses a branch or steps its test; an `apply` steps its function, then its last argument, and
becomes the plain call.

* **`symbolNames_eq_ok_iff`** — a list has the names of its symbols, if it holds nothing else.
* **`define_exec`**, **`defineStruct_exec`** — definitions.
* **`conditional_false`**, **`conditional_true`**, **`conditional_undecided`** — `if`, and
  **`conditional_deferred`** — when it waits.
* **`spread_moved`**, **`spread_still`** — `apply`.
* **`expand_becomes`**, **`expand_deferred`**, **`expand_malformed`**, **`expand_failed`** — what the
  first pass makes of an answer.
-/

namespace Redex

/-! ## Names in forms -/

theorem symbolNames_map (wrong : Expr → Error) (names : List String) :
    symbolNames wrong (names.map Expr.symbol) = .ok names := by
  induction names with
  | nil => rfl
  | cons name names ih =>
    rw [List.map_cons, symbolNames, ih]
    rfl

theorem symbolNames_eq_ok_iff {wrong : Expr → Error} {items : List Expr} {names : List String} :
    symbolNames wrong items = .ok names ↔ items = names.map Expr.symbol := by
  constructor
  · intro h
    induction items generalizing names with
    | nil =>
      cases h
      rfl
    | cons item items ih =>
      cases item with
      | symbol name =>
        cases hrest : symbolNames wrong items with
        | error err =>
          simp only [symbolNames, hrest] at h
          cases h
        | ok others =>
          simp only [symbolNames, hrest] at h
          cases h
          rw [ih hrest]
          rfl
      | _ => cases h
  · rintro rfl
    exact symbolNames_map wrong names

theorem symbolNames_mem {wrong : Expr → Error} {items : List Expr} {names : List String}
    (h : symbolNames wrong items = .ok names) : ∀ name ∈ names, .symbol name ∈ items := by
  rw [symbolNames_eq_ok_iff.mp h]
  exact fun name hname => List.mem_map_of_mem hname

end Redex

namespace Redex.SpecialForm

variable {macros : MacroTable} {env env' : Environment} {head : Expr}

/-! ## Definitions -/

theorem define_exec {args : List Expr} {name : String} {value : Expr}
    (h : definition args = .ok (name, value)) (free : env.user.frozen = false) :
    (define args).exec env = (.ok (.becomes .undefined), env.bindAll [(name, value)]) := by
  have hdefine : (Stepping.define name value).exec env =
      (.ok (), env.bindAll [(name, value)]) := by
    rw [Stepping.exec_define, free]
    rfl
  simp only [define, h]
  rw [Stepping.exec_bind_of_ok hdefine]
  rfl

theorem define_exec_frozen {args : List Expr} {name : String} {value : Expr}
    (h : definition args = .ok (name, value)) (frozen : env.user.frozen = true) :
    (define args).exec env = (.error (.frozen name), env) := by
  have hdefine : (Stepping.define name value).exec env = (.error (.frozen name), env) := by
    rw [Stepping.exec_define, frozen]
    rfl
  simp only [define, h]
  exact Stepping.exec_bind_of_error hdefine _

theorem define_exec_malformed {args : List Expr} {err : Error} (h : definition args = .error err) :
    (define args).exec env = (.ok (.failed err), env) := by
  simp only [define, h]
  rfl

theorem defineStruct_exec {args : List Expr} {tag : String} {fields : List String}
    (h : structDefinition args = .ok (tag, fields)) (free : env.user.frozen = false) :
    (defineStruct args).exec env =
      (.ok (.becomes .undefined), env.bindAll (structProcedures tag fields)) := by
  simp only [defineStruct, h]
  rw [Stepping.exec_bind_of_ok (Stepping.exec_update env _ free)]
  rfl

/-- A struct definition binds at least its constructor. -/
theorem structProcedures_ne_nil (tag : String) (fields : List String) :
    structProcedures tag fields ≠ [] := by
  have hinsert : ∀ (name : String) (value : Expr) (entries : List (String × Expr)),
      Assoc.insert name value entries ≠ [] := by
    intro name value entries
    cases entries with
    | nil => exact List.cons_ne_nil _ _
    | cons p entries =>
      unfold Assoc.insert
      split
      · exact List.cons_ne_nil _ _
      · exact List.cons_ne_nil _ _
  -- later entries may replace the first, but none takes one away
  have hall : ∀ (pairs entries : List (String × Expr)), entries ≠ [] →
      Assoc.insertAll entries pairs ≠ [] := by
    intro pairs
    induction pairs with
    | nil => exact fun _ h => h
    | cons p pairs ih => exact fun entries _ => ih _ (hinsert p.1 p.2 entries)
  simp only [structProcedures, Assoc.ofList, List.map_cons]
  rw [Assoc.insertAll, List.foldl_cons]
  exact hall _ _ (hinsert _ _ [])

theorem defineStruct_exec_frozen {args : List Expr} {tag : String} {fields : List String}
    (h : structDefinition args = .ok (tag, fields)) (frozen : env.user.frozen = true) :
    ∃ err, (defineStruct args).exec env = (.error err, env) := by
  obtain ⟨p, pairs, hpairs⟩ := List.exists_cons_of_ne_nil (structProcedures_ne_nil tag fields)
  simp only [defineStruct, h]
  rw [hpairs]
  exact ⟨_, Stepping.exec_bind_of_error (Stepping.exec_update_frozen env p pairs frozen) _⟩

theorem defineStruct_exec_malformed {args : List Expr} {err : Error}
    (h : structDefinition args = .error err) :
    (defineStruct args).exec env = (.ok (.failed err), env) := by
  simp only [defineStruct, h]
  rfl

/-! ## `if` -/

section Conditional

variable {test thenBranch : Expr} {rest : List Expr} {stepTest : Stepping Step}

theorem conditional_false (h : test.isFalse = true) :
    (conditional macros head (test :: thenBranch :: rest) stepTest).exec env =
      (.ok (.becomes (rest.head?.getD (.boolean false))), env) := by
  simp only [conditional, h, if_true]
  rfl

theorem conditional_true :
    (conditional macros head (.boolean true :: thenBranch :: rest) stepTest).exec env =
      (.ok (.becomes thenBranch), env) := rfl

/-- An undecided test is left alone while it waits for a substitution, and stepped otherwise. -/
theorem conditional_undecided (undecided : test.isFalse = false) (notTrue : test ≠ .boolean true) :
    (conditional macros head (test :: thenBranch :: rest) stepTest).exec env =
      if mentionsUnbound env macros [] test then (.ok .deferred, env)
      else
        match stepTest.exec env with
        | (.error err, env') => (.error err, env')
        | (.ok s, env') =>
          (.ok (.becomes (if s.stepped then .sequence (head :: s.expr :: thenBranch :: rest)
            else thenBranch)), env') := by
  -- neither of the two decided branches is taken
  have hform : conditional macros head (test :: thenBranch :: rest) stepTest = (do
      if mentionsUnbound (← get) macros [] test then return .deferred
      let step ← stepTest
      if step.stepped then
        return .becomes (.sequence (head :: step.expr :: thenBranch :: rest))
      return .becomes thenBranch : Stepping Outcome) := by
    unfold conditional
    simp only [undecided, Bool.false_eq_true, if_false]
  rw [hform, Stepping.exec_bind_of_ok (Stepping.exec_get env)]
  by_cases hbound : mentionsUnbound env macros [] test = true
  · rw [if_pos hbound, if_pos hbound]
    rfl
  · rw [if_neg hbound, if_neg hbound, Stepping.exec_bind]
    cases stepTest.exec env with
    | mk result env' =>
      cases result with
      | error err => rfl
      | ok s => cases hs : s.stepped <;> simp [hs]

/-- An `if` defers only while its test mentions an unbound symbol. -/
theorem conditional_deferred {args : List Expr}
    (h : (conditional macros head args stepTest).exec env = (.ok .deferred, env')) :
    ∃ test branches, args = test :: branches ∧ mentionsUnbound env macros [] test = true := by
  match args, h with
  | [], h => cases h
  | [_], h => cases h
  | test :: thenBranch :: rest, h =>
    refine ⟨test, thenBranch :: rest, rfl, ?_⟩
    by_cases hfalse : test.isFalse = true
    · rw [conditional_false hfalse] at h
      cases h
    by_cases htrue : test = .boolean true
    · subst htrue
      rw [conditional_true] at h
      cases h
    rw [conditional_undecided (by simpa using hfalse) htrue] at h
    by_cases hunbound : mentionsUnbound env macros [] test = true
    · exact hunbound
    · rw [if_neg hunbound] at h
      split at h <;> cases h

end Conditional

/-! ## `apply` -/

section Spread

variable {function last f : Expr} {lead : List Expr} {stepFunction stepLast : Stepping Step}

/-- The answer of `apply`, with its last argument in view. -/
theorem spread_concat :
    spread head (function :: (lead ++ [last])) stepFunction stepLast = (do
      let first ← stepFunction
      if first.stepped then
        return .becomes (.sequence (head :: first.expr :: (lead ++ [last])))
      if !first.expr.isFunction then return .deferred
      let final ← stepLast
      if final.stepped then
        return .becomes (.sequence (head :: first.expr :: lead ++ [final.expr]))
      match final.expr with
      | .sequence items => return .becomes (.sequence (first.expr :: lead ++ items))
      | _ => return .deferred : Stepping Outcome) := by
  -- the rule looks for the last argument from the front; here it stands at the end
  have hlead : (lead ++ [last]).dropLast = lead := List.dropLast_concat
  cases hrest : lead ++ [last] with
  | nil => exact absurd hrest (by simp)
  | cons arg more =>
    rw [hrest] at hlead
    subst hlead
    rfl

theorem spread_failed {err : Error} (h : stepFunction.exec env = (.error err, env')) :
    (spread head (function :: (lead ++ [last])) stepFunction stepLast).exec env =
      (.error err, env') := by
  rw [spread_concat]
  exact Stepping.exec_bind_of_error h _

theorem spread_moved (h : stepFunction.exec env = (.ok ⟨true, f⟩, env')) :
    (spread head (function :: (lead ++ [last])) stepFunction stepLast).exec env =
      (.ok (.becomes (.sequence (head :: f :: (lead ++ [last])))), env') := by
  rw [spread_concat, Stepping.exec_bind_of_ok h]
  rfl

theorem spread_deferred (h : stepFunction.exec env = (.ok ⟨false, f⟩, env'))
    (notCallable : f.isFunction = false) :
    (spread head (function :: (lead ++ [last])) stepFunction stepLast).exec env =
      (.ok .deferred, env') := by
  rw [spread_concat, Stepping.exec_bind_of_ok h]
  simp only [notCallable, Bool.false_eq_true, if_false, Bool.not_false, if_true]
  rfl

/-- Once the function is a procedure, the last argument decides. -/
theorem spread_still (h : stepFunction.exec env = (.ok ⟨false, f⟩, env'))
    (callable : f.isFunction = true) :
    (spread head (function :: (lead ++ [last])) stepFunction stepLast).exec env =
      match stepLast.exec env' with
      | (.error err, env') => (.error err, env')
      | (.ok ⟨true, last'⟩, env') =>
        (.ok (.becomes (.sequence (head :: f :: (lead ++ [last'])))), env')
      | (.ok ⟨false, .sequence items⟩, env') =>
        (.ok (.becomes (.sequence (f :: (lead ++ items)))), env')
      | (.ok ⟨false, _⟩, env') => (.ok .deferred, env') := by
  rw [spread_concat, Stepping.exec_bind_of_ok h]
  simp only [callable, Bool.false_eq_true, if_false, Bool.not_true]
  rw [Stepping.exec_bind]
  cases stepLast.exec env' with
  | mk result env₁ =>
    cases result with
    | error err => rfl
    | ok s =>
      obtain ⟨stepped, e⟩ := s
      cases stepped with
      | true => rfl
      | false => cases e <;> rfl

theorem spread_failed_last {err : Error} {env₁ : Environment}
    (h : stepFunction.exec env = (.ok ⟨false, f⟩, env')) (callable : f.isFunction = true)
    (hlast : stepLast.exec env' = (.error err, env₁)) :
    (spread head (function :: (lead ++ [last])) stepFunction stepLast).exec env =
      (.error err, env₁) := by
  rw [spread_still h callable, hlast]

theorem spread_deferred_last {e : Expr} {env₁ : Environment}
    (h : stepFunction.exec env = (.ok ⟨false, f⟩, env')) (callable : f.isFunction = true)
    (hlast : stepLast.exec env' = (.ok ⟨false, e⟩, env₁)) (leaf : ∀ items, e ≠ .sequence items) :
    (spread head (function :: (lead ++ [last])) stepFunction stepLast).exec env =
      (.ok .deferred, env₁) := by
  rw [spread_still h callable, hlast]
  cases e with
  | sequence items => exact absurd rfl (leaf items)
  | _ => rfl

end Spread

/-! ## Taking up an answer

What the first pass makes of a special form, by the answer of its rule. -/

section Answer

variable {rule : MacroRule} {args : List Expr}

theorem expand_becomes {e : Expr} (hrule : macros.rule? head = some rule)
    (hrun : (run macros rule head args (stepFirst macros args) (stepLast macros args)).exec env =
      (.ok (.becomes e), env')) (h : head.isSymbol lambdaName = false) :
    (expand macros (.sequence (head :: args))).exec env = (.ok (.visible e), env') := by
  rw [expand_special hrule, Stepping.exec_bind_of_ok hrun]
  simp only [conclude, h]
  rfl

theorem expand_deferred (hrule : macros.rule? head = some rule)
    (hrun : (run macros rule head args (stepFirst macros args) (stepLast macros args)).exec env =
      (.ok .deferred, env')) :
    (expand macros (.sequence (head :: args))).exec env = (.ok .unchanged, env') := by
  rw [expand_special hrule, Stepping.exec_bind_of_ok hrun]
  rfl

theorem expand_malformed {err : Error} (hrule : macros.rule? head = some rule)
    (hrun : (run macros rule head args (stepFirst macros args) (stepLast macros args)).exec env =
      (.ok (.failed err), env')) :
    (expand macros (.sequence (head :: args))).exec env = (.error err, env') := by
  rw [expand_special hrule, Stepping.exec_bind_of_ok hrun]
  rfl

theorem expand_failed {err : Error} (hrule : macros.rule? head = some rule)
    (hrun : (run macros rule head args (stepFirst macros args) (stepLast macros args)).exec env =
      (.error err, env')) :
    (expand macros (.sequence (head :: args))).exec env = (.error err, env') := by
  rw [expand_special hrule]
  exact Stepping.exec_bind_of_error hrun _

end Answer

end Redex.SpecialForm
