import Redex.Proofs.Stepping

/-!
# Positions and silent rewrites

A step rewrites at a *position*: a way through the items of sequences of which none is a special
form. On the way it may prepare the tree without this counting as a step.

* **`Context`** is a tree with one hole, **`Context.fill`** puts an expression there, and
  **`Context.rebuilt`** does so and drops the results of definitions from the sequences on the way.
* **`Context.Open`** says that no sequence on the way to the hole is a special form, and
  **`Stands`** that an expression stands at such a position.
* **`Silent`** is any number of silent rewrites at such positions, with the word whether one of them
  built a closure.
* **`SilentItems.sequence`** lifts silent rewrites of the items to the sequence around them.
-/

namespace Redex

/-! ## Positions -/

/-- A tree with one hole, given by the way to it through the items of sequences. -/
inductive Context where
  | hole
  | item (before : List Expr) (inner : Context) (after : List Expr)

namespace Context

/-- The tree with an expression in its hole. -/
def fill : Context → Expr → Expr
  | hole, e => e
  | item before inner after, e => .sequence (before ++ inner.fill e :: after)

/-- The tree with an expression in its hole, in which the sequences on the way are rebuilt. -/
def rebuilt : Context → Expr → Expr
  | hole, e => e
  | item before inner after, e => .sequence (rebuild (before ++ inner.rebuilt e :: after))

/-- No sequence on the way to the hole is a special form. -/
def Open : Context → Expr → Prop
  | hole, _ => True
  | item before inner after, e =>
    MacroTable.standard.isMacroCall (before ++ inner.fill e :: after) = false ∧ inner.Open e

/-- The items to the left of the way to the hole. -/
def left : Context → List Expr
  | hole => []
  | item before inner _ => before ++ inner.left

/-- The way to the hole, as the numbers of items passed on each level. -/
def path : Context → List Nat
  | hole => []
  | item before inner _ => before.length :: inner.path

end Context

/-- An expression stands in a tree at a position that the passes reach. -/
def Stands (r e : Expr) : Prop :=
  ∃ C : Context, e = C.fill r ∧ C.Open r

theorem Stands.refl (e : Expr) : Stands e e :=
  ⟨.hole, rfl, trivial⟩

theorem Stands.item {r x : Expr} {items : List Expr} (h : Stands r x)
    (plain : MacroTable.standard.isMacroCall items = false) (hx : x ∈ items) :
    Stands r (.sequence items) := by
  obtain ⟨C, rfl, hopen⟩ := h
  obtain ⟨before, after, rfl⟩ := List.append_of_mem hx
  exact ⟨.item before C after, rfl, plain, hopen⟩

/-- What stands in a sequence is the sequence itself, or stands in an item of it. -/
theorem Stands.sequence_cases {r : Expr} {items : List Expr} (h : Stands r (.sequence items)) :
    r = .sequence items ∨
      MacroTable.standard.isMacroCall items = false ∧ ∃ x ∈ items, Stands r x := by
  obtain ⟨C, hfill, hopen⟩ := h
  cases C with
  | hole => exact Or.inl hfill.symm
  | item before inner after =>
    obtain ⟨plain, hinner⟩ := hopen
    simp only [Context.fill, Expr.sequence.injEq] at hfill
    subst hfill
    exact Or.inr ⟨plain, inner.fill r, by simp, inner, rfl, hinner⟩

theorem Stands.eq_of_leaf {r e : Expr} (h : Stands r e) (leaf : ∀ items, e ≠ .sequence items) :
    r = e := by
  obtain ⟨C, hfill, -⟩ := h
  cases C with
  | hole => exact hfill.symm
  | item before inner after => exact absurd hfill (leaf _)

/-! ## Silent rewrites -/

/-- The silent rules: a literal closure is built, a symbol becomes the procedure that it names, and
the results of definitions leave a sequence. The flag says that a closure is built. -/
inductive SilentRule (env : Environment) : Bool → Expr → Expr → Prop where
  | closure {args : List Expr} {e : Expr} (h : SpecialForm.lambda args = .becomes e) :
      SilentRule env true (.sequence (.symbol lambdaName :: args)) e
  | procedure {name : String} {f : Expr} (bound : env.get? name = some f)
      (callable : f.isFunction = true) : SilentRule env false (.symbol name) f
  | drop {items : List Expr} (plain : MacroTable.standard.isMacroCall items = false) :
      SilentRule env false (.sequence items) (.sequence (rebuild items))

/-- One silent rewrite, at a position that the passes reach. -/
inductive SilentStep (env : Environment) : Bool → Expr → Expr → Prop where
  | place {C : Context} {built : Bool} {a b : Expr} (way : C.Open a) (rule : SilentRule env built a b) :
      SilentStep env built (C.fill a) (C.fill b)

/-- Any number of silent rewrites. The flag says that one of them builds a closure. -/
inductive Silent (env : Environment) : Bool → Expr → Expr → Prop where
  | refl (e : Expr) : Silent env false e e
  | step {built built' : Bool} {e e₁ e₂ : Expr} (first : SilentStep env built e e₁)
      (rest : Silent env built' e₁ e₂) : Silent env (built || built') e e₂

/-- Silent rewrites of the items of a list, each by itself. -/
inductive SilentItems (env : Environment) : Bool → List Expr → List Expr → Prop where
  | nil : SilentItems env false [] []
  | cons {built built' : Bool} {x y : Expr} {xs ys : List Expr} (first : Silent env built x y)
      (rest : SilentItems env built' xs ys) :
      SilentItems env (built || built') (x :: xs) (y :: ys)

variable {env : Environment} {built built' : Bool} {a b c : Expr}

/-- A `lambda` form that is well-formed becomes a closure without a name. -/
theorem SpecialForm.lambda_becomes {args : List Expr} {e : Expr}
    (h : SpecialForm.lambda args = .becomes e) :
    ∃ params body, e = .closure params body Expr.anonymous := by
  cases args with
  | nil => cases h
  | cons spec rest =>
    cases hspec : Params.ofSpec spec with
    | error err =>
      simp only [SpecialForm.lambda, hspec] at h
      cases h
    | ok params =>
      simp only [SpecialForm.lambda, hspec] at h
      cases h
      exact ⟨params, _, rfl⟩

theorem SilentRule.sequence_cases {items : List Expr} (h : SilentRule env built (.sequence items) b) :
    (∃ args, items = .symbol lambdaName :: args ∧ SpecialForm.lambda args = .becomes b) ∨
      MacroTable.standard.isMacroCall items = false ∧ b = .sequence (rebuild items) := by
  cases h with
  | @closure args _ h => exact Or.inl ⟨args, rfl, h⟩
  | drop plain => exact Or.inr ⟨plain, rfl⟩

theorem SilentRule.result (h : SilentRule env built a b) :
    b.isFunction = true ∨ ∃ items, b = .sequence items := by
  cases h with
  | closure h =>
    obtain ⟨params, body, rfl⟩ := SpecialForm.lambda_becomes h
    exact Or.inl rfl
  | procedure bound callable => exact Or.inl callable
  | drop plain => exact Or.inr ⟨_, rfl⟩

theorem SilentStep.result (h : SilentStep env built a b) :
    b.isFunction = true ∨ ∃ items, b = .sequence items := by
  cases h with
  | @place C _ a b way rule =>
    cases C with
    | hole => exact rule.result
    | item before inner after => exact Or.inr ⟨_, rfl⟩

theorem SilentStep.rule?_eq_none (h : SilentStep env built a b) :
    MacroTable.standard.rule? b = none := by
  rcases h.result with hf | ⟨items, rfl⟩
  · exact MacroTable.rule?_eq_none_of_not_symbol _ (ne_symbol_of_isFunction hf)
  · rfl

theorem SilentStep.of_leaf (h : SilentStep env built a b) (leaf : ∀ items, a ≠ .sequence items) :
    SilentRule env built a b := by
  cases h with
  | @place C _ a b way rule =>
    cases C with
    | hole => exact rule
    | item before inner after => exact absurd rfl (leaf _)

/-- A silent rewrite of a sequence is one of the whole, or one of an item. -/
theorem SilentStep.sequence_cases {items : List Expr}
    (h : SilentStep env built (.sequence items) b) :
    SilentRule env built (.sequence items) b ∨
      MacroTable.standard.isMacroCall items = false ∧ ∃ before x x' after,
        items = before ++ x :: after ∧ SilentStep env built x x' ∧
          b = .sequence (before ++ x' :: after) := by
  generalize hitems : Expr.sequence items = a at h
  cases h with
  | @place C _ a b way rule =>
    cases C with
    | hole => exact Or.inl rule
    | item before inner after =>
      obtain ⟨plain, hinner⟩ := way
      simp only [Context.fill, Expr.sequence.injEq] at hitems
      subst hitems
      exact Or.inr ⟨plain, before, _, _, after, rfl, .place hinner rule, rfl⟩

/-- Building a closure leaves a procedure or a sequence. -/
theorem Silent.result (h : Silent env built a b) (hbuilt : built = true) :
    b.isFunction = true ∨ ∃ items, b = .sequence items := by
  -- the last rewrite decides, so the induction starts behind the first one
  have hlast : ∀ {built built' : Bool} {a c b : Expr}, SilentStep env built a c →
      Silent env built' c b → b.isFunction = true ∨ ∃ items, b = .sequence items := by
    intro built built' a c b first rest
    induction rest generalizing built a with
    | refl e => exact first.result
    | step next rest ih => exact ih next
  cases h with
  | refl e => cases hbuilt
  | step first rest => exact hlast first rest

/-- No silent rewrite makes the head of a special form. -/
theorem Silent.rule?_eq_none (h : Silent env built a b)
    (ha : MacroTable.standard.rule? a = none) : MacroTable.standard.rule? b = none := by
  induction h with
  | refl e => exact ha
  | step first rest ih =>
    exact ih first.rule?_eq_none

theorem Silent.trans (h : Silent env built a b) (h' : Silent env built' b c) :
    Silent env (built || built') a c := by
  induction h with
  | refl e => exact h'
  | step first rest ih =>
    rw [Bool.or_assoc]
    exact .step first (ih h')

theorem Silent.single (h : SilentStep env built a b) : Silent env built a b := by
  have := Silent.step h (.refl b)
  rwa [Bool.or_false] at this

theorem Silent.of_rule (h : SilentRule env built a b) : Silent env built a b :=
  .single (SilentStep.place (C := .hole) trivial h)

/-- Silent rewrites of an item are silent rewrites of the sequence, if that is no special form. -/
theorem Silent.item (before after : List Expr) (h : Silent env built a b)
    (plain : MacroTable.standard.isMacroCall (before ++ a :: after) = false) :
    Silent env built (.sequence (before ++ a :: after)) (.sequence (before ++ b :: after)) := by
  induction h with
  | refl e => exact .refl _
  | step first rest ih =>
    -- the rewritten item is no symbol, so the sequence is still no special form
    have plain' := MacroTable.isMacroCall_replace _ before after plain fun _ =>
      first.rule?_eq_none
    refine .step ?_ (ih plain')
    cases first with
    | @place C _ a b way rule =>
      exact SilentStep.place (C := .item before C after) ⟨plain, way⟩ rule

/-- Silent rewrites of its first items do not make a sequence a special form. -/
theorem SilentItems.isMacroCall {xs ys : List Expr} (h : SilentItems env built xs ys)
    (after : List Expr) (plain : MacroTable.standard.isMacroCall (xs ++ after) = false) :
    MacroTable.standard.isMacroCall (ys ++ after) = false := by
  cases h with
  | nil => exact plain
  | @cons _ _ x y xs ys first rest =>
    -- the head decides, and its rewrites make no head of a special form
    have hnone : MacroTable.standard.rule? x = none := by simpa using plain
    simpa using first.rule?_eq_none hnone

theorem SilentItems.length_eq {xs ys : List Expr} (h : SilentItems env built xs ys) :
    xs.length = ys.length := by
  induction h with
  | nil => rfl
  | cons first rest ih => rw [List.length_cons, List.length_cons, ih]

/-- Silent rewrites of a stretch of items are silent rewrites of the sequence. -/
theorem SilentItems.sequence {xs ys : List Expr} (h : SilentItems env built xs ys)
    (before after : List Expr)
    (plain : MacroTable.standard.isMacroCall (before ++ xs ++ after) = false) :
    Silent env built (.sequence (before ++ xs ++ after)) (.sequence (before ++ ys ++ after)) := by
  induction h generalizing before with
  | nil => exact .refl _
  | @cons _ _ x y xs ys first rest ih =>
    -- rewrite `x` in place, then go on with `y` among the items before
    have hxs : before ++ (x :: xs) ++ after = before ++ x :: (xs ++ after) := by simp
    rw [hxs] at plain ⊢
    have hitem := first.item before (xs ++ after) plain
    have plain' := MacroTable.isMacroCall_replace _ before (xs ++ after) plain first.rule?_eq_none
    have hmid : before ++ y :: (xs ++ after) = (before ++ [y]) ++ xs ++ after := by simp
    have hys : before ++ (y :: ys) ++ after = (before ++ [y]) ++ ys ++ after := by simp
    rw [hmid] at plain' hitem
    rw [hys]
    exact hitem.trans (ih (before ++ [y]) plain')

/-- Silent rewrites of all items, after which the results of definitions leave the sequence. -/
theorem SilentItems.rebuilt {xs ys : List Expr} (h : SilentItems env built xs ys)
    (plain : MacroTable.standard.isMacroCall xs = false) :
    Silent env built (.sequence xs) (.sequence (rebuild ys)) := by
  have hitems : Silent env built (.sequence xs) (.sequence ys) := by
    simpa using h.sequence [] [] (by simpa using plain)
  have hplain : MacroTable.standard.isMacroCall ys = false := by
    simpa using h.isMacroCall [] (by simpa using plain)
  have hdrop := hitems.trans (.of_rule (.drop hplain))
  rwa [Bool.or_false] at hdrop

theorem Silent.named (env : Environment) (e : Expr) : Silent env false e (env.named e) := by
  rcases env.named_cases e with h | ⟨name, f, rfl, hget, hf, h⟩
  · rw [h]
    exact .refl e
  · rw [h]
    exact .of_rule (.procedure hget hf)

theorem SilentItems.named (env : Environment) (items : List Expr) :
    SilentItems env false items (items.map env.named) := by
  induction items with
  | nil => exact .nil
  | cons x xs ih => exact .cons (Silent.named env x) ih

end Redex
