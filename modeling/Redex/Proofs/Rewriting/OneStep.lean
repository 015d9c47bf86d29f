import Redex.Proofs.Rewriting.Passes

/-!
# One visible rewrite per step

A step that counts is one visible rewrite, whatever the two passes and the steps of the parts of
`if` and `apply` did to the tree on the way.

* **`step_rewrites`** is the general statement, for whatever can be said of the items of a call that
  is ready to be applied.
* **`Steady`** says that no sequence becomes a special form when the results of definitions leave
  it, **`InSightSteady`** asks this only of the sequences that the passes reach, and
  **`expand_again`** says that the first pass leaves nothing to do behind it in such trees.
* **`step_oneRewrite`** — the items of an applied call cannot be stepped by the second pass, and in
  a steady tree they cannot step at all.
* **`step_not_oneRewrite_settled`** — in a tree that is not steady they can.
-/

namespace Redex

variable {env env' : Environment} {e e' e₁ : Expr} {items : List Expr}

/-! ## The general statement -/

theorem Context.sizeOf_le_fill (C : Context) (r : Expr) : sizeOf r ≤ sizeOf (C.fill r) := by
  induction C with
  | hole => exact Nat.le_refl _
  | item before inner after ih =>
    have hmem : sizeOf (inner.fill r) < sizeOf (before ++ inner.fill r :: after) :=
      List.sizeOf_lt_of_mem (by simp)
    have hsize : sizeOf (Expr.sequence (before ++ inner.fill r :: after)) =
        1 + sizeOf (before ++ inner.fill r :: after) := Expr.sequence.sizeOf_spec _
    show sizeOf r ≤ sizeOf (Expr.sequence (before ++ inner.fill r :: after))
    omega

/-- The tree that the first pass hands to the second. -/
def HandedOn (env : Environment) (e e₁ : Expr) : Prop :=
  ((expand .standard e).exec env = (.ok .unchanged, env) ∧ e₁ = e) ∨
    (expand .standard e).exec env = (.ok (.silent e₁), env)

/-- A property of items that passes from a tree to what stands in it. -/
theorem Context.of_fill {K : Expr → Prop}
    (hitems : ∀ items, K (.sequence items) → ∀ x ∈ items, K x) (C : Context) {r : Expr}
    (h : K (C.fill r)) : K r := by
  induction C with
  | hole => exact h
  | item before inner after ih => exact ih (hitems _ h _ (by simp))

/-- A step of the second pass behind the first one. -/
theorem Reduces.oneRewrite {Done : Environment → Expr → Prop} {built : Bool}
    (h : Reduces env e₁ e') (silent : Silent env built e e₁) (quiet : Quiet .expansion env e)
    (hdone : ∀ a, Ready e₁ env a → Done env a) : OneRewrite Done env e e' env := by
  cases h with
  | @place C r r' prepared way rule left inside =>
    have hrule : Rule Done (OneRewrite Done) .reduction env r r' env :=
      rule.imp (fun _ _ _ a _ ha => hdone a ha) nofun
    exact .rewritten (silent.trans prepared) way hrule ⟨quiet, left, inside⟩

/-- A step that counts is one visible rewrite. `K` is what is known of the tree and of everything
in it, and `Done` what follows from it for the items of a call that is ready. -/
theorem step_rewrites {Done : Environment → Expr → Prop} {K : Expr → Prop}
    (hitems : ∀ items, K (.sequence items) → ∀ x ∈ items, K x)
    (hdone : ∀ e env e₁, K e → HandedOn env e e₁ → ∀ a, Ready e₁ env a → Done env a)
    (e : Expr) (hK : K e) (env : Environment) {e' : Expr} {env' : Environment}
    (h : (step .standard e).exec env = (.ok ⟨true, e'⟩, env')) : OneRewrite Done env e e' env' := by
  have hspec := expand_spec e env
  cases hexpand : (expand .standard e).exec env with
  | mk result env₁ =>
    rw [hexpand] at hspec
    cases hspec with
    | failed err =>
      rw [step_of_failed hexpand] at h
      cases h
    | unchanged quiet =>
      rw [step_of_unchanged hexpand] at h
      simp only [Prod.mk.injEq] at h
      obtain ⟨hreduce, rfl⟩ := h
      exact (reduce_spec e e' hreduce).oneRewrite (.refl e) quiet
        (hdone e env e hK (.inl ⟨hexpand, rfl⟩))
    | @silent e₁ silent quiet =>
      rw [step_of_silent hexpand] at h
      cases hreduce : reduce .standard env e₁ with
      | error err =>
        rw [hreduce] at h
        cases h
      | ok reduced =>
        obtain ⟨stepped, e₂⟩ := reduced
        rw [hreduce] at h
        cases h
        cases stepped with
        | true =>
          exact (reduce_spec e₁ e₂ hreduce).oneRewrite silent quiet
            (hdone e env e₁ hK (.inr hexpand))
        | false =>
          -- nothing but closures was built; the second pass may still take a symbol for its procedure
          rw [reduce_still hreduce]
          exact .expanded (silent.trans (.named env e₁))
    | @visible C r r' _ built silent way rule first =>
      rw [step_of_visible hexpand] at h
      cases h
      -- `if` and `apply` step a part of `r`: a smaller tree of which `K` is known as well
      have hr : K r ∧ sizeOf r ≤ sizeOf e := by
        obtain ⟨D, rfl, -⟩ := first
        exact ⟨D.of_fill hitems hK, D.sizeOf_le_fill r⟩
      refine .rewritten silent way (rule.imp nofun ?_) first
      rintro - items rfl a ha a' env₁ hstep
      have hsize : sizeOf a < sizeOf e := by
        have hmem : sizeOf a < sizeOf items := List.sizeOf_lt_of_mem ha
        have hseq : sizeOf (Expr.sequence items) = 1 + sizeOf items :=
          Expr.sequence.sizeOf_spec items
        omega
      exact step_rewrites hitems hdone a (hitems items hr.1 a ha) env hstep
termination_by sizeOf e

/-- A step that counts is one visible rewrite, and the second pass cannot step the items of a call
that it applies. -/
theorem step_rewrites_reduced (e : Expr) (env : Environment) {e' : Expr} {env' : Environment}
    (h : (step .standard e).exec env = (.ok ⟨true, e'⟩, env')) :
    OneRewrite Reduced env e e' env' := by
  refine step_rewrites (K := fun _ => True) (fun _ _ _ _ => trivial) ?_ e trivial env h
  rintro e env e₁ - - a ⟨x, -, hreduced, rfl⟩
  exact hreduced.named

/-! ## Nothing left to expand -/

/-- No sequence of the tree becomes a special form when the results of definitions leave it. -/
inductive Steady : Expr → Prop where
  | leaf {e : Expr} (h : ∀ items, e ≠ .sequence items) : Steady e
  | sequence {items : List Expr}
      (head : MacroTable.standard.isMacroCall (rebuild items) = true →
        MacroTable.standard.isMacroCall items = true)
      (all : ∀ x ∈ items, Steady x) : Steady (.sequence items)

theorem Steady.mem (h : Steady (.sequence items)) : ∀ x ∈ items, Steady x := by
  cases h with
  | leaf h => exact absurd rfl (h items)
  | sequence head all => exact all

theorem Steady.rebuild_plain (h : Steady (.sequence items))
    (plain : MacroTable.standard.isMacroCall items = false) :
    MacroTable.standard.isMacroCall (rebuild items) = false := by
  cases h with
  | leaf h => exact absurd rfl (h items)
  | sequence head all =>
    cases hmacro : MacroTable.standard.isMacroCall (rebuild items) with
    | false => rfl
    | true =>
      rw [head hmacro] at plain
      cases plain

/-- No sequence at a position that the passes reach becomes a special form when the results of
definitions leave it. -/
def InSightSteady (e : Expr) : Prop :=
  ∀ items, Stands (.sequence items) e → MacroTable.standard.isMacroCall items = false →
    MacroTable.standard.isMacroCall (rebuild items) = false

theorem Steady.inSight (h : Steady e) : InSightSteady e := by
  rintro items ⟨C, rfl, -⟩
  exact (C.of_fill (fun _ hsteady => hsteady.mem) h).rebuild_plain

theorem InSightSteady.mem (h : InSightSteady (.sequence items))
    (plain : MacroTable.standard.isMacroCall items = false) : ∀ x ∈ items, InSightSteady x :=
  fun _ hx inner hinner => h inner (hinner.item plain hx)

/-- What the first pass did to the items of a sequence that it left alone. -/
theorem Prepared.of_unchanged (plain : MacroTable.standard.isMacroCall items = false)
    (h : (expand .standard (.sequence items)).exec env = (.ok .unchanged, env')) :
    Prepared env false items items := by
  have hcases := expandItems_cases items fun x _ => expand_spec x env
  rw [expand_items plain, Stepping.exec_bind] at h
  generalize (expandItems .standard items).exec env = result at hcases h
  cases hcases with
  | failed _ err => cases h
  | unchanged prepared => exact prepared
  | silent prepared => cases h
  | visible prepared moved => cases h

/-- What the first pass did to the items of a sequence in which it only built closures. -/
theorem Prepared.of_silent (plain : MacroTable.standard.isMacroCall items = false)
    (h : (expand .standard (.sequence items)).exec env = (.ok (.silent e₁), env')) :
    ∃ results, Prepared env true items results ∧ e₁ = .sequence (rebuild results) := by
  have hcases := expandItems_cases items fun x _ => expand_spec x env
  rw [expand_items plain, Stepping.exec_bind] at h
  generalize (expandItems .standard items).exec env = result at hcases h
  cases hcases with
  | failed _ err => cases h
  | unchanged prepared => cases h
  | @silent _ results prepared =>
    cases h
    exact ⟨results, prepared, rfl⟩
  | visible prepared moved => cases h

theorem Prepared.mem_still {built : Bool} {xs ys : List Expr} (h : Prepared env built xs ys)
    (hbuilt : built = false) : ∀ x ∈ xs, (expand .standard x).exec env = (.ok .unchanged, env) := by
  induction h with
  | nil => nofun
  | still hx rest ih => exact List.forall_mem_cons.mpr ⟨hx, ih hbuilt⟩
  | built hx rest ih => cases hbuilt

/-- Behind the first pass the prepared items are left alone, if each of them is. -/
theorem Prepared.mem_again {built : Bool} {xs ys : List Expr} (h : Prepared env built xs ys)
    (again : ∀ x ∈ xs, ∀ y, (expand .standard x).exec env = (.ok (.silent y), env) →
      (expand .standard y).exec env = (.ok .unchanged, env)) :
    ∀ y ∈ ys, (expand .standard y).exec env = (.ok .unchanged, env) := by
  induction h with
  | nil => nofun
  | @still _ x xs ys hx rest ih =>
    exact List.forall_mem_cons.mpr ⟨hx, ih fun z hz => again z (List.mem_cons_of_mem x hz)⟩
  | @built _ x y xs ys hx rest ih =>
    exact List.forall_mem_cons.mpr ⟨again x List.mem_cons_self y hx,
      ih fun z hz => again z (List.mem_cons_of_mem x hz)⟩

/-- Building closures in the items does not change what the sequence starts with when the results of
definitions have left it. -/
theorem Prepared.rebuild_plain {built : Bool} {xs ys : List Expr} (h : Prepared env built xs ys)
    (plain : MacroTable.standard.isMacroCall (rebuild xs) = false) :
    MacroTable.standard.isMacroCall (rebuild ys) = false := by
  induction h with
  | nil => exact plain
  | @still _ x xs ys hx rest ih =>
    unfold rebuild at plain ih ⊢
    cases hundefined : x.isUndefined with
    | true =>
      rw [List.filter_cons_of_neg (by simp [hundefined])] at plain ⊢
      exact ih plain
    | false =>
      rw [List.filter_cons_of_pos (by simp [hundefined])] at plain ⊢
      exact plain
  | @built _ x y xs ys hx rest ih =>
    have hspec := expand_spec x env
    rw [hx] at hspec
    cases hspec with
    | silent silent quiet =>
      -- a closure or a sequence stands here now: neither is dropped, and neither names a form
      rcases silent.result rfl with hf | ⟨items, rfl⟩
      · cases y with
        | native p => rfl
        | closure params body name => rfl
        | _ => cases hf
      · rfl

theorem expandItems_unchanged
    (h : ∀ x ∈ items, (expand .standard x).exec env = (.ok .unchanged, env)) :
    (expandItems .standard items).exec env = (.ok .unchanged, env) := by
  induction items with
  | nil =>
    rw [expandItems]
    rfl
  | cons x xs ih =>
    have hxs := ih fun y hy => h y (List.mem_cons_of_mem x hy)
    rw [expandItems_cons (h x List.mem_cons_self) rfl, Stepping.exec_bind_of_ok hxs]
    rfl

/-- The first pass leaves a sequence alone, if it is no special form and each item is left alone. -/
theorem expand_sequence_unchanged (plain : MacroTable.standard.isMacroCall items = false)
    (h : ∀ x ∈ items, (expand .standard x).exec env = (.ok .unchanged, env)) :
    (expand .standard (.sequence items)).exec env = (.ok .unchanged, env) := by
  rw [expand_items plain, Stepping.exec_bind_of_ok (expandItems_unchanged h)]
  rfl

theorem expand_unchanged_of_stands {r : Expr} (hr : Stands r e)
    (h : (expand .standard e).exec env = (.ok .unchanged, env)) :
    (expand .standard r).exec env = (.ok .unchanged, env) := by
  obtain ⟨C, rfl, hopen⟩ := hr
  induction C with
  | hole => exact h
  | item before inner after ih =>
    obtain ⟨plain, hinner⟩ := hopen
    have hprepared := Prepared.of_unchanged plain h
    exact ih hinner (hprepared.mem_still rfl _ (by simp))

/-- In a steady tree the first pass leaves nothing to do for itself. -/
theorem expand_again (e : Expr) (steady : InSightSteady e) {e₁ : Expr}
    (h : (expand .standard e).exec env = (.ok (.silent e₁), env)) :
    (expand .standard e₁).exec env = (.ok .unchanged, env) := by
  induction e using Expr.sequence_induction generalizing e₁ with
  | leaf e hleaf =>
    rw [expand_leaf hleaf] at h
    cases h
  | sequence items ih =>
    cases plain : MacroTable.standard.isMacroCall items with
    | true =>
      cases items with
      | nil => cases plain
      | cons head args =>
        obtain ⟨rule, hrule⟩ := Option.isSome_iff_exists.mp plain
        -- of the special forms only `lambda` is silent, and a closure is no sequence
        have hparts : ∀ a ∈ args, Framed env ((step .standard a).exec env) :=
          fun a _ => step_framed a env
        have hanswer := expand_special_cases hrule hparts
        rw [h] at hanswer
        cases hanswer with
        | closure rule =>
          cases rule with
          | closure hlambda =>
            obtain ⟨params, body, rfl⟩ := SpecialForm.lambda_becomes hlambda
            exact expand_leaf (fun _ => Expr.noConfusion) env
    | false =>
      obtain ⟨results, prepared, rfl⟩ := Prepared.of_silent plain h
      -- the items are left alone by the induction, the sequence because it is steady
      have hagain := prepared.mem_again fun x hx y hy => ih x hx (steady.mem plain x hx) hy
      have hrebuilt := steady items (Stands.refl _) plain
      refine expand_sequence_unchanged (prepared.rebuild_plain hrebuilt) ?_
      intro y hy
      exact hagain y (List.mem_filter.mp hy).1

/-- What the first pass leaves alone may be taken for the procedure that it names. -/
theorem expand_named (h : (expand .standard e).exec env = (.ok .unchanged, env)) :
    (expand .standard (env.named e)).exec env = (.ok .unchanged, env) := by
  rcases env.named_cases e with hnamed | ⟨name, f, -, -, hf, hnamed⟩
  · rw [hnamed]
    exact h
  · rw [hnamed]
    exact expand_leaf (ne_sequence_of_isFunction hf) env

theorem Ready.settled {a : Expr} (steady : Steady e) (handed : HandedOn env e e₁)
    (h : Ready e₁ env a) : Settled env a := by
  obtain ⟨x, hx, hreduced, rfl⟩ := h
  have he₁ : (expand .standard e₁).exec env = (.ok .unchanged, env) := by
    rcases handed with ⟨hunchanged, rfl⟩ | hsilent
    · exact hunchanged
    · exact expand_again e steady.inSight hsilent
  -- neither pass can do anything with `x`, nor with the procedure that it names
  have hexpand := expand_named (expand_unchanged_of_stands hx he₁)
  refine ⟨env.named (env.named x), ?_⟩
  rw [step_of_unchanged hexpand, hreduced.named.reduce_eq]

/-! ## One visible rewrite -/

/-- A step that counts is one visible rewrite at the first position of its pass. The items of an
applied call cannot be stepped by the second pass; in a steady tree they cannot step at all. -/
theorem step_oneRewrite (e : Expr) (env : Environment) {e' : Expr} {env' : Environment}
    (h : (step .standard e).exec env = (.ok ⟨true, e'⟩, env')) :
    OneRewrite Reduced env e e' env' ∧ (Steady e → OneRewrite Settled env e e' env') := by
  refine ⟨step_rewrites_reduced e env h, ?_⟩
  intro steady
  exact step_rewrites (fun _ hsteady => hsteady.mem)
    (fun e env e₁ hsteady handed a ha => ha.settled hsteady handed) e steady env h

/-- `(not #t)` becomes `#f` by one visible rewrite. -/
theorem step_oneRewrite_not :
    OneRewrite Reduced .fresh (.sequence [.symbol "not", .boolean true]) (.boolean false) .fresh ∧
      OneRewrite Settled .fresh (.sequence [.symbol "not", .boolean true]) (.boolean false)
        .fresh := by
  have hstep : (step .standard (.sequence [.symbol "not", .boolean true])).exec .fresh =
      (.ok ⟨true, .boolean false⟩, .fresh) := rfl
  have hsteady : Steady (.sequence [.symbol "not", .boolean true]) := by
    refine .sequence (fun h => h) ?_
    intro x hx
    refine .leaf ?_
    rintro items rfl
    simp at hx
  obtain ⟨hreduced, hsettled⟩ := step_oneRewrite _ _ hstep
  exact ⟨hreduced, hsettled hsteady⟩

/-! ## A tree that is not steady

In `(not (Undefined list (lambda () #t) x))` the argument becomes a special form when the result of
the definition leaves it, after the first pass and before the second. The second leaves special
forms alone, so `not` is applied to an argument that can step. -/

namespace Unsteady

/-- A user layer that binds `x` to `#t`, in front of the built-ins. -/
def start : Environment :=
  Environment.fresh.bindAll [("x", .boolean true)]

/-- `(lambda () #t)` as it is written. -/
def literal : Expr :=
  .sequence [.symbol "lambda", .sequence [], .boolean true]

/-- The closure of `(lambda () #t)`. -/
def closure : Expr :=
  .closure (.fixed []) (.boolean true) Expr.anonymous

/-- `(not (Undefined list (lambda () #t) x))`. -/
def call : Expr :=
  .sequence [.symbol "not", .sequence [.undefined, .symbol "list", literal, .symbol "x"]]

/-- What silent rewrites can make of the argument. -/
inductive Argument : Expr → Prop where
  | behind {f : Expr} (hf : f = literal ∨ f = closure) :
      Argument (.sequence [.undefined, .symbol "list", f, .symbol "x"])
  | special {f : Expr} (hf : f = literal ∨ f = closure) :
      Argument (.sequence [.symbol "list", f, .symbol "x"])

/-- What silent rewrites can make of the call. -/
inductive Call : Expr → Prop where
  | mk {head arg : Expr} (hhead : head = .symbol "not" ∨ head = .native (.builtin .not))
      (harg : Argument arg) : Call (.sequence [head, arg])

theorem literal_step {built : Bool} {b : Expr} (h : SilentStep start built literal b) :
    b = closure := by
  rcases h.sequence_cases with hrule | ⟨plain, -⟩
  · rcases hrule.sequence_cases with ⟨args, hargs, hlambda⟩ | ⟨plain, -⟩
    · cases hargs
      cases hlambda
      rfl
    · cases plain
  · cases plain

/-- A symbol that names no procedure stays. -/
theorem no_step_of_symbol {built : Bool} {name : String} {b : Expr}
    (hname : ∀ f, start.get? name = some f → f.isFunction = false) :
    ¬ SilentStep start built (.symbol name) b := by
  intro h
  cases h.of_leaf nofun with
  | procedure bound callable =>
    rw [hname _ bound] at callable
    cases callable

theorem Argument.step {built : Bool} {a b : Expr} (ha : Argument a)
    (h : SilentStep start built a b) : Argument b := by
  cases ha with
  | special hf =>
    rcases h.sequence_cases with hrule | ⟨plain, -⟩
    · rcases hrule.sequence_cases with ⟨args, hargs, -⟩ | ⟨plain, -⟩
      · simp [lambdaName] at hargs
      · cases plain
    · cases plain
  | @behind f hf =>
    rcases h.sequence_cases with hrule | ⟨-, before, x, x', after, hitems, hx, rfl⟩
    · rcases hrule.sequence_cases with ⟨args, hargs, -⟩ | ⟨-, rfl⟩
      · cases hargs
      · rcases hf with rfl | rfl
        · exact .special (.inl rfl)
        · exact .special (.inr rfl)
    · match before, hitems with
      | [], hitems =>
        cases hitems
        cases hx.of_leaf nofun
      | [_], hitems =>
        cases hitems
        have hlist : start.get? "list" = none := rfl
        refine absurd hx (no_step_of_symbol ?_)
        rw [hlist]
        nofun
      | [_, _], hitems =>
        cases hitems
        rcases hf with rfl | rfl
        · rw [literal_step hx]
          exact .behind (.inr rfl)
        · cases hx.of_leaf nofun
      | [_, _, _], hitems =>
        cases hitems
        have hbound : start.get? "x" = some (.boolean true) := rfl
        refine absurd hx (no_step_of_symbol ?_)
        rw [hbound]
        rintro f ⟨⟩
        rfl
      | _ :: _ :: _ :: _ :: _, hitems => simp at hitems

theorem Argument.ne_undefined {a : Expr} (ha : Argument a) : a.isUndefined = false := by
  cases ha <;> rfl

theorem Call.step {built : Bool} {a b : Expr} (ha : Call a) (h : SilentStep start built a b) :
    Call b := by
  cases ha with
  | @mk head arg hhead harg =>
    rcases h.sequence_cases with hrule | ⟨-, before, x, x', after, hitems, hx, rfl⟩
    · rcases hrule.sequence_cases with ⟨args, hargs, -⟩ | ⟨-, rfl⟩
      · rcases hhead with rfl | rfl <;> simp [lambdaName] at hargs
      · have hdefined : head.isUndefined = false := by rcases hhead with rfl | rfl <;> rfl
        have hrebuild : rebuild [head, arg] = [head, arg] := by
          simp [rebuild, hdefined, harg.ne_undefined]
        rw [hrebuild]
        exact .mk hhead harg
    · match before, hitems with
      | [], hitems =>
        cases hitems
        rcases hhead with rfl | rfl
        · have hnot : start.get? "not" = some (.native (.builtin .not)) := rfl
          cases hx.of_leaf nofun with
          | procedure bound callable =>
            rw [hnot] at bound
            cases bound
            exact .mk (.inr rfl) harg
        · cases hx.of_leaf nofun
      | [_], hitems =>
        cases hitems
        exact .mk hhead (harg.step hx)
      | _ :: _ :: _, hitems => simp at hitems

theorem Call.silent {built : Bool} {a b : Expr} (ha : Call a) (h : Silent start built a b) :
    Call b := by
  induction h with
  | refl e => exact ha
  | step first rest ih => exact ih (ha.step first)

/-- The argument can step, whatever silent rewrites have made of it. -/
theorem Argument.not_settled {a : Expr} (ha : Argument a) : ¬ Settled start a := by
  rintro ⟨a', ha'⟩
  cases ha with
  | behind hf => rcases hf with rfl | rfl <;> cases ha'
  | special hf => rcases hf with rfl | rfl <;> cases ha'

/-- Only an application rewrites the call, and it asks for an argument that is done. -/
theorem Call.rule {Done : Environment → Expr → Prop}
    {Part : Environment → Expr → Expr → Environment → Prop} {pass : Pass} {env env' : Environment}
    {r r' : Expr} (hcall : Call r) (h : Rule Done Part pass env r r' env') :
    ∃ arg, Argument arg ∧ Done env arg := by
  cases hcall with
  | @mk head arg hhead harg =>
    cases pass with
    | expansion =>
      have hspecial := h.isMacroCall
      rcases hhead with rfl | rfl <;> cases hspecial
    | reduction =>
      cases h with
      | application callable done result => exact ⟨arg, harg, done arg (by simp)⟩

theorem step_call : (step .standard call).exec start = (.ok ⟨true, .boolean false⟩, start) := rfl

end Unsteady

/-- In a tree that is not steady a call may be applied although an item of it can step. -/
theorem step_not_oneRewrite_settled :
    ¬ ∀ (e e' : Expr) (env env' : Environment),
      (step .standard e).exec env = (.ok ⟨true, e'⟩, env') → OneRewrite Settled env e e' env' := by
  intro hall
  have hone := hall _ _ _ _ Unsteady.step_call
  have hcall : Unsteady.Call Unsteady.call := .mk (.inl rfl) (.behind (.inl rfl))
  generalize hresult : Expr.boolean false = e' at hone
  cases hone with
  | expanded silent =>
    subst hresult
    cases hcall.silent silent
  | @rewritten pass _ _ _ r r' C built silent way rule first =>
    cases C with
    | item before inner after => cases hresult
    | hole =>
      -- the whole call was rewritten, and only by applying `not`
      obtain ⟨arg, harg, hsettled⟩ := (hcall.silent silent).rule rule
      exact harg.not_settled hsettled

end Redex
