import Redex.Proofs.Rewriting.Rule

/-!
# What the two passes do

The specification of either pass, proved once along the recursion of the pass. Nothing later opens
the passes.

* **`expand_spec`** — the first pass fails, finds nothing to rewrite, builds closures, or makes one
  visible rewrite at the first position where it can; only the last changes the environment.
* **`step_framed`** — a step that fails, and one that does not count, leave the environment alone.
* **`reduce_quiet`** — the second pass says that it does not step only where it can rewrite nothing.
* **`reduce_spec`** — a step of the second pass is one visible rewrite at the first position where
  it can.
-/

namespace Redex

variable {env env' : Environment} {e e' : Expr} {items : List Expr} {pass : Pass}

/-! ## Nothing to rewrite -/

theorem Quiet.leaf (leaf : ∀ items, e ≠ .sequence items) (h : ¬ Fires pass env e) :
    Quiet pass env e := by
  intro r hr
  rw [hr.eq_of_leaf leaf]
  exact h

/-- The items of a special form are out of reach. -/
theorem Quiet.sequence (h : ¬ Fires pass env (.sequence items))
    (hitems : MacroTable.standard.isMacroCall items = false → ∀ x ∈ items, Quiet pass env x) :
    Quiet pass env (.sequence items) := by
  intro r hr
  rcases hr.sequence_cases with rfl | ⟨plain, x, hx, hr⟩
  · exact h
  · exact hitems plain x hx r hr

/-- Where the first pass makes no visible rewrite, no rule of it applies. -/
theorem not_fires_of_expand {change : Change Expr} {env₁ : Environment}
    (h : (expand .standard e).exec env = (.ok change, env₁))
    (invisible : ∀ e', change ≠ .visible e') : ¬ Fires .expansion env e := by
  rintro ⟨r', env', rule⟩
  rw [rule.expand_eq] at h
  cases h
  exact invisible r' rfl

/-! ## The first pass -/

/-- What may come of the first pass. -/
inductive Expanded (env : Environment) (e : Expr) :
    Except Error (Change Expr) × Environment → Prop where
  | failed (err : Error) : Expanded env e (.error err, env)
  | unchanged (quiet : Quiet .expansion env e) : Expanded env e (.ok .unchanged, env)
  | silent {e₁ : Expr} (silent : Silent env true e e₁) (quiet : Quiet .expansion env e) :
      Expanded env e (.ok (.silent e₁), env)
  | visible {C : Context} {r r' : Expr} {env' : Environment} {built : Bool}
      (silent : Silent env built e (C.fill r)) (way : C.Open r)
      (rule : Rule (fun _ _ => True) (fun _ _ _ _ => True) .expansion env r r' env')
      (first : First e C r env .expansion) :
      Expanded env e (.ok (.visible (C.rebuilt r')), env')

/-- A step that fails, and one that does not count, leave the environment alone. -/
theorem Expanded.framed (h : Expanded env e ((expand .standard e).exec env)) :
    Framed env ((step .standard e).exec env) := by
  cases hexpand : (expand .standard e).exec env with
  | mk result env' =>
    rw [hexpand] at h
    cases h with
    | failed err =>
      rw [step_of_failed hexpand]
      exact .failed err
    | unchanged quiet =>
      rw [step_of_unchanged hexpand]
      cases reduce .standard env e with
      | error err => exact .failed err
      | ok reduced =>
        obtain ⟨stepped, e'⟩ := reduced
        cases stepped with
        | true => exact .moved e' env
        | false => exact .still e'
    | @silent e₁ silent quiet =>
      rw [step_of_silent hexpand]
      cases reduce .standard env e₁ with
      | error err => exact .failed err
      | ok reduced => exact .moved reduced.expr env
    | visible silent way rule first =>
      rw [step_of_visible hexpand]
      exact .moved _ _

/-- The first pass over items that it does not step: each is left alone, or closures are built in
it. The flag says that some were. -/
inductive Prepared (env : Environment) : Bool → List Expr → List Expr → Prop where
  | nil : Prepared env false [] []
  | still {built : Bool} {x : Expr} {xs ys : List Expr}
      (h : (expand .standard x).exec env = (.ok .unchanged, env)) (rest : Prepared env built xs ys) :
      Prepared env built (x :: xs) (x :: ys)
  | built {built : Bool} {x y : Expr} {xs ys : List Expr}
      (h : (expand .standard x).exec env = (.ok (.silent y), env))
      (rest : Prepared env built xs ys) : Prepared env true (x :: xs) (y :: ys)

/-- What may come of the first pass over the items of a sequence. -/
inductive ItemsExpanded (env : Environment) :
    List Expr → Except Error (Change (List Expr)) × Environment → Prop where
  | failed (items : List Expr) (err : Error) : ItemsExpanded env items (.error err, env)
  | unchanged {items : List Expr} (prepared : Prepared env false items items) :
      ItemsExpanded env items (.ok .unchanged, env)
  | silent {items results : List Expr} (prepared : Prepared env true items results) :
      ItemsExpanded env items (.ok (.silent results), env)
  | visible {built : Bool} {before before' after : List Expr} {x x' : Expr} {env' : Environment}
      (prepared : Prepared env built before before')
      (moved : (expand .standard x).exec env = (.ok (.visible x'), env')) :
      ItemsExpanded env (before ++ x :: after) (.ok (.visible (before' ++ x' :: after)), env')

theorem ItemsExpanded.cons_still {x : Expr} {xs : List Expr}
    (hx : (expand .standard x).exec env = (.ok .unchanged, env))
    (h : ItemsExpanded env xs ((expandItems .standard xs).exec env)) :
    ItemsExpanded env (x :: xs) ((expandItems .standard (x :: xs)).exec env) := by
  rw [expandItems_cons hx rfl, Stepping.exec_bind]
  cases hrest : (expandItems .standard xs).exec env with
  | mk result env' =>
    rw [hrest] at h
    cases h with
    | failed _ err => exact .failed _ err
    | unchanged prepared => exact .unchanged (.still hx prepared)
    | silent prepared => exact .silent (.still hx prepared)
    | @visible _ before before' after x' y' _ prepared moved =>
      exact .visible (.still hx prepared) moved

theorem ItemsExpanded.cons_built {x y : Expr} {xs : List Expr}
    (hx : (expand .standard x).exec env = (.ok (.silent y), env))
    (h : ItemsExpanded env xs ((expandItems .standard xs).exec env)) :
    ItemsExpanded env (x :: xs) ((expandItems .standard (x :: xs)).exec env) := by
  rw [expandItems_cons hx rfl, Stepping.exec_bind]
  cases hrest : (expandItems .standard xs).exec env with
  | mk result env' =>
    rw [hrest] at h
    cases h with
    | failed _ err => exact .failed _ err
    | unchanged prepared => exact .silent (.built hx prepared)
    | silent prepared => exact .silent (.built hx prepared)
    | visible prepared moved => exact .visible (.built hx prepared) moved

/-- The first pass over the items of a sequence ends with the first of them that it steps. -/
theorem expandItems_cases (items : List Expr)
    (hitems : ∀ x ∈ items, Expanded env x ((expand .standard x).exec env)) :
    ItemsExpanded env items ((expandItems .standard items).exec env) := by
  induction items with
  | nil =>
    rw [expandItems]
    exact .unchanged .nil
  | cons x xs ih =>
    have hrest := ih fun y hy => hitems y (List.mem_cons_of_mem x hy)
    have hhead := hitems x List.mem_cons_self
    cases hx : (expand .standard x).exec env with
    | mk result env' =>
      rw [hx] at hhead
      cases hhead with
      | failed err =>
        rw [expandItems, consPass, Stepping.exec_bind_of_error hx]
        exact .failed _ err
      | unchanged quiet => exact .cons_still hx hrest
      | silent silent quiet => exact .cons_built hx hrest
      | visible silent way rule first =>
        rw [expandItems, consPass, Stepping.exec_bind_of_ok hx]
        exact .visible .nil hx

theorem Prepared.silent {built : Bool} {xs ys : List Expr} (h : Prepared env built xs ys)
    (hitems : ∀ x ∈ xs, Expanded env x ((expand .standard x).exec env)) :
    SilentItems env built xs ys := by
  induction h with
  | nil => exact .nil
  | @still _ x xs ys hx rest ih =>
    have hrest := ih fun y hy => hitems y (List.mem_cons_of_mem x hy)
    have := SilentItems.cons (.refl x) hrest
    rwa [Bool.false_or] at this
  | @built _ x y xs ys hx rest ih =>
    have hrest := ih fun z hz => hitems z (List.mem_cons_of_mem x hz)
    have hhead := hitems x List.mem_cons_self
    rw [hx] at hhead
    cases hhead with
    | silent silent quiet =>
      have := SilentItems.cons silent hrest
      rwa [Bool.true_or] at this

theorem Prepared.quiet {built : Bool} {xs ys : List Expr} (h : Prepared env built xs ys)
    (hitems : ∀ x ∈ xs, Expanded env x ((expand .standard x).exec env)) :
    ∀ x ∈ xs, Quiet .expansion env x := by
  induction h with
  | nil => nofun
  | @still _ x xs ys hx rest ih =>
    have hhead := hitems x List.mem_cons_self
    rw [hx] at hhead
    cases hhead with
    | unchanged quiet =>
      exact List.forall_mem_cons.mpr ⟨quiet, ih fun y hy => hitems y (List.mem_cons_of_mem x hy)⟩
  | @built _ x y xs ys hx rest ih =>
    have hhead := hitems x List.mem_cons_self
    rw [hx] at hhead
    cases hhead with
    | silent silent quiet =>
      exact List.forall_mem_cons.mpr ⟨quiet, ih fun y hy => hitems y (List.mem_cons_of_mem x hy)⟩

/-- A visible rewrite of an item, behind items that are only prepared, is one of the sequence. -/
theorem Expanded.item {built : Bool} {before before' after : List Expr} {x x' : Expr}
    (plain : MacroTable.standard.isMacroCall (before ++ x :: after) = false)
    (quiet : ∀ b ∈ before, Quiet .expansion env b) (prepared : SilentItems env built before before')
    (h : Expanded env x (.ok (.visible x'), env')) :
    Expanded env (.sequence (before ++ x :: after))
      (.ok (.visible (.sequence (rebuild (before' ++ x' :: after)))), env') := by
  cases h with
  | @visible C r r' _ built' silent way rule first =>
    obtain ⟨D, rfl, reached, same, left⟩ := first
    -- first the silent rewrites inside `x`, then those of the items before it
    have hitem := silent.item before after plain
    have hplain := MacroTable.isMacroCall_replace _ before after plain silent.rule?_eq_none
    have hprepared := prepared.sequence [] (C.fill r :: after) hplain
    have hway := prepared.isMacroCall (C.fill r :: after) hplain
    -- the position is judged in the tree as it was, so the way leads through `before`, not `before'`
    have hfirst : First (.sequence (before ++ D.fill r :: after)) (.item before' C after) r env
        .expansion := by
      refine ⟨.item before D after, rfl, ⟨plain, reached⟩, ?_, ?_⟩
      · simp only [Context.path, prepared.length_eq, same]
      · intro a ha
        rcases List.mem_append.mp ha with ha | ha
        · exact quiet a ha
        · exact left a ha
    exact .visible (C := .item before' C after) (hitem.trans hprepared) ⟨hway, way⟩ rule hfirst

/-- The first pass on a special form: its rule answers, and nothing inside it is reached. -/
theorem expand_spec_special {head : Expr} {args : List Expr}
    (special : MacroTable.standard.isMacroCall (head :: args) = true)
    (hargs : ∀ a ∈ args, Expanded env a ((expand .standard a).exec env)) :
    Expanded env (.sequence (head :: args))
      ((expand .standard (.sequence (head :: args))).exec env) := by
  obtain ⟨rule, hrule⟩ := Option.isSome_iff_exists.mp special
  have hanswer := expand_special_cases hrule fun a ha => (hargs a ha).framed
  -- a special form hides its items, so it is quiet once its own rule does not fire
  have hquiet : ∀ {change : Change Expr},
      (expand .standard (.sequence (head :: args))).exec env = (.ok change, env) →
      (∀ e', change ≠ .visible e') → Quiet .expansion env (.sequence (head :: args)) := by
    intro change hexpand hne
    refine .sequence (not_fires_of_expand hexpand hne) fun plain => ?_
    rw [special] at plain
    cases plain
  cases hexpand : (expand .standard (.sequence (head :: args))).exec env with
  | mk result env' =>
    rw [hexpand] at hanswer
    cases hanswer with
    | failed err => exact .failed err
    | deferred => exact .unchanged (hquiet hexpand nofun)
    | closure rule => exact .silent (.of_rule rule) (hquiet hexpand nofun)
    | rewritten rule =>
      exact .visible (C := .hole) (.refl _) trivial rule ⟨.hole, rfl, trivial, rfl, nofun⟩

/-- The first pass on any other sequence: what it does to the items. -/
theorem expand_spec_items (plain : MacroTable.standard.isMacroCall items = false)
    (hitems : ∀ x ∈ items, Expanded env x ((expand .standard x).exec env)) :
    Expanded env (.sequence items) ((expand .standard (.sequence items)).exec env) := by
  have hcases := expandItems_cases items hitems
  have hwhole := expand_items plain
  cases hexpand : (expandItems .standard items).exec env with
  | mk result env' =>
    rw [hexpand] at hcases
    cases hcases with
    | failed _ err =>
      rw [hwhole, Stepping.exec_bind_of_error hexpand]
      exact .failed err
    | unchanged prepared =>
      have hresult : (expand .standard (.sequence items)).exec env = (.ok .unchanged, env) := by
        rw [hwhole, Stepping.exec_bind_of_ok hexpand]
        rfl
      rw [hresult]
      exact .unchanged
        (.sequence (not_fires_of_expand hresult nofun) fun _ => prepared.quiet hitems)
    | @silent _ results prepared =>
      have hresult : (expand .standard (.sequence items)).exec env =
          (.ok (.silent (.sequence (rebuild results))), env) := by
        rw [hwhole, Stepping.exec_bind_of_ok hexpand]
        rfl
      rw [hresult]
      exact .silent ((prepared.silent hitems).rebuilt plain)
        (.sequence (not_fires_of_expand hresult nofun) fun _ => prepared.quiet hitems)
    | @visible _ before before' after x x' _ prepared moved =>
      rw [hwhole, Stepping.exec_bind_of_ok hexpand]
      have hbefore : ∀ b ∈ before, Expanded env b ((expand .standard b).exec env) :=
        fun b hb => hitems b (List.mem_append_left _ hb)
      have hx := hitems x (by simp)
      rw [moved] at hx
      exact .item plain (prepared.quiet hbefore) (prepared.silent hbefore) hx

/-- The first pass fails, finds nothing to rewrite, builds closures, or makes one visible rewrite at
the first position where it can. -/
theorem expand_spec (e : Expr) (env : Environment) :
    Expanded env e ((expand .standard e).exec env) := by
  induction e using Expr.sequence_induction with
  | leaf e hleaf =>
    -- no rule of the first pass is about anything but a sequence
    have hexpand := expand_leaf hleaf env
    rw [hexpand]
    exact .unchanged (.leaf hleaf (not_fires_of_expand hexpand nofun))
  | sequence items ih =>
    cases hmacro : MacroTable.standard.isMacroCall items with
    | true =>
      cases items with
      | nil => cases hmacro
      | cons head args =>
        exact expand_spec_special hmacro fun a ha => ih a (List.mem_cons_of_mem head ha)
    | false => exact expand_spec_items hmacro ih

theorem step_framed (e : Expr) (env : Environment) :
    Framed env ((step .standard e).exec env) :=
  (expand_spec e env).framed

/-! ## The second pass -/

theorem Reduced.reduce_eq (h : Reduced env e) : reduce .standard env e = .ok ⟨false, env.named e⟩ := by
  obtain ⟨e', he'⟩ := h
  rw [he', reduce_still he']

theorem Reduced.named (h : Reduced env e) : Reduced env (env.named e) := by
  rcases env.named_cases e with hnamed | ⟨name, f, rfl, hget, hf, hnamed⟩
  · rw [hnamed]
    exact h
  · rw [hnamed]
    exact ⟨f, reduce_leaf (ne_symbol_of_isFunction hf) (ne_sequence_of_isFunction hf)⟩

/-- The second pass on a sequence that it does not step and that is no special form: no item steps,
and there is no procedure to apply. -/
theorem Reduced.of_sequence (h : Reduced env (.sequence items))
    (plain : MacroTable.standard.isMacroCall items = false) :
    (∀ x ∈ items, Reduced env x) ∧
      ∀ f args, rebuild (items.map env.named) = f :: args → f.isFunction = false := by
  obtain ⟨e', he'⟩ := h
  rw [reduce_items plain] at he'
  cases hitems : reduceItems .standard env items with
  | error err =>
    rw [hitems] at he'
    cases he'
  | ok found =>
    obtain ⟨stepped, results⟩ := found
    rw [hitems] at he'
    cases stepped with
    | true => cases he'
    | false =>
      obtain ⟨rfl, hall⟩ := reduceItems_still hitems
      refine ⟨fun x hx => ⟨_, hall x hx⟩, ?_⟩
      -- a procedure in front would have been applied, and that counts or fails
      intro f args hcall
      simp only [hcall] at he'
      cases hf : f.isFunction with
      | false => rfl
      | true =>
        rw [hf, if_pos rfl] at he'
        cases happly : applyCall f args with
        | error err =>
          rw [happly] at he'
          cases he'
        | ok r =>
          rw [happly] at he'
          cases he'

theorem reduce_quiet (e : Expr) (h : Reduced env e) : Quiet .reduction env e := by
  induction e using Expr.sequence_induction with
  | leaf e hleaf =>
    refine .leaf hleaf ?_
    -- a symbol that is bound to no procedure would have been looked up
    rintro (⟨name, value, rfl, hget, hplain⟩ | ⟨items, f, args, rfl, -⟩)
    · have hreduce := h.reduce_eq
      rw [reduce, hget] at hreduce
      simp [hplain] at hreduce
    · exact hleaf items rfl
  | sequence items ih =>
    refine .sequence ?_ fun plain x hx => ih x hx ((h.of_sequence plain).1 x hx)
    rintro (⟨name, value, heq, -⟩ | ⟨items', f, args, heq, plain, hcall, hf⟩)
    · cases heq
    · cases heq
      rw [(h.of_sequence plain).2 f args hcall] at hf
      cases hf

/-- An item of a call that is ready: what stands in the tree, cannot step, and was taken for the
procedure that it names. -/
def Ready (e : Expr) (env : Environment) (a : Expr) : Prop :=
  ∃ x, Stands x e ∧ Reduced env x ∧ a = env.named x

/-- A step of the second pass as one visible rewrite. -/
inductive Reduces (env : Environment) (e : Expr) : Expr → Prop where
  | place {C : Context} {r r' : Expr} (silent : Silent env false e (C.fill r)) (way : C.Open r)
      (rule : Rule (Ready e) (fun _ _ _ _ => True) .reduction env r r' env)
      (left : ∀ a ∈ C.left, Quiet .reduction env a)
      (inside : ∀ items, r = .sequence items → ∀ a ∈ items, Quiet .reduction env a) :
      Reduces env e (C.rebuilt r')

/-- A step of an item, behind items that do not step, is one of the sequence. -/
theorem Reduces.item {before after : List Expr} {x x' : Expr}
    (plain : MacroTable.standard.isMacroCall (before ++ x :: after) = false)
    (hbefore : ∀ b ∈ before, Reduced env b) (h : Reduces env x x') :
    Reduces env (.sequence (before ++ x :: after))
      (.sequence (rebuild (before.map env.named ++ x' :: after))) := by
  cases h with
  | @place C r r' silent way rule left inside =>
    have hnamed := SilentItems.named env before
    have hitem := silent.item before after plain
    have hplain := MacroTable.isMacroCall_replace _ before after plain silent.rule?_eq_none
    have hsilent := hitem.trans (hnamed.sequence [] (C.fill r :: after) hplain)
    have hway := hnamed.isMacroCall (C.fill r :: after) hplain
    -- what stands in `x` stands in the sequence, so the items of the call are ready there too
    have hrule : Rule (Ready (.sequence (before ++ x :: after))) (fun _ _ _ _ => True) .reduction
        env r r' env := by
      refine rule.imp ?_ nofun
      rintro - items - a - ⟨y, hy, hreduced, rfl⟩
      exact ⟨y, hy.item plain (by simp), hreduced, rfl⟩
    refine .place (C := .item (before.map env.named) C after) hsilent ⟨hway, way⟩ hrule ?_ inside
    intro a ha
    rcases List.mem_append.mp ha with ha | ha
    · obtain ⟨b, hb, rfl⟩ := List.mem_map.mp ha
      exact reduce_quiet _ (hbefore b hb).named
    · exact left a ha

/-- The application of a call none of whose items steps. -/
theorem Reduces.application {f r : Expr} {args : List Expr}
    (plain : MacroTable.standard.isMacroCall items = false) (hitems : ∀ x ∈ items, Reduced env x)
    (hcall : rebuild (items.map env.named) = f :: args) (callable : f.isFunction = true)
    (result : applyCall f args = .ok r) : Reduces env (.sequence items) r := by
  have hsilent := (SilentItems.named env items).rebuilt plain
  rw [hcall] at hsilent
  have hready : ∀ a ∈ f :: args, Ready (.sequence items) env a := by
    intro a ha
    rw [← hcall] at ha
    obtain ⟨x, hx, rfl⟩ := List.mem_map.mp (List.mem_filter.mp ha).1
    exact ⟨x, (Stands.refl x).item plain hx, hitems x hx, rfl⟩
  -- the call is rewritten as a whole: nothing is to its left, and its items cannot step
  refine .place (C := .hole) hsilent trivial (.application callable hready result) nofun ?_
  intro items' heq a ha
  cases heq
  obtain ⟨x, -, hreduced, rfl⟩ := hready a ha
  exact reduce_quiet _ hreduced.named

/-- A step of the second pass looks a symbol up or applies a procedure, at the first position where
it can. -/
theorem reduce_spec (e e' : Expr) (h : reduce .standard env e = .ok ⟨true, e'⟩) :
    Reduces env e e' := by
  induction e using Expr.sequence_induction generalizing e' with
  | leaf e hleaf =>
    cases e with
    | symbol name =>
      rw [reduce] at h
      cases hget : env.get? name with
      | none =>
        rw [hget] at h
        cases h
      | some value =>
        rw [hget] at h
        simp only [Except.ok.injEq, Step.mk.injEq, Bool.not_eq_true'] at h
        obtain ⟨hplain, rfl⟩ := h
        refine .place (C := .hole) (.refl _) trivial (.lookup hget hplain) (List.forall_mem_nil _) ?_
        intro items heq
        cases heq
    | sequence items => exact absurd rfl (hleaf items)
    | _ => cases h
  | sequence items ih =>
    cases plain : MacroTable.standard.isMacroCall items with
    | true =>
      rw [reduce_special plain] at h
      cases h
    | false =>
      rw [reduce_items plain] at h
      split at h
      · cases h
      -- an item steps: the first that can
      · rename_i results hmoved
        obtain ⟨before, x, after, x', rfl, hbefore, hx, rfl⟩ := reduceItems_moved hmoved
        cases h
        exact .item plain (fun b hb => ⟨_, hbefore b hb⟩) (ih x (by simp) x' hx)
      -- no item steps, and the call is applied
      · rename_i results hstill
        obtain ⟨rfl, hall⟩ := reduceItems_still hstill
        split at h
        · cases h
        · rename_i f args hcall
          split at h
          · rename_i callable
            cases happly : applyCall f args with
            | error err =>
              rw [happly] at h
              cases h
            | ok r =>
              rw [happly] at h
              cases h
              exact .application plain (fun x hx => ⟨_, hall x hx⟩) hcall callable happly
          · cases h

end Redex
