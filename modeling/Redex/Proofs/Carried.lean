import Redex.Proofs.Inherited
import Redex.Proofs.Transaction

/-!
# Properties along a run

A step moves expressions about: what it puts anywhere stood in the program, was bound in the layers,
or is made by the language itself. So a property of items and of bound expressions is kept along a
run, if the language keeps it where it makes something. One place is not covered by this. The rules
of `if` and `apply` step a part of their call and put back what became of it, and the result of a
definition is no item of anything.

* **`Leads.unique`** and **`step_of_leads`** — a step rewrites the special form that leads a tree.
* **`LosesPart`** says that the step of a part, at whatever depth, leaves nothing in its place.
* **`Expr.Stepped`** is a pair of properties that a step keeps, and **`Environment.Carries`** says
  that all that is bound has the property of items.
* **`OneRewrite.carried`** is the step lemma, **`stepProgram_carried`** the one for programs, and
  **`StepsTo.carried`** the run lemma.
-/

namespace Redex

variable {env env₁ env' : Environment} {e e' r r' part part' : Expr} {items : List Expr}
variable {program program' : Program}

/-! ## The form that leads -/

/-- A special form hides what stands in it. -/
theorem Fires.eq_hole {C : Context} (h : Fires .expansion env (C.fill r)) (hopen : C.Open r) :
    C = .hole := by
  cases C with
  | hole => rfl
  | item before inner after =>
    obtain ⟨r', env', rule⟩ := h
    cases hopen.1.symm.trans rule.isMacroCall

/-- Of the forms that the first pass can rewrite in a tree, one leads it. -/
theorem Leads.unique (h : Leads env r e) (h' : Leads env r' e) (hr : Fires .expansion env r)
    (hr' : Fires .expansion env r') : r = r' := by
  obtain ⟨D, rfl, hopen, hleft⟩ := h
  obtain ⟨D', hfill, hopen', hleft'⟩ := h'
  induction D generalizing D' with
  | hole =>
    rw [Context.fill] at hfill
    subst hfill
    rw [hr.eq_hole hopen']
    rfl
  | item before inner after ih =>
    cases D' with
    | hole =>
      rw [Context.fill] at hfill
      rw [← hfill] at hr'
      cases hr'.eq_hole hopen
    | item before' inner' after' =>
      simp only [Context.fill, Expr.sequence.injEq] at hfill
      -- were one way further to the left, the other would have passed a form that can be rewritten
      rcases List.append_eq_append_iff.mp hfill with ⟨passed, rfl, hrest⟩ | ⟨passed, rfl, hrest⟩
      · cases passed with
        | nil =>
          simp only [List.nil_append, List.cons.injEq] at hrest
          exact ih hopen.2 (fun a ha => hleft a (List.mem_append_right _ ha)) inner' hrest.1
            hopen'.2 fun a ha => hleft' a (List.mem_append_right _ ha)
        | cons x passed =>
          cases hrest
          exact absurd hr (hleft' _ (by simp [Context.left]) r ⟨inner, rfl, hopen.2⟩)
      · cases passed with
        | nil =>
          simp only [List.nil_append, List.cons.injEq] at hrest
          exact ih hopen.2 (fun a ha => hleft a (List.mem_append_right _ ha)) inner' hrest.1.symm
            hopen'.2 fun a ha => hleft' a (List.mem_append_right _ ha)
        | cons x passed =>
          cases hrest
          exact absurd hr' (hleft _ (by simp [Context.left]) r' ⟨inner', rfl, hopen'.2⟩)

/-- A step that does not fail rewrites the special form that leads the tree. -/
theorem step_of_leads (leads : Leads env r e)
    (rule : Rule (fun _ _ => True) (fun _ _ _ _ => True) .expansion env r r' env₁)
    (h : (step .standard e).exec env = (.ok ⟨true, e'⟩, env')) : ∃ C : Context, e' = C.rebuilt r' := by
  have fires : Fires .expansion env r := ⟨_, _, rule⟩
  have hloud : ¬ Quiet .expansion env e := by
    obtain ⟨D, rfl, hopen, -⟩ := leads
    exact fun hquiet => hquiet r ⟨D, rfl, hopen⟩ fires
  have hspec := expand_spec e env
  cases hexpand : (expand .standard e).exec env with
  | mk result env₂ =>
    rw [hexpand] at hspec
    cases hspec with
    | failed err =>
      rw [step_of_failed hexpand] at h
      cases h
    | unchanged quiet => exact absurd quiet hloud
    | silent silent quiet => exact absurd quiet hloud
    | @visible C r₂ r₂' _ built silent way rule₂ first =>
      rw [step_of_visible hexpand] at h
      cases h
      -- the rewritten form leads the tree as well, so it is `r`, and its rule has one result
      have hsame : r₂ = r := first.leads.unique leads ⟨_, _, rule₂⟩ fires
      rw [hsame] at rule₂
      have hresult := rule₂.expand_eq.symm.trans rule.expand_eq
      cases hresult
      exact ⟨C, rfl⟩

/-! ## Parts that are lost -/

/-- The part that the rule of a call steps next, if it can: the test of an `if` that is neither
decided nor waiting, the function of an `apply`, and its last argument if the function is done. -/
inductive Takes (env : Environment) : Expr → Expr → Prop where
  | test {test thenBranch : Expr} {rest : List Expr} (undecided : test.isFalse = false)
      (notTrue : test ≠ .boolean true) (bound : mentionsUnbound env .standard [] test = false) :
      Takes env test (.sequence (.symbol "if" :: test :: thenBranch :: rest))
  | function {function last : Expr} {lead : List Expr} :
      Takes env function (.sequence (.symbol "apply" :: function :: (lead ++ [last])))
  | last {function f last : Expr} {lead : List Expr}
      (still : (step .standard function).exec env = (.ok ⟨false, f⟩, env))
      (callable : f.isFunction = true) :
      Takes env last (.sequence (.symbol "apply" :: function :: (lead ++ [last])))

/-- The step of the part is the step of the call, and the part is put back. -/
theorem Takes.rule (h : Takes env part r)
    (moved : (step .standard part).exec env = (.ok ⟨true, part'⟩, env')) :
    ∃ items, Rule (fun _ _ => True) (fun _ _ _ _ => True) .expansion env r (.sequence items) env' ∧
      part' ∈ items := by
  cases h with
  | test undecided notTrue bound => exact ⟨_, .ifTest undecided notTrue bound moved trivial, by simp⟩
  | function => exact ⟨_, .applyFunction moved trivial, by simp⟩
  | last still callable => exact ⟨_, .applyLast still callable moved trivial, by simp⟩

/-- The step of a part leaves the result of a definition in its place: the part of the call that leads
the tree, or a part within that part. -/
inductive LosesPart (env : Environment) : Expr → Prop where
  | gone {e r part : Expr} {env' : Environment} (leads : Leads env r e) (takes : Takes env part r)
      (moved : (step .standard part).exec env = (.ok ⟨true, .undefined⟩, env')) : LosesPart env e
  | inside {e r part part' : Expr} {env' : Environment} (leads : Leads env r e)
      (takes : Takes env part r)
      (moved : (step .standard part).exec env = (.ok ⟨true, part'⟩, env'))
      (inner : LosesPart env part) : LosesPart env e

/-- A step of the program loses a part of its first form that can step. -/
def Program.LosesPart (program : Program) (env : Environment) : Prop :=
  ∃ before form after form' env', program = before ++ form :: after ∧
    (∀ x ∈ before, (step .standard x).exec env = (.ok ⟨false, env.named x⟩, env)) ∧
    (step .standard form).exec env = (.ok ⟨true, form'⟩, env') ∧ Redex.LosesPart env form

/-! ## Properties that a step keeps -/

/-- Two properties that a step keeps, but for the procedures of struct definitions: closures have
them if their bodies do. -/
structure Expr.Stepped (I R : Expr → Prop) : Prop extends Expr.Carried I R where
  anonymous {params : Params} {body : Expr} : R body → R (.closure params body Expr.anonymous)
  function {params : Params} {body : Expr} {name : String} :
    I (.symbol name) → R body → R (.closure params body name)

namespace Environment

/-- Everything bound in the layers has the property. -/
structure Carries (I : Expr → Prop) (env : Environment) : Prop where
  user : ∀ b ∈ env.user.bindings, I b.2
  builtins : ∀ b ∈ env.builtins.bindings, I b.2

/-- If one environment becomes the other by a struct definition, then the procedures that it binds
have the property. -/
def Admits (I : Expr → Prop) (env env' : Environment) : Prop :=
  ∀ tag fields, env' = env.bindAll (structProcedures tag fields) → I (.symbol tag) →
    (∀ field ∈ fields, I (.symbol field)) → ∀ b ∈ structProcedures tag fields, I b.2

variable {I R : Expr → Prop}

theorem Carries.get? (h : env.Carries I) {name : String} (hget : env.get? name = some e) : I e := by
  have hlookup : lookupIn env.layers name = some e := (Option.filter_eq_some_iff.mp hget).1
  unfold lookupIn at hlookup
  obtain ⟨layer, hlayer, hfound⟩ := List.exists_of_findSome?_eq_some hlookup
  have hmem := Assoc.mem_of_lookup hfound
  rcases List.mem_cons.mp hlayer with rfl | hlayer
  · exact h.user _ hmem
  · rw [List.mem_singleton.mp hlayer] at hmem
    exact h.builtins _ hmem

/-- A fresh environment binds the built-ins alone. -/
theorem fresh_carries (h : ∀ b, I (.native (.builtin b))) : fresh.Carries I := by
  refine ⟨nofun, ?_⟩
  intro b hb
  obtain ⟨builtin, -, rfl⟩ := List.mem_map.mp hb
  exact h builtin

theorem Carries.named (h : env.Carries I) (he : I e) : I (env.named e) := by
  rcases env.named_cases e with hnamed | ⟨name, f, -, hget, -, hnamed⟩
  · rw [hnamed]
    exact he
  · rw [hnamed]
    exact h.get? hget

theorem Carries.bindAll (h : env.Carries I) {pairs : List (String × Expr)}
    (hpairs : ∀ b ∈ pairs, I b.2) : (env.bindAll pairs).Carries I := by
  refine ⟨?_, h.builtins⟩
  intro b hb
  rcases Assoc.mem_insertAll hb with hb | hb
  · exact hpairs b hb
  · exact h.user b hb

end Environment

namespace Expr.Carried

variable {I R : Expr → Prop}

theorem mem (hR : Carried I R) (h : I (.sequence items)) : ∀ x ∈ items, I x :=
  hR.sequence.mp (hR.whole h)

theorem args (hR : Carried I R) {head : Expr} {args : List Expr}
    (h : I (.sequence (head :: args))) : ∀ a ∈ args, I a :=
  fun a ha => hR.mem h a (List.mem_cons_of_mem head ha)

/-- A result may stay in a sequence, unless it is that of a definition and that is no item. -/
theorem stays (hR : Carried I R) (h : R e) (kept : I .undefined ∨ e ≠ .undefined) : I e := by
  cases hundefined : e.isUndefined with
  | false => exact hR.item h hundefined
  | true =>
    cases e with
    | undefined => exact kept.resolve_right fun hne => hne rfl
    | _ => cases hundefined

theorem rebuilt (hR : Carried I R) (h : ∀ x ∈ items, R x) : ∀ x ∈ rebuild items, I x := by
  intro x hx
  obtain ⟨hmem, hdefined⟩ := List.mem_filter.mp hx
  exact hR.item (h x hmem) (by simpa using hdefined)

theorem of_fill (hR : Carried I R) {C : Context} (h : I (C.fill e)) : I e :=
  C.of_fill (fun _ h => hR.mem h) h

/-- Another item in the hole of a tree. -/
theorem refill (hR : Carried I R) {C : Context} (h : I (C.fill e)) (he : I e') : I (C.fill e') := by
  induction C with
  | hole => exact he
  | item before inner after ih =>
    have hitems := hR.mem h
    have hinner := ih (hitems _ (by simp))
    refine hR.item (hR.sequence.mpr ?_) rfl
    intro x hx
    rcases List.mem_append.mp hx with hx | hx
    · exact hitems x (List.mem_append_left _ hx)
    · rcases List.mem_cons.mp hx with rfl | hx
      · exact hinner
      · exact hitems x (by simp [hx])

/-- A result in the hole of a tree that is rebuilt around it. -/
theorem refill_rebuilt (hR : Carried I R) {C : Context} (h : I (C.fill e)) (he : R e') :
    R (C.rebuilt e') := by
  induction C with
  | hole => exact he
  | item before inner after ih =>
    have hitems := hR.mem h
    have hinner := ih (hitems _ (by simp))
    refine hR.sequence.mpr (hR.rebuilt ?_)
    intro x hx
    rcases List.mem_append.mp hx with hx | hx
    · exact hR.whole (hitems x (List.mem_append_left _ hx))
    · rcases List.mem_cons.mp hx with rfl | hx
      · exact hinner
      · exact hR.whole (hitems x (by simp [hx]))

end Expr.Carried

namespace Expr.Stepped

variable {I R : Expr → Prop} {args : List Expr}

theorem lambda (hR : Stepped I R) (hargs : ∀ a ∈ args, I a)
    (h : SpecialForm.lambda args = .becomes e) : R e := by
  cases args with
  | nil => cases h
  | cons spec rest =>
    have hbody : R (rest.head?.getD .undefined) :=
      head?_getD_inherits (fun x hx => hR.whole (hargs x (List.mem_cons_of_mem spec hx)))
        hR.undefined
    cases hspec : Params.ofSpec spec with
    | error err =>
      simp only [SpecialForm.lambda, hspec] at h
      cases h
    | ok params =>
      simp only [SpecialForm.lambda, hspec] at h
      cases h
      exact hR.anonymous hbody

theorem definition (hR : Stepped I R) {name : String} {value : Expr} (hargs : ∀ a ∈ args, I a)
    (h : SpecialForm.definition args = .ok (name, value)) : I value := by
  unfold SpecialForm.definition at h
  split at h
  -- `(define (f x …) body)` binds a closure under the name of its target
  · rename_i target params body rest
    cases hparams : Params.ofItems params with
    | error err =>
      rw [hparams] at h
      cases h
    | ok params =>
      rw [hparams] at h
      cases h
      have htarget := hR.mem (hargs _ List.mem_cons_self) _ List.mem_cons_self
      have hbody := hR.whole (hargs body (by simp))
      exact hR.item (hR.function htarget hbody) rfl
  · cases h
  · cases h
    exact hargs _ (by simp)
  · cases h
  · cases h

/-- The tag and the fields of a struct definition are symbols in it. -/
theorem structDefinition (hR : Stepped I R) {tag : String} {fields : List String}
    (hargs : ∀ a ∈ args, I a) (h : SpecialForm.structDefinition args = .ok (tag, fields)) :
    I (.symbol tag) ∧ ∀ field ∈ fields, I (.symbol field) := by
  unfold SpecialForm.structDefinition at h
  split at h
  · rename_i tag' items
    cases hfields : symbolNames .structField items with
    | error err =>
      rw [hfields] at h
      cases h
    | ok names =>
      rw [hfields] at h
      cases h
      have hitems := hR.mem (hargs (.sequence items) (by simp))
      exact ⟨hargs _ List.mem_cons_self,
        fun field hfield => hitems _ (symbolNames_mem hfields field hfield)⟩
  · rename_i tag' items _
    cases hfields : symbolNames .structField items with
    | error err =>
      rw [hfields] at h
      cases h
    | ok names =>
      rw [hfields] at h
      cases h
      exact ⟨hargs _ List.mem_cons_self, fun field hfield =>
        hargs _ (List.mem_cons_of_mem _ (symbolNames_mem hfields field hfield))⟩
  · cases h

/-- A definition binds what stands in it, or the procedures of a struct. -/
theorem defines (hR : Stepped I R) {form : Expr} {pairs : List (String × Expr)}
    (h : Defines form pairs) (hform : I form) (admits : env.Admits I (env.bindAll pairs)) :
    ∀ b ∈ pairs, I b.2 := by
  cases h with
  | define parts =>
    exact List.forall_mem_cons.mpr ⟨hR.definition (hR.args hform) parts, nofun⟩
  | defineStruct parts =>
    obtain ⟨htag, hfields⟩ := hR.structDefinition (hR.args hform) parts
    exact admits _ _ rfl htag hfields

end Expr.Stepped

/-! ## Steps -/

variable {I R : Expr → Prop}

theorem Silent.carried (hR : Expr.Stepped I R) {built : Bool} (h : Silent env built e e')
    (henv : env.Carries I) (he : I e) : I e' := by
  induction h with
  | refl e => exact he
  | step first rest ih =>
    refine ih ?_
    cases first with
    | @place C _ a b way rule =>
      have ha : I a := hR.of_fill he
      refine hR.refill he ?_
      cases rule with
      | closure hlambda =>
        have hclosure := hR.lambda (hR.args ha) hlambda
        obtain ⟨params, body, rfl⟩ := SpecialForm.lambda_becomes hlambda
        exact hR.item hclosure rfl
      | procedure bound callable => exact henv.get? bound
      | drop plain =>
        have hitems := rebuild_inherits (hR.mem ha)
        exact hR.item (hR.sequence.mpr hitems) rfl

/-- What an item becomes without a step is an item. -/
theorem Expr.Carried.still (henv : env.Carries I) (he : I e)
    (h : (step .standard e).exec env = (.ok ⟨false, e'⟩, env')) : I e' := by
  obtain ⟨-, -, rfl, -⟩ := step_still h
  exact henv.named he

/-- What becomes of a part is an item again, unless the step loses a part. -/
theorem Takes.carried (hR : Expr.Carried I R) (leads : Leads env r e) (takes : Takes env part r)
    (moved : (step .standard part).exec env = (.ok ⟨true, part'⟩, env'))
    (kept : I .undefined ∨ ¬ LosesPart env e)
    (inner : I .undefined ∨ ¬ LosesPart env part → R part' ∧ env'.Carries I) :
    I part' ∧ env'.Carries I := by
  have hinner : I .undefined ∨ ¬ LosesPart env part :=
    kept.imp_right fun hkept hloses => hkept (.inside leads takes moved hloses)
  obtain ⟨hpart, henv'⟩ := inner hinner
  refine ⟨hR.stays hpart (kept.imp_right fun hkept => ?_), henv'⟩
  rintro rfl
  exact hkept (.gone leads takes moved)

/-- One step keeps the properties, unless it loses a part: what every rule brings is there already,
or is made by the language. -/
theorem OneRewrite.carried (hR : Expr.Stepped I R) {Done : Environment → Expr → Prop}
    (h : OneRewrite Done env e e' env') (admits : env.Admits I env') (henv : env.Carries I)
    (he : I e) (kept : I .undefined ∨ ¬ LosesPart env e) : R e' ∧ env'.Carries I := by
  revert admits henv he kept
  refine OneRewrite.induct (motive := fun env e e' env' => env.Admits I env' → env.Carries I → I e →
    I .undefined ∨ ¬ LosesPart env e → R e' ∧ env'.Carries I) ?_ ?_ h
  · intro env e e₁ silent _ henv he _
    exact ⟨hR.whole (silent.carried hR henv he), henv⟩
  · intro pass env env' e r r' C built silent way rule first admits henv he kept
    have hfill := silent.carried hR henv he
    have hr : I r := hR.of_fill hfill
    suffices hrule : R r' ∧ env'.Carries I from ⟨hR.refill_rebuilt hfill hrule.1, hrule.2⟩
    cases rule with
    | definition binds free => exact ⟨hR.undefined, henv.bindAll (hR.defines binds hr admits)⟩
    | list => exact ⟨hR.sequence.mpr (hR.args hr), henv⟩
    | @ifFalse _ _ _ rest decided =>
      have hbranches : ∀ x ∈ rest, R x := fun x hx => hR.whole (hR.mem hr x (by simp [hx]))
      exact ⟨head?_getD_inherits hbranches (hR.boolean _), henv⟩
    | ifTrue => exact ⟨hR.whole (hR.mem hr _ (by simp)), henv⟩
    | ifSettled undecided notTrue bound still => exact ⟨hR.whole (hR.mem hr _ (by simp)), henv⟩
    | @ifTest _ _ test test' thenBranch rest undecided notTrue bound moved part =>
      have takes : Takes env test (.sequence (.symbol "if" :: test :: thenBranch :: rest)) :=
        .test undecided notTrue bound
      obtain ⟨htest, henv'⟩ := takes.carried hR.toCarried first.leads moved kept
        (part admits henv (hR.mem hr test (by simp)))
      -- the whole call is the old one with another test in it
      have hwhole := hR.refill (C := .item [.symbol "if"] .hole (thenBranch :: rest)) hr htest
      exact ⟨hR.whole hwhole, henv'⟩
    | @applyFunction _ _ function function' last lead moved part =>
      obtain ⟨hfunction, henv'⟩ := Takes.function.carried hR.toCarried first.leads moved kept
        (part admits henv (hR.mem hr function (by simp)))
      have hwhole := hR.refill (C := .item [.symbol "apply"] .hole (lead ++ [last])) hr hfunction
      exact ⟨hR.whole hwhole, henv'⟩
    | @applyLast _ _ function f last last' lead still callable moved part =>
      have takes : Takes env last (.sequence (.symbol "apply" :: function :: (lead ++ [last]))) :=
        .last still callable
      obtain ⟨hlast, henv'⟩ := takes.carried hR.toCarried first.leads moved kept
        (part admits henv (hR.mem hr last (by simp)))
      have hf := Expr.Carried.still henv (hR.mem hr function (by simp)) still
      have hcall := hR.refill (C := .item [.symbol "apply"] .hole (lead ++ [last])) hr hf
      have hwhole := hR.refill (C := .item (.symbol "apply" :: f :: lead) .hole []) hcall hlast
      exact ⟨hR.whole hwhole, henv'⟩
    | @applyCall _ function f last lead items still callable spread =>
      have hf := Expr.Carried.still henv (hR.mem hr function (by simp)) still
      have hitems := hR.mem (Expr.Carried.still henv (hR.mem hr last (by simp)) spread)
      have hlead : ∀ x ∈ lead, I x := fun x hx => hR.mem hr x (by simp [hx])
      exact ⟨hR.sequence.mpr (List.forall_mem_cons.mpr
        ⟨hf, List.forall_mem_append.mpr ⟨hlead, hitems⟩⟩), henv⟩
    | lookup bound plain => exact ⟨hR.whole (henv.get? bound), henv⟩
    | application callable done result =>
      have hf := hR.whole (hR.mem hr _ List.mem_cons_self)
      exact ⟨hR.applyCall hf (hR.args hr) result, henv⟩

/-! ## Runs -/

/-- A step of a program keeps the properties, unless it loses a part. -/
theorem stepProgram_carried (hR : Expr.Stepped I R) {stepped : Bool} (admits : env.Admits I env')
    (kept : I .undefined ∨ ¬ program.LosesPart env) (henv : env.Carries I)
    (hprogram : ∀ e ∈ program, I e)
    (h : (stepProgram .standard program).exec env = (.ok (stepped, program'), env')) :
    (∀ e ∈ program', I e) ∧ env'.Carries I := by
  have hnamed : ∀ forms : List Expr, (∀ e ∈ forms, I e) → ∀ e ∈ forms.map env.named, R e := by
    intro forms hforms e he
    obtain ⟨x, hx, rfl⟩ := List.mem_map.mp he
    exact hR.whole (henv.named (hforms x hx))
  rcases stepProgram_cases program env with
    ⟨err, hexec⟩ | ⟨-, hexec⟩ | ⟨before, e, after, e', env₁, rfl, hleft, hstep, hexec⟩
  · rw [hexec] at h
    cases h
  · rw [hexec] at h
    cases h
    exact ⟨hR.rebuilt (hnamed program hprogram), henv⟩
  · rw [hexec] at h
    cases h
    -- the forms before the one that steps are named, those behind it are as they were
    have hone := step_rewrites_reduced e env hstep
    have hform : I .undefined ∨ ¬ LosesPart env e := kept.imp_right fun hkept hloses =>
      hkept ⟨before, e, after, e', _, rfl, hleft, hstep, hloses⟩
    obtain ⟨he', henv'⟩ := hone.carried hR admits henv (hprogram e (by simp)) hform
    have hbefore := hnamed before fun x hx => hprogram x (List.mem_append_left _ hx)
    have hafter : ∀ x ∈ after, R x := fun x hx => hR.whole (hprogram x (by simp [hx]))
    exact ⟨hR.rebuilt (List.forall_mem_append.mpr
      ⟨hbefore, List.forall_mem_cons.mpr ⟨he', hafter⟩⟩), henv'⟩

/-- A run keeps the properties if none of its steps loses a part. -/
theorem StepsTo.carried (hR : Expr.Stepped I R)
    (admits : ∀ env env', Environment.Admits I env env') {n : Nat}
    (h : StepsTo n program env program' env')
    (kept : I .undefined ∨
      ∀ m next env₁, StepsTo m program env next env₁ → ¬ next.LosesPart env₁)
    (henv : env.Carries I) (hprogram : ∀ e ∈ program, I e) :
    (∀ e ∈ program', I e) ∧ env'.Carries I := by
  induction h with
  | refl program env => exact ⟨hprogram, henv⟩
  | @step n program next last env env₁ env₂ first rest ih =>
    have hhere : I .undefined ∨ ¬ program.LosesPart env :=
      kept.imp_right fun hkept => hkept 0 program env (.refl program env)
    obtain ⟨hnext, henv₁⟩ := stepProgram_carried hR (admits env env₁) hhere henv hprogram first
    have hthere : I .undefined ∨ ∀ m last env₂, StepsTo m next env₁ last env₂ →
        ¬ Program.LosesPart last env₂ :=
      kept.imp_right fun hkept m last env₂ hsteps => hkept (m + 1) last env₂ (.step first hsteps)
    exact ih hthere henv₁ hnext

end Redex
