import Redex.Proofs.Carried
import Redex.Proofs.Reading
import Redex.Proofs.Unmentioned

/-!
# The first-order fragment

A program that builds no closures and binds no names can only call the built-in procedures, and
these give results that are smaller than the calls. Its evaluation comes to an end. Steps need not
make the tree smaller: `if` and `apply` may hold any steps of their parts, and a symbol becomes the
procedure that it names without any step. So an expression is weighed: a symbol weighs what a
procedure does, and enough for the largest result of a built-in procedure.

* **`Expr.FirstOrder`** is the fragment, and **`Expr.weight`** what an expression weighs.
* **`Silent.firstOrder`** — silent rewrites stay in the fragment, build no closure and leave the
  weight as it is.
* **`Rule.lightens`** — every visible rule makes its call lighter, and **`step_lightens`** every
  step the expression.
* **`stepProgram_lightens`** is the step lemma, and **`firstOrder_terminates`** says that the steps
  of a program are at most its weight.
-/

namespace Redex

variable {e e' r r' x x' : Expr} {items before after : List Expr} {name : String}
variable {env env' : Environment} {program program' : Program}

/-! ## The fragment -/

/-- The heads of the forms that make procedures and bind names. -/
def binderNames : List String :=
  [lambdaName, "define", "define-struct"]

/-- An expression of which no part makes a procedure or binds a name. -/
inductive Expr.FirstOrder : Expr → Prop where
  | number (x : Float) : FirstOrder (.number x)
  | text (s : String) : FirstOrder (.text s)
  | boolean (b : Bool) : FirstOrder (.boolean b)
  | symbol {name : String} (h : name ∉ binderNames) : FirstOrder (.symbol name)
  | sequence {items : List Expr} (h : ∀ x ∈ items, FirstOrder x) : FirstOrder (.sequence items)
  | builtin (b : Builtin) : FirstOrder (.native (.builtin b))

namespace Expr.FirstOrder

theorem mem (h : FirstOrder (.sequence items)) : ∀ x ∈ items, FirstOrder x := by
  cases h with
  | sequence h => exact h

theorem notMem (h : FirstOrder (.symbol name)) : name ∉ binderNames := by
  cases h with
  | symbol h => exact h

theorem isUndefined (h : FirstOrder e) : e.isUndefined = false := by
  cases h <;> rfl

/-- No result of a definition stands among the items. -/
theorem rebuild_eq (h : ∀ x ∈ items, FirstOrder x) : rebuild items = items := by
  refine List.filter_eq_self.mpr fun x hx => ?_
  rw [(h x hx).isUndefined]
  rfl

theorem replace (h : FirstOrder (.sequence (before ++ x :: after))) (hx : FirstOrder x') :
    FirstOrder (.sequence (before ++ x' :: after)) := by
  refine .sequence fun y hy => ?_
  rcases List.mem_append.mp hy with hy | hy
  · exact h.mem y (List.mem_append_left _ hy)
  · rcases List.mem_cons.mp hy with rfl | hy
    · exact hx
    · exact h.mem y (List.mem_append_right _ (List.mem_cons_of_mem _ hy))

end Expr.FirstOrder

/-- What the reader makes of words is of the fragment if the names of binding forms do not occur. -/
theorem Expr.Written.firstOrder {P : String → Prop} (h : Expr.Written P e)
    (avoids : ∀ name ∈ binderNames, e.Avoids name) : e.FirstOrder := by
  induction h with
  | number x => exact .number x
  | text s => exact .text s
  | boolean b => exact .boolean b
  | symbol _ => exact .symbol fun hname => (avoids _ hname).ne rfl
  | sequence _ ih =>
    exact .sequence fun x hx => ih x hx fun name hname => (avoids name hname).mem x hx

/-! ## Weights -/

mutual

/-- The weight of an expression. A call of a built-in procedure weighs at least four, which is more
than the pair that it may give. -/
def Expr.weight : Expr → Nat
  | .symbol _ => 3
  | .native _ => 3
  | .sequence items => 1 + Expr.weights items
  | _ => 1
termination_by structural e => e

def Expr.weights : List Expr → Nat
  | [] => 0
  | e :: items => e.weight + Expr.weights items
termination_by structural items => items

end

@[simp] theorem Expr.weight_symbol (name : String) : (Expr.symbol name).weight = 3 := rfl

@[simp] theorem Expr.weight_native (p : Native) : (Expr.native p).weight = 3 := rfl

@[simp] theorem Expr.weight_sequence (items : List Expr) :
    (Expr.sequence items).weight = 1 + Expr.weights items := rfl

@[simp] theorem Expr.weights_nil : Expr.weights [] = 0 := rfl

@[simp] theorem Expr.weights_cons (e : Expr) (items : List Expr) :
    Expr.weights (e :: items) = e.weight + Expr.weights items := rfl

@[simp] theorem Expr.weights_append (before after : List Expr) :
    Expr.weights (before ++ after) = Expr.weights before + Expr.weights after := by
  induction before with
  | nil => rw [List.nil_append, weights_nil, Nat.zero_add]
  | cons e before ih => rw [List.cons_append, weights_cons, weights_cons, ih, Nat.add_assoc]

theorem Expr.weight_le_weights (h : x ∈ items) : x.weight ≤ Expr.weights items := by
  obtain ⟨before, after, rfl⟩ := List.append_of_mem h
  rw [weights_append, weights_cons]
  omega

/-- An expression becomes another of the fragment that weighs less. -/
structure Lightens (e e' : Expr) : Prop where
  firstOrder : e'.FirstOrder
  lt : e'.weight < e.weight

/-- Every item is lighter than its sequence. -/
theorem Lightens.of_mem (whole : Expr.FirstOrder (.sequence items)) (h : x ∈ items) :
    Lightens (.sequence items) x := by
  have hle := Expr.weight_le_weights h
  refine ⟨whole.mem x h, ?_⟩
  rw [Expr.weight_sequence]
  omega

/-- An item that becomes lighter makes its sequence lighter. -/
theorem Lightens.item (h : Lightens x x') (before after : List Expr)
    (whole : Expr.FirstOrder (.sequence (before ++ x :: after))) :
    Lightens (.sequence (before ++ x :: after)) (.sequence (before ++ x' :: after)) := by
  refine ⟨whole.replace h.firstOrder, ?_⟩
  have hlt := h.lt
  simp only [Expr.weight_sequence, Expr.weights_append, Expr.weights_cons]
  omega

/-! ## Silent rewrites -/

/-- Before any definition a name stands for a built-in procedure or for nothing. -/
theorem Environment.get?_fresh (h : Environment.fresh.get? name = some e) :
    ∃ b, e = .native (.builtin b) := by
  have hcarries : Environment.fresh.Carries fun e => ∃ b, e = .native (.builtin b) :=
    Environment.fresh_carries fun b => ⟨b, rfl⟩
  exact hcarries.get? h

theorem Expr.FirstOrder.named (h : e.FirstOrder) :
    (Environment.fresh.named e).FirstOrder ∧ (Environment.fresh.named e).weight = e.weight := by
  rcases Environment.fresh.named_cases e with hnamed | ⟨name, f, rfl, hget, -, hnamed⟩
  · rw [hnamed]
    exact ⟨h, rfl⟩
  · obtain ⟨b, rfl⟩ := Environment.get?_fresh hget
    rw [hnamed]
    exact ⟨.builtin b, rfl⟩

theorem Expr.FirstOrder.map_named (h : ∀ x ∈ items, x.FirstOrder) :
    (∀ x ∈ items.map Environment.fresh.named, x.FirstOrder) ∧
      Expr.weights (items.map Environment.fresh.named) = Expr.weights items := by
  induction items with
  | nil => exact ⟨nofun, rfl⟩
  | cons e items ih =>
    obtain ⟨he, hitems⟩ := List.forall_mem_cons.mp h
    obtain ⟨hnamed, hweight⟩ := he.named
    obtain ⟨hrest, hweights⟩ := ih hitems
    refine ⟨List.forall_mem_cons.mpr ⟨hnamed, hrest⟩, ?_⟩
    rw [List.map_cons, weights_cons, weights_cons, hweight, hweights]

/-- What stands in an expression of the fragment is of the fragment, and replacing it by something
of the fragment changes the weight accordingly. -/
theorem Context.firstOrder (C : Context) (h : (C.fill r).FirstOrder) :
    r.FirstOrder ∧ (r'.FirstOrder → (C.fill r').FirstOrder ∧
      (C.fill r').weight + r.weight = (C.fill r).weight + r'.weight) := by
  induction C with
  | hole => exact ⟨h, fun hr' => ⟨hr', Nat.add_comm _ _⟩⟩
  | item before inner after ih =>
    obtain ⟨hr, hreplace⟩ := ih (h.mem _ (by simp))
    refine ⟨hr, fun hr' => ?_⟩
    obtain ⟨hinner, hweight⟩ := hreplace hr'
    refine ⟨Expr.FirstOrder.replace h hinner, ?_⟩
    simp only [fill, Expr.weight_sequence, Expr.weights_append, Expr.weights_cons]
    omega

/-- In the fragment nothing is dropped on the way to a hole. -/
theorem Context.rebuilt_eq (C : Context) (h : (C.fill r).FirstOrder) : C.rebuilt r = C.fill r := by
  induction C with
  | hole => rfl
  | item before inner after ih =>
    have hinner : inner.rebuilt r = inner.fill r := ih (h.mem _ (by simp))
    rw [rebuilt, hinner, Expr.FirstOrder.rebuild_eq h.mem, fill]

theorem SilentRule.firstOrder {built : Bool} (h : SilentRule .fresh built r r')
    (hr : r.FirstOrder) : built = false ∧ r'.FirstOrder ∧ r'.weight = r.weight := by
  cases h with
  | closure _ =>
    -- no literal closure is of the fragment
    have hhead : Expr.FirstOrder (.symbol lambdaName) := hr.mem _ List.mem_cons_self
    exact absurd List.mem_cons_self hhead.notMem
  | procedure bound callable =>
    obtain ⟨b, rfl⟩ := Environment.get?_fresh bound
    exact ⟨rfl, .builtin b, rfl⟩
  | drop plain =>
    rw [Expr.FirstOrder.rebuild_eq hr.mem]
    exact ⟨rfl, hr, rfl⟩

/-- Silent rewrites stay in the fragment, build no closure and leave the weight as it is. -/
theorem Silent.firstOrder {built : Bool} (h : Silent .fresh built e e') (he : e.FirstOrder) :
    built = false ∧ e'.FirstOrder ∧ e'.weight = e.weight := by
  induction h with
  | refl e => exact ⟨rfl, he, rfl⟩
  | step first rest ih =>
    cases first with
    | @place C _ a b way rule =>
      obtain ⟨ha, hreplace⟩ := C.firstOrder he
      obtain ⟨rfl, hb, hweight⟩ := rule.firstOrder ha
      obtain ⟨hfill, hsum⟩ := hreplace hb
      obtain ⟨rfl, he', hrest⟩ := ih hfill
      refine ⟨rfl, he', ?_⟩
      omega

/-! ## Visible rules -/

/-- What a built-in procedure gives is of the fragment and weighs less than any call of it. -/
theorem Builtin.Result.firstOrder (h : Builtin.Result e) : e.FirstOrder ∧ e.weight ≤ 3 := by
  cases h with
  | number x => exact ⟨.number x, Nat.le_add_left 1 2⟩
  | boolean b => exact ⟨.boolean b, Nat.le_add_left 1 2⟩
  | pair x y =>
    have hitems : ∀ a ∈ [Expr.number x, Expr.number y], a.FirstOrder :=
      List.forall_mem_cons.mpr ⟨.number x, List.forall_mem_singleton.mpr (.number y)⟩
    exact ⟨.sequence hitems, Nat.le_refl 3⟩

/-- What a part that does not step stands for is of the fragment and weighs as much. -/
theorem Expr.FirstOrder.still (he : e.FirstOrder)
    (h : (step .standard e).exec .fresh = (.ok ⟨false, e'⟩, .fresh)) :
    e'.FirstOrder ∧ e'.weight = e.weight := by
  obtain ⟨-, -, rfl, -⟩ := step_still h
  exact he.named

/-- The procedures of the fragment are the built-in ones. -/
theorem Expr.FirstOrder.applyCall {f : Expr} {args : List Expr} (hf : f.FirstOrder)
    (callable : f.isFunction = true) (h : Redex.applyCall f args = .ok e) :
    Lightens (.sequence (f :: args)) e := by
  cases hf with
  | builtin b =>
    obtain ⟨hfirst, hweight⟩ := (Builtin.call_result h).firstOrder
    refine ⟨hfirst, ?_⟩
    simp only [Expr.weight_sequence, Expr.weights_cons, Expr.weight_native]
    omega
  | _ => cases callable

/-- A step of a part of `if` or `apply` makes it lighter and binds nothing. -/
def PartLightens (env : Environment) (e e' : Expr) (env' : Environment) : Prop :=
  env = .fresh → e.FirstOrder → Lightens e e' ∧ env' = .fresh

/-- Every visible rule makes its call lighter and binds nothing. -/
theorem Rule.lightens {Done : Environment → Expr → Prop} {pass : Pass}
    (h : Rule Done PartLightens pass env r r' env') (henv : env = .fresh) (hr : r.FirstOrder) :
    Lightens r r' ∧ env' = .fresh := by
  cases h with
  | definition binds free =>
    -- no definition is of the fragment
    cases binds with
    | define parts | defineStruct parts =>
      have hhead := (hr.mem _ List.mem_cons_self).notMem
      exact absurd (by simp [binderNames]) hhead
  | @list _ args =>
    have hargs : ∀ a ∈ args, a.FirstOrder := fun a ha => hr.mem a (List.mem_cons_of_mem _ ha)
    refine ⟨⟨.sequence hargs, ?_⟩, henv⟩
    simp only [Expr.weight_sequence, Expr.weights_cons, Expr.weight_symbol]
    omega
  | @ifFalse _ test thenBranch rest decided =>
    refine ⟨?_, henv⟩
    cases rest with
    | nil =>
      have hlt : 1 < (Expr.sequence [.symbol "if", test, thenBranch]).weight := by
        rw [Expr.weight_sequence, Expr.weights_cons, Expr.weight_symbol]
        omega
      exact ⟨.boolean false, hlt⟩
    | cons other rest => exact .of_mem hr (by simp)
  | ifTrue => exact ⟨.of_mem hr (by simp), henv⟩
  | @ifTest _ _ test test' thenBranch rest undecided notTrue bound moved part =>
    obtain ⟨htest, hfresh⟩ := part henv (hr.mem _ (by simp))
    exact ⟨htest.item [.symbol "if"] (thenBranch :: rest) hr, hfresh⟩
  | ifSettled undecided notTrue bound still => exact ⟨.of_mem hr (by simp), henv⟩
  | @applyFunction _ _ function function' last lead moved part =>
    obtain ⟨hfunction, hfresh⟩ := part henv (hr.mem _ (by simp))
    exact ⟨hfunction.item [.symbol "apply"] (lead ++ [last]) hr, hfresh⟩
  | @applyLast _ _ function f last last' lead still callable moved part =>
    subst henv
    obtain ⟨hf, hweight⟩ := (hr.mem function (by simp)).still still
    obtain ⟨hlast, hfresh⟩ := part rfl (hr.mem last (by simp))
    -- the procedure that the function names weighs as much as the function
    have hwhole : Expr.FirstOrder (.sequence ([.symbol "apply"] ++ function :: (lead ++ [last]))) :=
      hr
    have hnamed : Expr.FirstOrder (.sequence ((.symbol "apply" :: f :: lead) ++ [last])) :=
      hwhole.replace hf
    have hitem := hlast.item (.symbol "apply" :: f :: lead) [] hnamed
    refine ⟨⟨hitem.firstOrder, Nat.lt_of_lt_of_eq hitem.lt ?_⟩, hfresh⟩
    simp only [Expr.weight_sequence, Expr.weights_cons, Expr.weights_append, hweight]
    omega
  | @applyCall _ function f last lead items still callable spread =>
    subst henv
    obtain ⟨hf, hweight⟩ := (hr.mem function (by simp)).still still
    obtain ⟨hitems, hspread⟩ := (hr.mem last (by simp)).still spread
    have hlead : ∀ a ∈ lead, a.FirstOrder := fun a ha => hr.mem a (by simp [ha])
    refine ⟨⟨.sequence (List.forall_mem_cons.mpr ⟨hf, ?_⟩), ?_⟩, rfl⟩
    · exact List.forall_mem_append.mpr ⟨hlead, hitems.mem⟩
    · simp only [Expr.weight_sequence, Expr.weights_cons, Expr.weights_append, Expr.weights_nil,
        Expr.weight_symbol] at hspread ⊢
      omega
  | lookup bound plain =>
    -- what a name stands for is a procedure
    subst henv
    obtain ⟨b, rfl⟩ := Environment.get?_fresh bound
    cases plain
  | application callable done result =>
    exact ⟨(hr.mem _ List.mem_cons_self).applyCall callable result, henv⟩

/-! ## Steps -/

/-- Every step of an expression of the fragment makes it lighter and binds nothing. -/
theorem step_lightens (he : e.FirstOrder)
    (h : (step .standard e).exec .fresh = (.ok ⟨true, e'⟩, env')) :
    Lightens e e' ∧ env' = .fresh := by
  refine OneRewrite.induct (motive := PartLightens) ?_ ?_ (step_rewrites_reduced e .fresh h) rfl he
  · rintro env e e₁ silent rfl he
    cases (silent.firstOrder he).1
  · rintro pass env env' e r r' C built silent way rule first rfl he
    obtain ⟨-, hfill, hweight⟩ := silent.firstOrder he
    obtain ⟨hr, hreplace⟩ := C.firstOrder hfill
    obtain ⟨⟨hr', hlt⟩, hfresh⟩ := rule.lightens rfl hr
    obtain ⟨hfill', hsum⟩ := hreplace hr'
    rw [C.rebuilt_eq hfill']
    refine ⟨⟨hfill', ?_⟩, hfresh⟩
    omega

/-- Every step of a program of the fragment makes it lighter and binds nothing. -/
theorem stepProgram_lightens (hprogram : ∀ e ∈ program, e.FirstOrder)
    (h : (stepProgram .standard program).exec .fresh = (.ok (true, program'), env')) :
    (∀ e ∈ program', e.FirstOrder) ∧ Expr.weights program' < Expr.weights program ∧
      env' = .fresh := by
  rcases stepProgram_cases program .fresh with
    ⟨err, hexec⟩ | ⟨-, hexec⟩ | ⟨left, e, right, e', env₁, rfl, -, hstep, hexec⟩
  · rw [hexec] at h
    cases h
  · rw [hexec] at h
    cases h
  · rw [hexec] at h
    cases h
    obtain ⟨⟨he', hlt⟩, hfresh⟩ := step_lightens (hprogram e (by simp)) hstep
    -- the forms before the one that steps are taken for the procedures that they name
    have hbefore : ∀ x ∈ left, x.FirstOrder := fun x hx => hprogram x (by simp [hx])
    obtain ⟨hleft, hweight⟩ := Expr.FirstOrder.map_named hbefore
    have hright : ∀ x ∈ right, x.FirstOrder := fun x hx => hprogram x (by simp [hx])
    have hforms : ∀ x ∈ left.map Environment.fresh.named ++ e' :: right, x.FirstOrder :=
      List.forall_mem_append.mpr ⟨hleft, List.forall_mem_cons.mpr ⟨he', hright⟩⟩
    rw [Expr.FirstOrder.rebuild_eq hforms]
    refine ⟨hforms, ?_, hfresh⟩
    simp only [Expr.weights_append, Expr.weights_cons, hweight]
    omega

/-! ## Runs -/

/-- The evaluation of a program of the fragment, before any definition, comes to an end within as
many steps as it weighs. -/
theorem evaluate_firstOrder (hprogram : ∀ e ∈ program, e.FirstOrder) {budget : Nat}
    (hbudget : Expr.weights program < budget) :
    ∃ run, evaluate .standard budget program .fresh = some run ∧
      run.steps ≤ Expr.weights program := by
  have hlightens : ∀ {program next : Program} {env env' : Environment},
      (∀ e ∈ program, e.FirstOrder) ∧ env = .fresh →
      (stepProgram .standard program).exec env = (.ok (true, next), env') →
      ((∀ e ∈ next, e.FirstOrder) ∧ env' = .fresh) ∧
        Expr.weights next < Expr.weights program := by
    rintro program next env env' ⟨hprogram, rfl⟩ hround
    obtain ⟨hnext, hlt, hfresh⟩ := stepProgram_lightens hprogram hround
    exact ⟨⟨hnext, hfresh⟩, hlt⟩
  obtain ⟨run, hrun, hsteps⟩ := runFrom_of_measure
    (I := fun forms env => (∀ e ∈ forms, e.FirstOrder) ∧ env = .fresh) hlightens 0
    ⟨hprogram, rfl⟩ hbudget
  rw [Nat.zero_add] at hsteps
  exact ⟨run, hrun, hsteps⟩

/-- The first-order fragment always terminates. If the symbols `lambda`, `define` and
`define-struct` do not occur in the program of a source text, its evaluation over the built-ins
comes to an end, with a value or an error, within as many steps as the program weighs. -/
theorem firstOrder_terminates {strict : Bool} {source : String} {program : Program}
    (h : readProgram strict source = .ok program)
    (avoids : ∀ e ∈ program, e.Avoids "lambda" ∧ e.Avoids "define" ∧ e.Avoids "define-struct")
    {budget : Nat} (hbudget : Expr.weights program < budget) :
    ∃ run, evaluate .standard budget program .fresh = some run ∧
      run.steps ≤ Expr.weights program := by
  refine evaluate_firstOrder (fun e he => ?_) hbudget
  have hwritten : e.Written fun _ => True := readProgram_written (fun _ _ => trivial) h e he
  obtain ⟨hlambda, hdefine, hstruct⟩ := avoids e he
  refine hwritten.firstOrder fun name hname => ?_
  simp only [binderNames, lambdaName, List.mem_cons, List.not_mem_nil, or_false] at hname
  rcases hname with rfl | rfl | rfl
  · exact hlambda
  · exact hdefine
  · exact hstruct

/-- `(apply not (list #f))` comes to its end within twelve steps. -/
theorem firstOrder_terminates_apply :
    ∃ run, evaluate .standard 13
        [.sequence [.symbol "apply", .symbol "not", .sequence [.symbol "list", .boolean false]]]
        .fresh = some run ∧ run.steps ≤ 12 := by
  have hread : readProgram true "(apply not (list #f))" =
      .ok [.sequence [.symbol "apply", .symbol "not",
        .sequence [.symbol "list", .boolean false]]] := rfl
  have havoids : ∀ z, "apply" ≠ z → "not" ≠ z → "list" ≠ z → Expr.Avoids z
      (.sequence [.symbol "apply", .symbol "not", .sequence [.symbol "list", .boolean false]]) := by
    intro z happly hnot hlist
    have hlast : Expr.Avoids z (.sequence [.symbol "list", .boolean false]) :=
      .sequence (List.forall_mem_cons.mpr
        ⟨.symbol hlist, List.forall_mem_singleton.mpr (.boolean false)⟩)
    exact .sequence (List.forall_mem_cons.mpr ⟨.symbol happly,
      List.forall_mem_cons.mpr ⟨.symbol hnot, List.forall_mem_singleton.mpr hlast⟩⟩)
  refine firstOrder_terminates hread (List.forall_mem_singleton.mpr ⟨?_, ?_, ?_⟩) (by decide)
  · exact havoids "lambda" (by decide) (by decide) (by decide)
  · exact havoids "define" (by decide) (by decide) (by decide)
  · exact havoids "define-struct" (by decide) (by decide) (by decide)

end Redex
