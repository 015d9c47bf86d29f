import Mathlib.Data.List.Forall2
import Redex.Proofs.Inherited
import Redex.Proofs.Names
import Redex.Proofs.Unbound

/-!
# Unmentioned bindings

Stepping looks a name up only where it stands as a symbol. So what a name is bound to makes no
difference to a program in which it does not stand, nor in anything that the program can reach: two
runs whose layers differ in such a name only are the same, round by round.

* **`Expr.Avoids`** — a name stands nowhere in an expression, and **`Expr.avoids_inherited`** —
  application does not bring it in.
* **`Environment.Alike`** — the layers of two environments agree but for that name, and nothing in
  them mentions it.
* **`Stepping.Blind`** — a computation comes to the same from environments that are alike, and
  leaves them alike; with one rule for each way of composing computations.
* **`expand_blind`** and **`step_blind`** — stepping is blind to a name that it does not meet.
* **`rounds_unmentioned`** — so are rounds of stepping, as many as one likes.
-/

namespace Redex

/-- The name is that of no symbol and of no parameter in an expression. -/
inductive Expr.Avoids (z : String) : Expr → Prop where
  | number (x : Float) : Avoids z (.number x)
  | text (s : String) : Avoids z (.text s)
  | boolean (b : Bool) : Avoids z (.boolean b)
  | symbol {name : String} (h : name ≠ z) : Avoids z (.symbol name)
  | sequence {items : List Expr} (h : ∀ x ∈ items, Avoids z x) : Avoids z (.sequence items)
  | native (p : Native) : Avoids z (.native p)
  | closure {params : Params} {body : Expr} {name : String} (h : z ∉ params.names)
      (hbody : Avoids z body) : Avoids z (.closure params body name)
  | struct {tag : String} {fields : List (String × Expr)} (h : ∀ f ∈ fields, Avoids z f.2) :
      Avoids z (.struct tag fields)
  | quoted {e : Expr} (h : Avoids z e) : Avoids z (.quoted e)
  | answered {e : Expr} (h : Avoids z e) : Avoids z (.answered e)
  | undefined : Avoids z .undefined
  | absent : Avoids z .absent

variable {z name : String} {e : Expr} {items : List Expr} {env env' : Environment}

namespace Expr.Avoids

theorem mem (h : Avoids z (.sequence items)) : ∀ x ∈ items, Avoids z x := by
  cases h with
  | sequence h => exact h

theorem ne (h : Avoids z (.symbol name)) : name ≠ z := by
  cases h with
  | symbol h => exact h

/-- What an expression mentions is another name. -/
theorem ne_of_mentions (h : Avoids z e) (hname : Mentions name e) : name ≠ z := by
  induction hname with
  | symbol => exact h.ne
  | item _ hmem _ ih => exact ih (h.mem _ hmem)
  | literal _ _ ih => exact ih (.sequence fun x hx => h.mem x (by simp [hx]))
  | closure _ _ ih =>
    cases h with
    | closure _ hbody => exact ih hbody
  | answered _ ih =>
    cases h with
    | answered h => exact ih h

end Expr.Avoids

/-- Application brings in no name that stands neither in the procedure nor in its arguments. -/
theorem Expr.avoids_inherited (z : String) : Expr.Inherited (Expr.Avoids z) where
  number := .number
  boolean := .boolean
  undefined := .undefined
  sequence := ⟨Expr.Avoids.mem, .sequence⟩
  struct := by
    refine ⟨?_, .struct⟩
    rintro ⟨⟩
    assumption
  body := by
    rintro _ _ _ ⟨⟩
    assumption
  closure := by
    rintro _ _ _ _ ⟨⟩ hbody
    exact .closure (by assumption) hbody
  answered := by
    rintro _ ⟨⟩
    assumption

/-! ## Parameters and definitions -/

theorem symbolNames_avoids {wrong : Expr → Error} {names : List String}
    (hitems : ∀ x ∈ items, x.Avoids z) (h : symbolNames wrong items = .ok names) : z ∉ names :=
  fun hz => (hitems _ (symbolNames_mem h z hz)).ne rfl

theorem Params.ofItems_avoids {params : Params} (hitems : ∀ x ∈ items, x.Avoids z)
    (h : Params.ofItems items = .ok params) : z ∉ params.names := by
  unfold Params.ofItems at h
  split at h
  · split at h
    · rename_i dot rest _
      split at h
      · cases h
        have hne := (hitems (.symbol rest) (by simp)).ne
        simpa [Params.names] using hne.symm
      · cases h
    · cases h
  · cases hnames : symbolNames .paramNotSymbol items with
    | error err =>
      rw [hnames] at h
      cases h
    | ok names =>
      rw [hnames] at h
      cases h
      exact symbolNames_avoids hitems hnames

theorem Params.ofSpec_avoids {spec : Expr} {params : Params} (hspec : spec.Avoids z)
    (h : Params.ofSpec spec = .ok params) : z ∉ params.names := by
  unfold Params.ofSpec at h
  split at h
  · cases h
    simpa [Params.names] using hspec.ne.symm
  · exact Params.ofItems_avoids hspec.mem h
  · cases h

theorem definition_avoids {args : List Expr} {value : Expr} (hargs : ∀ a ∈ args, a.Avoids z)
    (h : SpecialForm.definition args = .ok (name, value)) : value.Avoids z := by
  unfold SpecialForm.definition at h
  split at h
  · rename_i target params body rest
    cases hparams : Params.ofItems params with
    | error err =>
      rw [hparams] at h
      cases h
    | ok params' =>
      rw [hparams] at h
      cases h
      have htarget := (hargs _ List.mem_cons_self).mem
      have hnames := Params.ofItems_avoids (fun x hx => htarget x (List.mem_cons_of_mem _ hx)) hparams
      exact .closure hnames (hargs _ (by simp))
  · cases h
  · cases h
    exact hargs _ (by simp)
  · cases h
  · cases h

theorem structProcedures_avoids (z tag : String) (fields : List String) :
    ∀ b ∈ structProcedures tag fields, b.2.Avoids z := by
  intro b hb
  obtain ⟨p, -, rfl⟩ := List.mem_map.mp (Assoc.mem_ofList hb)
  exact .native p

/-! ## Environments -/

/-- The layers agree on every name but `z`, and nothing that another name is bound to mentions it. -/
structure Environment.Alike (z : String) (env env' : Environment) : Prop where
  builtins : env'.builtins = env.builtins
  frozen : env'.user.frozen = env.user.frozen
  user : ∀ name, name ≠ z → env'.user.get? name = env.user.get? name
  avoids : ∀ name value, name ≠ z → lookupIn env.layers name = some value → value.Avoids z

theorem lookupIn_layers (env : Environment) (name : String) :
    lookupIn env.layers name = (env.user.get? name).or (env.builtins.get? name) := by
  simp only [lookupIn, Environment.layers, List.findSome?_cons, List.findSome?_nil]
  cases env.user.get? name with
  | some value => rfl
  | none => cases env.builtins.get? name <;> rfl

theorem Layer.get?_bindAll_singleton (layer : Layer) (key : String) (value : Expr) :
    (layer.bindAll [(key, value)]).get? name =
      if name = key then some value else layer.get? name := by
  by_cases h : name = key
  · subst h
    rw [if_pos rfl]
    exact Assoc.lookup_insert_self _ _ _
  · rw [if_neg h]
    exact Assoc.lookup_insert_of_ne _ _ h

/-- The built-ins are native procedures, in which no name stands. -/
theorem Layer.builtins_avoids (h : Layer.builtins.get? name = some e) : e.Avoids z := by
  obtain ⟨b, -, hb⟩ := List.mem_map.mp (Assoc.mem_of_lookup h)
  cases hb
  exact .native _

namespace Environment.Alike

theorem lookupIn (h : Alike z env env') (hname : name ≠ z) :
    lookupIn env'.layers name = Redex.lookupIn env.layers name := by
  rw [lookupIn_layers, lookupIn_layers, h.user name hname, h.builtins]

theorem get? (h : Alike z env env') (hname : name ≠ z) : env'.get? name = env.get? name := by
  unfold Environment.get?
  rw [h.lookupIn hname]

theorem get?_avoids (h : Alike z env env') (hname : name ≠ z) (hget : env.get? name = some e) :
    e.Avoids z :=
  h.avoids name e hname (Option.filter_eq_some_iff.mp hget).1

/-- The search for an unbound symbol does not come upon the name. -/
theorem mentionsUnbound (h : Alike z env env') (macros : MacroTable) (params : List String)
    (he : e.Avoids z) :
    mentionsUnbound env' macros params e = Redex.mentionsUnbound env macros params e := by
  have hbound : ∀ name, Mentions name e →
      isBound env' macros name = isBound env macros name := by
    intro name hname
    unfold isBound
    rw [h.lookupIn (he.ne_of_mentions hname)]
  rw [Bool.eq_iff_iff, mentionsUnbound_iff, mentionsUnbound_iff]
  refine exists_congr fun name => and_congr_right fun _ => ?_
  constructor
  · rintro ⟨hfree, hname⟩
    exact ⟨hbound name hname ▸ hfree, hname⟩
  · rintro ⟨hfree, hname⟩
    exact ⟨(hbound name hname).symm ▸ hfree, hname⟩

theorem bind (h : Alike z env env') (key : String) {value : Expr} (hvalue : value.Avoids z) :
    Alike z (env.bindAll [(key, value)]) (env'.bindAll [(key, value)]) := by
  refine ⟨h.builtins, h.frozen, ?_, ?_⟩
  · intro name hname
    simp only [Environment.bindAll, Layer.get?_bindAll_singleton, h.user name hname]
  · intro name found hname hfound
    rw [lookupIn_layers] at hfound
    simp only [Environment.bindAll, Layer.get?_bindAll_singleton] at hfound
    split at hfound
    · cases hfound
      exact hvalue
    · rw [← lookupIn_layers] at hfound
      exact h.avoids name found hname hfound

/-- An environment is like itself with the name bound, if nothing else in it mentions the name. -/
theorem bound (h : ∀ name value, name ≠ z → Redex.lookupIn env.layers name = some value →
    value.Avoids z) (value : Expr) : Alike z env (env.bindAll [(z, value)]) := by
  refine ⟨rfl, rfl, ?_, h⟩
  intro name hname
  simp only [Environment.bindAll, Layer.get?_bindAll_singleton, if_neg hname]

end Environment.Alike

open Environment (Alike)

/-! ## Computations -/

/-- From environments that are alike the computation comes to the same outcome, a result that has
the given property or an error, and leaves environments that are alike. -/
def Stepping.Blind {α : Type} (z : String) (Q : α → Prop) (m : Stepping α) : Prop :=
  ∀ env env', Alike z env env' → (m.exec env').1 = (m.exec env).1 ∧
    Alike z (m.exec env).2 (m.exec env').2 ∧ ∀ a, (m.exec env).1 = .ok a → Q a

namespace Stepping.Blind

variable {α β : Type} {Q : α → Prop} {R : β → Prop}

theorem pure {a : α} (h : Q a) : Blind z Q (Pure.pure a) := by
  intro env env' henv
  refine ⟨rfl, henv, ?_⟩
  rintro _ ⟨⟩
  exact h

theorem lift {r : Except Error α} (h : ∀ a, r = .ok a → Q a) : Blind z Q (Stepping.lift r) := by
  intro env env' henv
  simp only [exec_lift]
  exact ⟨trivial, henv, h⟩

theorem bind {m : Stepping α} {f : α → Stepping β} (hm : Blind z Q m)
    (hf : ∀ a, Q a → Blind z R (f a)) : Blind z R (m >>= f) := by
  intro env env' henv
  obtain ⟨hsame, hleft, hresult⟩ := hm env env' henv
  rw [exec_bind, exec_bind]
  generalize m.exec env = first at hsame hleft hresult ⊢
  generalize m.exec env' = first' at hsame hleft ⊢
  obtain ⟨outcome, env₁⟩ := first
  obtain ⟨outcome', env₁'⟩ := first'
  obtain rfl : outcome' = outcome := hsame
  cases outcome' with
  | error err => exact ⟨rfl, hleft, nofun⟩
  | ok a => exact hf a (hresult a rfl) env₁ env₁' hleft

/-- A computation may look at the environment if it sees the same in environments that are alike. -/
theorem get {f : Environment → Stepping β}
    (hf : ∀ env env', Alike z env env' → f env' = f env ∧ Blind z R (f env)) :
    Blind z R (MonadState.get >>= f) := by
  intro env env' henv
  obtain ⟨hsame, hblind⟩ := hf env env' henv
  rw [exec_bind_of_ok (exec_get env), exec_bind_of_ok (exec_get env'), hsame]
  exact hblind env env' henv

theorem define (key : String) {value : Expr} (hvalue : value.Avoids z) :
    Blind z (fun _ => True) (Stepping.define key value) := by
  intro env env' henv
  rw [exec_define, exec_define, henv.frozen]
  split
  · exact ⟨rfl, henv, nofun⟩
  · exact ⟨rfl, henv.bind key hvalue, fun _ _ => trivial⟩

theorem update {pairs : List (String × Expr)} (hpairs : ∀ b ∈ pairs, b.2.Avoids z) :
    Blind z (fun _ => True) (Stepping.update pairs) := by
  induction pairs with
  | nil => exact pure trivial
  | cons p pairs ih =>
    obtain ⟨hp, hpairs⟩ := List.forall_mem_cons.mp hpairs
    exact (define p.1 hp).bind fun _ _ => ih hpairs

end Stepping.Blind

open Stepping (Blind)

/-! ## What stays free of the name -/

/-- What a step gives is of the given kind. -/
def Step.Holds (Q : Expr → Prop) (s : Step) : Prop :=
  Q s.expr

/-- What a special form becomes, if anything, is of the given kind. -/
def Outcome.Holds (Q : Expr → Prop) : Outcome → Prop
  | .becomes e => Q e
  | .deferred => True
  | .failed _ => True

/-- What a pass made of its argument, if anything, is of the given kind. -/
def Change.Holds {α : Type} (Q : α → Prop) : Change α → Prop
  | .unchanged => True
  | .idle => True
  | .silent a => Q a
  | .visible a => Q a

theorem Change.Holds.cons {Q : Expr → Prop} {first : Change Expr} {others : Change (List Expr)}
    (he : Q e) (hitems : ∀ x ∈ items, Q x) (hfirst : first.Holds Q)
    (hothers : others.Holds fun xs => ∀ x ∈ xs, Q x) :
    (Change.cons e items first others).Holds fun xs => ∀ x ∈ xs, Q x := by
  cases first with
  | visible a => exact List.forall_mem_cons.mpr ⟨hfirst, hitems⟩
  | idle => trivial
  | silent a =>
    cases others with
    | unchanged => exact List.forall_mem_cons.mpr ⟨hfirst, hitems⟩
    | idle => exact List.forall_mem_cons.mpr ⟨hfirst, hitems⟩
    | silent as => exact List.forall_mem_cons.mpr ⟨hfirst, hothers⟩
    | visible as => exact List.forall_mem_cons.mpr ⟨hfirst, hothers⟩
  | unchanged =>
    cases others with
    | unchanged => trivial
    | idle => trivial
    | silent as => exact List.forall_mem_cons.mpr ⟨he, hothers⟩
    | visible as => exact List.forall_mem_cons.mpr ⟨he, hothers⟩

theorem Change.Holds.enclose {change : Change (List Expr)}
    (h : change.Holds fun xs => ∀ x ∈ xs, x.Avoids z) :
    change.enclose.Holds (Expr.Avoids z) := by
  cases change with
  | unchanged => trivial
  | idle => trivial
  | silent items => exact .sequence (rebuild_inherits h)
  | visible items => exact .sequence (rebuild_inherits h)

/-! ## The second pass -/

theorem reduceItems_alike
    (hsame : ∀ x ∈ items, reduce .standard env' x = reduce .standard env x ∧
      ∀ s, reduce .standard env x = .ok s → s.expr.Avoids z)
    (hitems : ∀ x ∈ items, x.Avoids z) :
    reduceItems .standard env' items = reduceItems .standard env items ∧
      ∀ r, reduceItems .standard env items = .ok r → ∀ x ∈ r.2, x.Avoids z := by
  induction items with
  | nil =>
    refine ⟨rfl, ?_⟩
    rintro _ ⟨⟩
    nofun
  | cons item rest ih =>
    obtain ⟨hfirst, hsame⟩ := List.forall_mem_cons.mp hsame
    obtain ⟨-, hrest⟩ := List.forall_mem_cons.mp hitems
    obtain ⟨heq, hothers⟩ := ih hsame hrest
    constructor
    · rw [reduceItems, reduceItems, hfirst.1, heq]
    · rintro ⟨stepped, results⟩ h
      rcases reduceItems_cons_cases h with ⟨item', hitem, -, rfl⟩ | ⟨hitem, others, hfound, rfl⟩
      · exact List.forall_mem_cons.mpr ⟨hfirst.2 _ hitem, hrest⟩
      · exact List.forall_mem_cons.mpr ⟨hfirst.2 _ hitem, hothers _ hfound⟩

/-- The second pass looks up nothing but symbols that stand in its argument. -/
theorem reduce_alike (henv : Alike z env env') (he : e.Avoids z) :
    reduce .standard env' e = reduce .standard env e ∧
      ∀ s, reduce .standard env e = .ok s → s.expr.Avoids z := by
  induction e using Expr.sequence_induction with
  | leaf e hleaf =>
    cases e with
    | symbol name =>
      rw [reduce, reduce, henv.get? he.ne]
      refine ⟨rfl, ?_⟩
      cases hget : env.get? name with
      | none =>
        rintro _ ⟨⟩
        exact he
      | some value =>
        rintro _ ⟨⟩
        exact henv.get?_avoids he.ne hget
    | sequence items => exact absurd rfl (hleaf items)
    | _ =>
      refine ⟨rfl, ?_⟩
      rintro _ ⟨⟩
      exact he
  | sequence items ih =>
    obtain ⟨hsame, hresults⟩ := reduceItems_alike (fun x hx => ih x hx (he.mem x hx)) he.mem
    by_cases hmacro : MacroTable.isMacroCall .standard items = true
    · rw [reduce_special hmacro, reduce_special hmacro]
      refine ⟨rfl, ?_⟩
      rintro _ ⟨⟩
      exact he
    · rw [reduce_items (by simpa using hmacro), reduce_items (by simpa using hmacro), hsame]
      refine ⟨rfl, ?_⟩
      intro s hs
      split at hs
      · cases hs
      · rename_i results hfound
        cases hs
        exact .sequence (rebuild_inherits (hresults _ hfound))
      · rename_i results hfound
        have hitems := rebuild_inherits (hresults _ hfound)
        split at hs
        · cases hs
          exact he
        · rename_i head args hcall
          rw [hcall] at hitems
          obtain ⟨hhead, hargs⟩ := List.forall_mem_cons.mp hitems
          split at hs
          · cases hresult : applyCall head args with
            | error err =>
              rw [hresult] at hs
              cases hs
            | ok r =>
              rw [hresult] at hs
              cases hs
              exact (Expr.avoids_inherited z).applyCall hhead hargs hresult
          · cases hs
            exact he

/-! ## The first pass -/

theorem settle_blind (he : e.Avoids z) {change : Change Expr} (h : change.Holds (Expr.Avoids z)) :
    Blind z (Step.Holds (Expr.Avoids z)) (settle .standard e change) := by
  cases change with
  | visible e' => exact .pure h
  | idle => exact .pure he
  | unchanged =>
    refine .get fun env env' henv => ?_
    obtain ⟨hsame, hresult⟩ := reduce_alike henv he
    exact ⟨by rw [hsame], .lift hresult⟩
  | silent e' =>
    refine .get fun env env' henv => ?_
    obtain ⟨hsame, hresult⟩ := reduce_alike henv h
    exact ⟨by rw [hsame], (Blind.lift hresult).bind fun s hs => .pure hs⟩

theorem step_blind_of (he : e.Avoids z)
    (h : Blind z (Change.Holds (Expr.Avoids z)) (expand .standard e)) :
    Blind z (Step.Holds (Expr.Avoids z)) (step .standard e) :=
  h.bind fun _ hchange => settle_blind he hchange

theorem expandItems_blind (hitems : ∀ x ∈ items, x.Avoids z)
    (h : ∀ x ∈ items, Blind z (Change.Holds (Expr.Avoids z)) (expand .standard x)) :
    Blind z (Change.Holds fun xs => ∀ x ∈ xs, x.Avoids z) (expandItems .standard items) := by
  induction items with
  | nil =>
    rw [expandItems]
    exact .pure trivial
  | cons item rest ih =>
    obtain ⟨hitem, hrest⟩ := List.forall_mem_cons.mp hitems
    obtain ⟨hfirst, hothers⟩ := List.forall_mem_cons.mp h
    rw [expandItems, consPass]
    refine hfirst.bind fun change hchange => ?_
    split
    · exact .pure (.cons hitem hrest hchange trivial)
    · exact (ih hrest hothers).bind fun others hothers => .pure (.cons hitem hrest hchange hothers)

section SpecialForms

variable {args : List Expr} {head : Expr}

theorem define_blind (hargs : ∀ a ∈ args, a.Avoids z) :
    Blind z (Outcome.Holds (Expr.Avoids z)) (SpecialForm.define args) := by
  unfold SpecialForm.define
  split
  · exact .pure trivial
  · rename_i name value hparts
    exact (Blind.define name (definition_avoids hargs hparts)).bind fun _ _ => .pure .undefined

theorem defineStruct_blind :
    Blind z (Outcome.Holds (Expr.Avoids z)) (SpecialForm.defineStruct args) := by
  unfold SpecialForm.defineStruct
  split
  · exact .pure trivial
  · rename_i tag fields _
    exact (Blind.update (structProcedures_avoids z tag fields)).bind fun _ _ => .pure .undefined

theorem lambda_avoids (hargs : ∀ a ∈ args, a.Avoids z) :
    (SpecialForm.lambda args).Holds (Expr.Avoids z) := by
  cases args with
  | nil => trivial
  | cons spec rest =>
    obtain ⟨hspec, hrest⟩ := List.forall_mem_cons.mp hargs
    simp only [SpecialForm.lambda]
    cases hparams : Params.ofSpec spec with
    | error err => trivial
    | ok params =>
      exact .closure (Params.ofSpec_avoids hspec hparams) (head?_getD_inherits hrest .undefined)

theorem conditional_blind {stepTest : Stepping Step} (hhead : head.Avoids z)
    (hargs : ∀ a ∈ args, a.Avoids z) (htest : Blind z (Step.Holds (Expr.Avoids z)) stepTest) :
    Blind z (Outcome.Holds (Expr.Avoids z))
      (SpecialForm.conditional .standard head args stepTest) := by
  unfold SpecialForm.conditional
  split
  · rename_i test thenBranch rest
    obtain ⟨hcond, hbranches⟩ := List.forall_mem_cons.mp hargs
    obtain ⟨hthen, hrest⟩ := List.forall_mem_cons.mp hbranches
    split
    · exact .pure (head?_getD_inherits hrest (.boolean false))
    · split
      · exact .pure hthen
      · refine .get fun env env' henv => ?_
        rw [henv.mentionsUnbound .standard [] hcond]
        refine ⟨rfl, ?_⟩
        split
        · exact .pure trivial
        · refine htest.bind fun s hs => ?_
          split
          · exact .pure (.sequence (List.forall_mem_cons.mpr
              ⟨hhead, List.forall_mem_cons.mpr ⟨hs, hbranches⟩⟩))
          · exact .pure hthen
  · exact .pure trivial

theorem spread_blind {stepFunction stepLast : Stepping Step} (hhead : head.Avoids z)
    (hargs : ∀ a ∈ args, a.Avoids z)
    (hfunction : Blind z (Step.Holds (Expr.Avoids z)) stepFunction)
    (hlast : Blind z (Step.Holds (Expr.Avoids z)) stepLast) :
    Blind z (Outcome.Holds (Expr.Avoids z))
      (SpecialForm.spread head args stepFunction stepLast) := by
  unfold SpecialForm.spread
  split
  · rename_i function arg more
    obtain ⟨-, hrest⟩ := List.forall_mem_cons.mp hargs
    have hlead : ∀ x ∈ (arg :: more).dropLast, x.Avoids z :=
      fun x hx => hrest x (List.dropLast_subset _ hx)
    refine hfunction.bind fun f hf => ?_
    -- whatever the call becomes starts with its head or with the function
    have hcall : ∀ {x : Expr} {xs : List Expr}, x.Avoids z → (∀ y ∈ xs, y.Avoids z) →
        ∀ y ∈ x :: xs, y.Avoids z := fun hx hxs => List.forall_mem_cons.mpr ⟨hx, hxs⟩
    split
    · exact .pure (.sequence (hcall hhead (hcall hf hrest)))
    · split
      · exact .pure trivial
      · refine hlast.bind fun last hlast' => ?_
        split
        · have hends := List.forall_mem_append.mpr ⟨hlead, hcall hlast' (List.forall_mem_nil _)⟩
          exact .pure (.sequence (hcall hhead (hcall hf hends)))
        · split
          · rename_i items hitems
            have hspread : ∀ x ∈ items, x.Avoids z := by
              unfold Step.Holds at hlast'
              rw [hitems] at hlast'
              exact hlast'.mem
            exact .pure (.sequence (hcall hf (List.forall_mem_append.mpr ⟨hlead, hspread⟩)))
          · exact .pure trivial
  · exact .pure trivial

theorem conclude_blind {outcome : Outcome} (h : outcome.Holds (Expr.Avoids z)) :
    Blind z (Change.Holds (Expr.Avoids z)) (SpecialForm.conclude head outcome) := by
  cases outcome with
  | becomes e =>
    refine .pure ?_
    split
    · exact h
    · exact h
  | deferred => exact .pure trivial
  | failed err =>
    intro env env' henv
    exact ⟨rfl, henv, nofun⟩

/-- The rules of the language are blind to the name if the steps that they are given are. -/
theorem run_blind {rule : MacroRule} {stepFirst stepLast : Stepping Step}
    (hrule : MacroTable.standard.rule? head = some rule) (hhead : head.Avoids z)
    (hargs : ∀ a ∈ args, a.Avoids z) (hfirst : Blind z (Step.Holds (Expr.Avoids z)) stepFirst)
    (hlast : Blind z (Step.Holds (Expr.Avoids z)) stepLast) :
    Blind z (Outcome.Holds (Expr.Avoids z))
      (SpecialForm.run .standard rule head args stepFirst stepLast) := by
  rcases MacroTable.rule?_standard hrule with
    ⟨-, rfl⟩ | ⟨-, rfl⟩ | ⟨-, rfl⟩ | ⟨-, rfl⟩ | ⟨-, rfl⟩ | ⟨-, rfl⟩
  · exact define_blind hargs
  · exact .pure (lambda_avoids hargs)
  · exact conditional_blind hhead hargs hfirst
  · exact spread_blind hhead hargs hfirst hlast
  · exact .pure (.sequence hargs)
  · exact defineStruct_blind

end SpecialForms

theorem stepFirst_blind {args : List Expr}
    (h : ∀ a ∈ args, Blind z (Step.Holds (Expr.Avoids z)) (step .standard a)) :
    Blind z (Step.Holds (Expr.Avoids z)) (stepFirst .standard args) := by
  cases args with
  | nil =>
    rw [stepFirst]
    exact .pure .undefined
  | cons arg rest =>
    rw [stepFirst_cons]
    exact h arg List.mem_cons_self

theorem stepLast_blind {args : List Expr}
    (h : ∀ a ∈ args, Blind z (Step.Holds (Expr.Avoids z)) (step .standard a)) :
    Blind z (Step.Holds (Expr.Avoids z)) (stepLast .standard args) := by
  rcases args.eq_nil_or_concat' with rfl | ⟨lead, last, rfl⟩
  · rw [stepLast]
    exact .pure .undefined
  · rw [stepLast_concat]
    exact h last (by simp)

/-- The first pass is blind to a name that its argument does not mention. -/
theorem expand_blind (he : e.Avoids z) :
    Blind z (Change.Holds (Expr.Avoids z)) (expand .standard e) := by
  induction e using Expr.sequence_induction with
  | leaf e hleaf =>
    intro env env' henv
    rw [expand_leaf hleaf, expand_leaf hleaf]
    refine ⟨rfl, henv, ?_⟩
    rintro _ ⟨⟩
    trivial
  | sequence items ih =>
    have hexpand := fun x hx => ih x hx (he.mem x hx)
    by_cases hmacro : MacroTable.isMacroCall .standard items = true
    · cases items with
      | nil => cases hmacro
      | cons head args =>
        obtain ⟨rule, hrule⟩ := Option.isSome_iff_exists.mp hmacro
        obtain ⟨hhead, hargs⟩ := List.forall_mem_cons.mp he.mem
        have hstep : ∀ a ∈ args, Blind z (Step.Holds (Expr.Avoids z)) (step .standard a) :=
          fun a ha => step_blind_of (hargs a ha) (hexpand a (List.mem_cons_of_mem head ha))
        rw [expand_special hrule]
        exact (run_blind hrule hhead hargs (stepFirst_blind hstep) (stepLast_blind hstep)).bind
          fun _ houtcome => conclude_blind houtcome
    · rw [expand_items (by simpa using hmacro)]
      exact (expandItems_blind he.mem hexpand).bind fun change hchange => .pure hchange.enclose

theorem step_blind (he : e.Avoids z) :
    Blind z (Step.Holds (Expr.Avoids z)) (step .standard e) :=
  step_blind_of he (expand_blind he)

/-! ## Rounds -/

theorem stepForms_blind {forms : List Expr} (hforms : ∀ e ∈ forms, e.Avoids z) :
    Blind z (fun r => ∀ e ∈ r.2, e.Avoids z) (stepForms .standard forms) := by
  induction forms with
  | nil => exact .pure nofun
  | cons form rest ih =>
    obtain ⟨hform, hrest⟩ := List.forall_mem_cons.mp hforms
    rw [stepForms]
    refine (step_blind hform).bind fun s hs => ?_
    split
    · exact .pure (List.forall_mem_cons.mpr ⟨hs, hrest⟩)
    · exact (ih hrest).bind fun r hr => .pure (List.forall_mem_cons.mpr ⟨hs, hr⟩)

theorem stepProgram_blind {program : Program} (h : ∀ e ∈ program, e.Avoids z) :
    Blind z (fun r => ∀ e ∈ r.2, e.Avoids z) (stepProgram .standard program) :=
  (stepForms_blind h).bind fun _ hr => .pure (rebuild_inherits hr)

/-- What comes of each of a number of rounds of stepping, one after the other: whether it stepped
and the program it gave, or its failure, and the environment it left. A round that fails leaves the
program as it was. -/
def rounds (macros : MacroTable) :
    Nat → Program → Environment → List (Except Error (Bool × Program) × Environment)
  | 0, _, _ => []
  | n + 1, program, env =>
    let round := (stepProgram macros program).exec env
    let next := match round.1 with
      | .ok (_, next) => next
      | .error _ => program
    round :: rounds macros n next round.2

theorem rounds_alike {program : Program} (hprogram : ∀ e ∈ program, e.Avoids z)
    (henv : Alike z env env') (n : Nat) :
    List.Forall₂ (fun left right => right.1 = left.1 ∧ Alike z left.2 right.2)
      (rounds .standard n program env) (rounds .standard n program env') := by
  induction n generalizing program env env' with
  | zero => exact .nil
  | succ n ih =>
    obtain ⟨hsame, hleft, hresult⟩ := stepProgram_blind hprogram env env' henv
    rw [rounds, rounds, hsame]
    refine .cons ⟨hsame, hleft⟩ (ih ?_ hleft)
    cases hround : ((stepProgram .standard program).exec env).1 with
    | error err => exact hprogram
    | ok r => exact hresult r hround

/-- A binding that nothing mentions is irrelevant. If a name stands as no symbol in a program nor in
anything that another name is bound to, then binding it, or binding it anew, to whatever one likes
changes nothing: any number of rounds step alike, give the same programs and fail alike, and leave
user layers that agree on every other name. -/
theorem rounds_unmentioned {program : Program} (hprogram : ∀ e ∈ program, e.Avoids z)
    (henv : ∀ name value, name ≠ z → lookupIn env.layers name = some value → value.Avoids z)
    (value : Expr) (n : Nat) :
    List.Forall₂ (fun left right => right.1 = left.1 ∧ right.2.builtins = left.2.builtins ∧
        ∀ name, name ≠ z → right.2.user.get? name = left.2.user.get? name)
      (rounds .standard n program env)
      (rounds .standard n program (env.bindAll [(z, value)])) :=
  (rounds_alike hprogram (Alike.bound henv value) n).imp
    fun _ _ h => ⟨h.1, h.2.builtins, h.2.user⟩

/-- A constructor that a program defines and never names may have been bound to anything before. -/
theorem rounds_unmentioned_constructor :
    List.Forall₂ (fun left right => right.1 = left.1 ∧ right.2.builtins = left.2.builtins ∧
        ∀ name, name ≠ "make-p" → right.2.user.get? name = left.2.user.get? name)
      (rounds .standard 3 [.sequence [.symbol "define-struct", .symbol "p", .symbol "a"],
        .sequence [.symbol "p?", .text "make-p"]] .fresh)
      (rounds .standard 3 [.sequence [.symbol "define-struct", .symbol "p", .symbol "a"],
        .sequence [.symbol "p?", .text "make-p"]]
        (Environment.fresh.bindAll [("make-p", .symbol "make-p")])) := by
  refine rounds_unmentioned ?_ ?_ (.symbol "make-p") 3
  · have hsymbol : ∀ name, name ≠ "make-p" → Expr.Avoids "make-p" (.symbol name) := fun _ => .symbol
    have htext := Expr.Avoids.text (z := "make-p") "make-p"
    have hdefinition : Expr.Avoids "make-p"
        (.sequence [.symbol "define-struct", .symbol "p", .symbol "a"]) :=
      .sequence (by simp [hsymbol])
    have htest : Expr.Avoids "make-p" (.sequence [.symbol "p?", .text "make-p"]) :=
      .sequence (by simp [hsymbol, htext])
    simp [hdefinition, htest]
  · intro name value _ hvalue
    rw [lookupIn_layers] at hvalue
    exact Layer.builtins_avoids hvalue

end Redex
