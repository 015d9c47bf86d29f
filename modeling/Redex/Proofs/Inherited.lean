import Redex.Proofs.Stepping
import Redex.Proofs.Substitution

/-!
# Properties that application keeps

Application takes values apart and puts them into bodies, and makes nothing of its own but numbers,
Booleans and what these stand in. So it keeps every property that goes from an expression to its
parts and back, also if more is asked of the items of a sequence than of what comes of a call.

* **`Builtin.call_result`** — a built-in procedure gives a number, a Boolean or a pair of numbers.
* **`Expr.Carried`** is such a pair of properties, and **`Expr.Inherited`** one property for both.
* **`Expr.Carried.apply_both`** — substitution keeps them.
* **`Expr.Carried.nativeCall`** — native procedures keep them.
* **`Expr.Carried.applyCall`** — so application keeps them.
-/

namespace Redex

/-! ## Lists of items -/

section Items

variable {R : Expr → Prop} {e : Expr} {items : List Expr}

theorem rebuild_inherits (h : ∀ x ∈ items, R x) : ∀ x ∈ rebuild items, R x :=
  fun x hx => h x (List.mem_filter.mp hx).1

theorem head?_getD_inherits (h : ∀ x ∈ items, R x) (he : R e) : R (items.head?.getD e) := by
  cases items with
  | nil => exact he
  | cons x xs => exact h x List.mem_cons_self

end Items

/-! ## Results of built-in procedures -/

/-- What a built-in procedure gives: a number, a Boolean, or a pair of numbers. -/
inductive Builtin.Result : Expr → Prop where
  | number (x : Float) : Result (.number x)
  | boolean (b : Bool) : Result (.boolean b)
  | pair (x y : Float) : Result (.sequence [.number x, .number y])

theorem MathFunction.eval_result {f : MathFunction} {xs : List Float} {e : Expr}
    (h : f.eval xs = .ok e) : Builtin.Result e := by
  -- one fact for each way in which a function takes its arguments; the rest is a table
  have hunary : ∀ {g : Float → Expr}, (∀ x, Builtin.Result (g x)) →
      Builtin.Result (MathFunction.unary g xs) := by
    intro g hg
    unfold MathFunction.unary
    split
    · exact hg _
    · exact .number _
  have hbinary : ∀ {g : Float → Float → Expr}, (∀ x y, Builtin.Result (g x y)) →
      Builtin.Result (MathFunction.binary g xs) := by
    intro g hg
    unfold MathFunction.binary
    split
    · exact hg _ _
    · exact .number _
  have hunaryInt : ∀ g, Builtin.Result (MathFunction.unaryInt g xs) := by
    intro g
    unfold MathFunction.unaryInt
    split
    · split <;> exact .number _
    · exact .number _
  have hbinaryInt : ∀ g, Builtin.Result (MathFunction.binaryInt g xs) := by
    intro g
    unfold MathFunction.binaryInt
    split
    · split <;> exact .number _
    · exact .number _
  have hanyInts : ∀ g, Builtin.Result (MathFunction.anyInts g xs) := by
    intro g
    unfold MathFunction.anyInts
    split <;> exact .number _
  cases f with
  | log =>
    simp only [MathFunction.eval, MathFunction.logTo] at h
    split at h
    · cases h
      exact .number _
    · split at h
      · cases h
        exact .number _
      · split at h
        · cases h
        · cases h
          exact .number _
    · cases h
      exact .number _
  | perm =>
    simp only [MathFunction.eval] at h
    split at h
    · cases h
      exact hunaryInt _
    · cases h
      exact hbinaryInt _
  | frexp | modf =>
    cases h
    exact hunary fun _ => .pair _ _
  | dist | fsum | prod | hypot =>
    cases h
    exact .number _
  | comb =>
    cases h
    exact hbinaryInt _
  | factorial | isqrt =>
    cases h
    exact hunaryInt _
  | gcd | lcm =>
    cases h
    exact hanyInts _
  | isclose =>
    cases h
    exact hbinary fun _ _ => .boolean _
  | isfinite | isinf | isnan =>
    cases h
    exact hunary fun _ => .boolean _
  | atan2 | copysign | fmod | ldexp | nextafter | pow | remainder =>
    cases h
    exact hbinary fun _ _ => .number _
  | _ =>
    cases h
    exact hunary fun _ => .number _

theorem Builtin.call_result {b : Builtin} {args : List Expr} {e : Expr} (h : b.call args = .ok e) :
    Builtin.Result e := by
  cases b with
  | math f => exact MathFunction.eval_result h
  | add | subtract | multiply | divide =>
    cases h
    exact .number _
  | not =>
    cases h
    cases args with
    | nil => exact .boolean _
    | cons a args => exact .boolean _
  | _ =>
    cases h
    exact .boolean _

/-! ## Properties -/

/-- Two properties that application hands on: `I` is what is asked of the items of a sequence and of
what is bound, and `R` what is known of a result. A result that is left in a sequence is an item. -/
structure Expr.Carried (I R : Expr → Prop) : Prop where
  whole {e : Expr} : I e → R e
  item {e : Expr} : R e → e.isUndefined = false → I e
  number (x : Float) : R (.number x)
  boolean (b : Bool) : R (.boolean b)
  undefined : R .undefined
  sequence {items : List Expr} : R (.sequence items) ↔ ∀ x ∈ items, I x
  construct {tag : String} {fields : List String} {args : List Expr} :
    R (.native (.constructor tag fields)) → (∀ a ∈ args, I a) →
      R (.struct tag (Assoc.ofList (pairArguments fields args)))
  field {tag : String} {fields : List (String × Expr)} :
    R (.struct tag fields) → ∀ f ∈ fields, R f.2
  body {params : Params} {body : Expr} {name : String} : R (.closure params body name) → R body
  closure {params : Params} {body body' : Expr} {name : String} :
    R (.closure params body name) → R body' → R (.closure params body' name)
  answered {e : Expr} : I (.answered e) → I e

/-- A property that goes from an expression to the parts that application takes out of it, and back
to what application makes of them. -/
structure Expr.Inherited (R : Expr → Prop) : Prop where
  number (x : Float) : R (.number x)
  boolean (b : Bool) : R (.boolean b)
  undefined : R .undefined
  sequence {items : List Expr} : R (.sequence items) ↔ ∀ x ∈ items, R x
  struct {tag : String} {fields : List (String × Expr)} :
    R (.struct tag fields) ↔ ∀ f ∈ fields, R f.2
  body {params : Params} {body : Expr} {name : String} : R (.closure params body name) → R body
  closure {params : Params} {body body' : Expr} {name : String} :
    R (.closure params body name) → R body' → R (.closure params body' name)
  answered {e : Expr} : R (.answered e) → R e

theorem pairArguments_names (names : List String) (args : List Expr) :
    Assoc.names (pairArguments names args) = names := by
  induction names generalizing args with
  | nil => rfl
  | cons name names ih =>
    cases args with
    | nil => exact congrArg (name :: ·) (ih [])
    | cons arg args => exact congrArg (name :: ·) (ih args)

theorem pairArguments_mem {I : Expr → Prop} (missing : I (.boolean false)) (names : List String)
    {args : List Expr} (h : ∀ a ∈ args, I a) : ∀ b ∈ pairArguments names args, I b.2 := by
  induction names generalizing args with
  | nil => nofun
  | cons name names ih =>
    cases args with
    | nil => exact List.forall_mem_cons.mpr ⟨missing, ih h⟩
    -- each name takes an argument while there are any
    | cons arg args =>
      have harg := h arg List.mem_cons_self
      have hargs := ih fun a ha => h a (List.mem_cons_of_mem arg ha)
      exact List.forall_mem_cons.mpr ⟨harg, hargs⟩

/-- A property of all parts is one that items and results have alike. -/
theorem Expr.Inherited.carried {R : Expr → Prop} (hR : Inherited R) : Carried R R where
  whole h := h
  item h _ := h
  number := hR.number
  boolean := hR.boolean
  undefined := hR.undefined
  sequence := hR.sequence
  construct _ hargs := hR.struct.mpr fun b hb =>
    pairArguments_mem (hR.boolean false) _ hargs b (Assoc.mem_ofList hb)
  field h := hR.struct.mp h
  body := hR.body
  closure := hR.closure
  answered := hR.answered

namespace Expr.Carried

variable {I R : Expr → Prop} {e : Expr}

/-! ## Substitution -/

theorem arguments (hR : Carried I R) (names : List String) {args : List Expr}
    (h : ∀ a ∈ args, I a) : ∀ b ∈ pairArguments names args, I b.2 :=
  pairArguments_mem (hR.item (hR.boolean false) rfl) names h

theorem hide {σ : Substitution} (names : List String) (h : ∀ b ∈ σ.bindings, I b.2) :
    ∀ b ∈ (σ.hide names).bindings, I b.2 :=
  fun b hb => h b (List.mem_filter.mp hb).1

theorem handedOn (hR : Carried I R) {σ : Substitution} (original : Expr)
    (h : ∀ b ∈ σ.bindings, I b.2) (he : I e) : ∀ x ∈ σ.item original e, I x := by
  unfold Substitution.item
  cases hspliced : σ.spliced? original with
  | none => exact List.forall_mem_cons.mpr ⟨he, nofun⟩
  | some items =>
    -- these are items of what the symbol is bound to
    obtain ⟨name, -, -, hlookup⟩ := Substitution.spliced?_eq_some_iff.mp hspliced
    exact hR.sequence.mp (hR.whole (h _ (Assoc.mem_of_lookup hlookup)))

/-- Substitution keeps both properties if what it puts in is fit for an item. -/
theorem apply_both (hR : Carried I R) (σ : Substitution) (e : Expr) (hσ : ∀ b ∈ σ.bindings, I b.2) :
    (R e → R (σ.apply e)) ∧ (I e → I (σ.apply e)) := by
  -- both functions of the substitution at once, along their own recursion
  refine Substitution.apply.induct
    (fun σ e => (∀ b ∈ σ.bindings, I b.2) → (R e → R (σ.apply e)) ∧ (I e → I (σ.apply e)))
    (fun σ opening items => (∀ b ∈ σ.bindings, I b.2) → (∀ x ∈ items, I x) →
      ∀ x ∈ σ.applyItems opening items, I x)
    ?symbol ?sequence ?closure ?untouched ?answered ?leaf ?nil ?alone ?lambda ?cons σ e hσ
  case symbol =>
    intro σ name hσ
    rw [Substitution.apply]
    cases hlookup : σ.bindings.lookup name with
    | none => exact ⟨fun h => h, fun h => h⟩
    | some value =>
      have hvalue := hσ _ (Assoc.mem_of_lookup hlookup)
      exact ⟨fun _ => hR.whole hvalue, fun _ => hvalue⟩
  case sequence =>
    intro σ items ih hσ
    rw [Substitution.apply]
    have hwhole : R (.sequence items) → R (.sequence (σ.applyItems true items)) :=
      fun h => hR.sequence.mpr (ih hσ (hR.sequence.mp h))
    exact ⟨hwhole, fun h => hR.item (hwhole (hR.whole h)) rfl⟩
  case closure =>
    intro σ params body name ih hσ
    rw [Substitution.apply]
    have hwhole : R (.closure params body name) →
        R (.closure params ((σ.hide params.names).apply body) name) :=
      fun h => hR.closure h ((ih (hide _ hσ)).1 (hR.body h))
    exact ⟨hwhole, fun h => hR.item (hwhole (hR.whole h)) rfl⟩
  case untouched =>
    intro σ e hempty hσ
    rw [Substitution.apply, if_pos hempty]
    exact ⟨fun h => h, fun h => h⟩
  case answered =>
    intro σ e hempty ih hσ
    rw [Substitution.apply, if_neg hempty]
    have hitem : I (.answered e) → I (σ.apply e) := fun h => (ih hσ).2 (hR.answered h)
    exact ⟨fun h => hR.whole (hitem (hR.item h rfl)), hitem⟩
  case leaf =>
    intro σ e hsymbol hsequence hclosure hanswered hσ
    rw [Substitution.apply]
    · exact ⟨fun h => h, fun h => h⟩
    all_goals assumption
  case nil =>
    intro σ opening hσ h
    rw [Substitution.applyItems]
    exact h
  case alone =>
    intro σ opening head hopen ih hσ h
    rw [Substitution.applyItems_singleton]
    exact hR.handedOn head hσ ((ih hσ).2 (h head List.mem_cons_self))
  case lambda =>
    intro σ opening head hopen spec body ih hσ h
    rw [Substitution.applyItems.eq_def]
    simp only [hopen, if_true]
    -- the parameters of a literal `lambda` are kept as they are and hidden in its body
    have hhead := h head List.mem_cons_self
    have hspec := h spec (by simp)
    have hbody := ih (hide _ hσ) fun x hx => h x (by simp [hx])
    exact List.forall_mem_cons.mpr ⟨hhead, List.forall_mem_cons.mpr ⟨hspec, hbody⟩⟩
  case cons =>
    intro σ opening head rest hopen ihhead ihrest hσ h
    rw [Substitution.applyItems_cons (by simpa using hopen)]
    have hhead := hR.handedOn head hσ ((ihhead hσ).2 (h head List.mem_cons_self))
    have hrest := ihrest hσ fun x hx => h x (List.mem_cons_of_mem head hx)
    exact List.forall_mem_append.mpr ⟨hhead, hrest⟩

/-! ## Native procedures -/

theorem builtinCall (hR : Carried I R) {b : Builtin} {args : List Expr} (h : b.call args = .ok e) :
    R e := by
  cases Builtin.call_result h with
  | number x => exact hR.number x
  | boolean b => exact hR.boolean b
  | pair x y =>
    refine hR.sequence.mpr (List.forall_mem_cons.mpr ⟨hR.item (hR.number x) rfl, ?_⟩)
    exact List.forall_mem_singleton.mpr (hR.item (hR.number y) rfl)

/-- A native procedure gives back what it was given, and numbers, Booleans and structs. -/
theorem nativeCall (hR : Carried I R) {p : Native} {args : List Expr} (hp : R (.native p))
    (hargs : ∀ a ∈ args, I a) (h : p.call args = .ok e) : R e := by
  cases p with
  | builtin b => exact hR.builtinCall h
  | constructor tag fields =>
    cases h
    exact hR.construct hp hargs
  | predicate tag =>
    cases h
    exact hR.boolean _
  | accessor tag field =>
    have harg : R (args.head?.getD .undefined) :=
      head?_getD_inherits (fun a ha => hR.whole (hargs a ha)) hR.undefined
    simp only [Native.call, Native.access] at h
    split at h
    · rename_i other fields hstruct
      rw [hstruct] at harg
      split at h
      · split at h
        · rename_i value hlookup
          cases h
          exact hR.field harg _ (Assoc.mem_of_lookup hlookup)
        · cases h
      · cases h
    · cases h

/-- Application keeps the properties if the procedure and its arguments have them. -/
theorem applyCall (hR : Carried I R) {f : Expr} {args : List Expr} (hf : R f)
    (hargs : ∀ a ∈ args, I a) (h : Redex.applyCall f args = .ok e) : R e := by
  cases f with
  | native p => exact hR.nativeCall hf hargs h
  | closure params body name =>
    cases h
    refine (hR.apply_both _ body ?_).1 (hR.body hf)
    cases params with
    | fixed names => exact fun b hb => hR.arguments names hargs b (Assoc.mem_ofList hb)
    | collect rest =>
      exact List.forall_mem_cons.mpr ⟨hR.item (hR.sequence.mpr hargs) rfl, nofun⟩
  | _ => cases h

end Expr.Carried

theorem Expr.Inherited.applyCall {R : Expr → Prop} (hR : Inherited R) {f e : Expr}
    {args : List Expr} (hf : R f) (hargs : ∀ a ∈ args, R a) (h : Redex.applyCall f args = .ok e) :
    R e :=
  hR.carried.applyCall hf hargs h

end Redex
