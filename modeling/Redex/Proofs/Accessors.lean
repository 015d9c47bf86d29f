import Redex.Interpreter.Basic
import Redex.Proofs.Reading
import Redex.Proofs.TopLevel

/-!
# Accessors of structs

An accessor knows a struct by its tag alone. The definition that made the accessor may have been
followed or preceded by others of the same tag, so the field that it asks for need not be there. It
always is, as long as every constructor of the tag that was bound on the way sets the field.

* **`Native.Accesses`** says that the accessor gives the field or reports a mismatch.
* **`InLayer`** is a program under way in a user layer into which programs are entered one after the
  other.
* **`Expr.Fielded`** says that all structs and constructors of the tag have the field, and
  **`InLayer.fielded`** — programs keep it while the bound constructors do.
* **`accessor_iff`** — exactly then the accessor is safe for all that the layer can produce.
-/

namespace Redex

variable {env env' : Environment} {e v : Expr} {items : List Expr} {program : Program}
variable {tag field : String}

/-! ## Calls of accessors -/

/-- The accessor gives the field of the struct, or reports that it was given something else. -/
def Native.Accesses (tag field : String) (v : Expr) : Prop :=
  (∃ fields value, v = .struct tag fields ∧ fields.lookup field = some value ∧
    (Native.accessor tag field).call [v] = .ok value) ∨
  ∃ err, (∀ fields, v ≠ .struct tag fields) ∧ (Native.accessor tag field).call [v] = .error err ∧
    err.kind = .mismatch ∧ err.mismatch? = some (tag, v) ∧ err.isReported = true

theorem Native.access_struct {fields : List (String × Expr)} {value : Expr}
    (h : fields.lookup field = some value) :
    (Native.accessor tag field).call [.struct tag fields] = .ok value := by
  simp [Native.call, Native.access, h]

theorem Native.access_other (h : ∀ fields, v ≠ .struct tag fields) :
    (Native.accessor tag field).call [v] = .error (.notStruct tag field v) := by
  cases v with
  | struct other fields =>
    have hne : (other == tag) = false := by
      refine beq_eq_false_iff_ne.mpr ?_
      rintro rfl
      exact h fields rfl
    simp [Native.call, Native.access, hne]
  | _ => rfl

/-- The one thing that goes wrong with an accessor is a struct of its tag without the field. -/
theorem Native.accesses_iff :
    Accesses tag field v ↔ ∀ fields, v = .struct tag fields → (fields.lookup field).isSome = true := by
  constructor
  · rintro (⟨fields, value, rfl, hfound, -⟩ | ⟨err, hother, -⟩) others hv
    · cases hv
      rw [hfound]
      rfl
    · exact absurd hv (hother others)
  · intro h
    by_cases hstruct : ∃ fields, v = .struct tag fields
    · obtain ⟨fields, rfl⟩ := hstruct
      obtain ⟨value, hfound⟩ := Option.isSome_iff_exists.mp (h fields rfl)
      exact Or.inl ⟨fields, value, rfl, hfound, Native.access_struct hfound⟩
    · have hother : ∀ fields, v ≠ .struct tag fields := fun fields hv => hstruct ⟨fields, hv⟩
      exact Or.inr ⟨_, hother, Native.access_other hother, rfl, rfl, rfl⟩

/-! ## Constructors that set a field -/

/-- Every constructor of the tag that is bound sets the field. -/
def Environment.Covers (tag field : String) (env : Environment) : Prop :=
  ∀ name fields, env.get? name = some (.native (.constructor tag fields)) → field ∈ fields

/-- Every struct of the tag in the expression has the field, and every constructor of the tag sets
it. Quoted expressions are never opened. -/
inductive Expr.Fielded (tag field : String) : Expr → Prop where
  | number (x : Float) : Fielded tag field (.number x)
  | text (s : String) : Fielded tag field (.text s)
  | boolean (b : Bool) : Fielded tag field (.boolean b)
  | symbol (name : String) : Fielded tag field (.symbol name)
  | sequence {items : List Expr} (h : ∀ x ∈ items, Fielded tag field x) :
      Fielded tag field (.sequence items)
  | native {p : Native} (sets : ∀ fields, p = .constructor tag fields → field ∈ fields) :
      Fielded tag field (.native p)
  | closure {params : Params} {body : Expr} {name : String} (h : Fielded tag field body) :
      Fielded tag field (.closure params body name)
  | struct {other : String} {fields : List (String × Expr)}
      (has : other = tag → (fields.lookup field).isSome = true)
      (h : ∀ f ∈ fields, Fielded tag field f.2) : Fielded tag field (.struct other fields)
  | quoted (e : Expr) : Fielded tag field (.quoted e)
  | answered {e : Expr} (h : Fielded tag field e) : Fielded tag field (.answered e)
  | undefined : Fielded tag field .undefined
  | absent : Fielded tag field .absent

theorem Expr.Written.fielded {P : String → Prop} (h : Written P e) : e.Fielded tag field := by
  induction h with
  | number x => exact .number x
  | text s => exact .text s
  | boolean b => exact .boolean b
  | symbol h => exact .symbol _
  | sequence h ih => exact .sequence ih

theorem Expr.Fielded.accesses (h : v.Fielded tag field) : Native.Accesses tag field v := by
  refine Native.accesses_iff.mpr ?_
  rintro fields rfl
  cases h with
  | struct has h => exact has rfl

/-- A struct has the fields that its constructor was made with. -/
theorem isSome_lookup_construct {fields : List String} {args : List Expr} :
    ((Assoc.ofList (pairArguments fields args)).lookup field).isSome = true ↔ field ∈ fields := by
  rw [Assoc.isSome_lookup, Assoc.mem_names_ofList, pairArguments_names]

theorem Expr.fielded_stepped (tag field : String) :
    Expr.Stepped (Expr.Fielded tag field) (Expr.Fielded tag field) where
  whole h := h
  item h _ := h
  number := .number
  boolean := .boolean
  undefined := .undefined
  sequence := by
    refine ⟨?_, .sequence⟩
    rintro ⟨⟩
    assumption
  construct := by
    rintro other fields args ⟨⟩ hargs
    rename_i sets
    refine .struct ?_ fun b hb =>
      pairArguments_mem (.boolean false) _ hargs b (Assoc.mem_ofList hb)
    rintro rfl
    exact isSome_lookup_construct.mpr (sets fields rfl)
  field := by
    rintro _ _ ⟨⟩
    assumption
  body := by
    rintro _ _ _ ⟨⟩
    assumption
  closure _ hbody := .closure hbody
  answered := by
    rintro _ ⟨⟩
    assumption
  anonymous hbody := .closure hbody
  function _ hbody := .closure hbody

/-! ## Layers -/

/-- What a struct definition binds is found behind it. -/
theorem Environment.get?_structProcedures {fields : List String} {name : String} {p : Native}
    (h : (name, .native p) ∈ structProcedures tag fields) :
    (env.bindAll (structProcedures tag fields)).get? name = some (.native p) := by
  have hfound : (env.user.bindAll (structProcedures tag fields)).get? name = some (.native p) :=
    Assoc.lookup_insertAll_of_mem (Assoc.nodup_ofList _) h
  unfold Environment.get? lookupIn
  simp [Environment.layers, Environment.bindAll, hfound, Expr.isAbsent]

/-- A struct definition binds no constructor of the tag that does not set the field, if none is
bound behind it. -/
theorem Environment.Covers.admits (h : env'.Covers tag field) :
    env.Admits (Expr.Fielded tag field) env' := by
  rintro other fields rfl - - ⟨name, value⟩ hb
  obtain ⟨p, -, hp⟩ := List.mem_map.mp (Assoc.mem_ofList hb)
  cases hp
  refine .native fun set hset => ?_
  rw [hset] at hb
  exact h _ set (Environment.get?_structProcedures hb)

/-- A program under way in one user layer, with the layer as it is then. The layer starts empty,
programs are entered into it one after the other, and each is stepped as long as someone likes;
nothing is followed that makes a layer other than those allowed. -/
inductive InLayer (allowed : Environment → Prop) : Program → Environment → Prop where
  | fresh (h : allowed .fresh) : InLayer allowed [] .fresh
  | entered {program forms : Program} {env : Environment} (h : InLayer allowed program env)
      (written : ∀ e ∈ forms, e.Written fun _ => True) : InLayer allowed forms env
  | stepped {program next : Program} {env env' : Environment} {counted : Bool}
      (h : InLayer allowed program env)
      (step : (stepProgram .standard program).exec env = (.ok (counted, next), env'))
      (within : allowed env') : InLayer allowed next env'

variable {allowed : Environment → Prop}

theorem InLayer.isAllowed (h : InLayer allowed program env) : allowed env := by
  induction h with
  | fresh h => exact h
  | entered h written ih => exact ih
  | stepped h step within ih => exact within

/-- While the bound constructors of the tag set the field, all structs of the tag have it. -/
theorem InLayer.fielded
    (covers : ∀ program env, InLayer allowed program env → env.Covers tag field)
    (h : InLayer allowed program env) :
    (∀ e ∈ program, e.Fielded tag field) ∧ env.Carries (Expr.Fielded tag field) := by
  induction h with
  | fresh h => exact ⟨nofun, Environment.fresh_carries fun b => .native nofun⟩
  | entered h written ih => exact ⟨fun e he => (written e he).fielded, ih.2⟩
  | stepped h step within ih =>
    have hcovers := covers _ _ (h.stepped step within)
    exact stepProgram_carried (Expr.fielded_stepped tag field) hcovers.admits (.inl .undefined)
      ih.2 ih.1 step

/-- The struct without values that a constructor makes, by way of `(apply name ())`. -/
theorem InLayer.construct {name : String} {fields : List String} (h : InLayer allowed program env)
    (hget : env.get? name = some (.native (.constructor tag fields))) :
    InLayer allowed [.struct tag (Assoc.ofList (pairArguments fields []))] env := by
  have hwritten : ∀ e ∈ [Expr.sequence [.symbol "apply", .symbol name, .sequence []]],
      e.Written fun _ => True := by
    intro e he
    rw [List.mem_singleton.mp he]
    refine .sequence fun x hx => ?_
    simp only [List.mem_cons, List.not_mem_nil, or_false] at hx
    rcases hx with rfl | rfl | rfl
    · exact .symbol trivial
    · exact .symbol trivial
    · exact .sequence nofun
  -- the function is looked up and nothing is spread, then the call is applied
  have hfunction : (step .standard (.symbol name)).exec env =
      (.ok ⟨false, .native (.constructor tag fields)⟩, env) := by
    rw [step_of_unchanged (expand_leaf (fun _ => Expr.noConfusion) env), reduce, hget]
    rfl
  have hnothing : (step .standard (.sequence [])).exec env = (.ok ⟨false, .sequence []⟩, env) := rfl
  have hspread : (step .standard (.sequence [.symbol "apply", .symbol name, .sequence []])).exec env =
      (.ok ⟨true, .sequence [.native (.constructor tag fields)]⟩, env) := by
    have rule : Rule (fun _ _ => True) (fun _ _ _ _ => True) .expansion env
        (.sequence (.symbol "apply" :: .symbol name :: ([] ++ [.sequence []])))
        (.sequence (.native (.constructor tag fields) :: ([] ++ []))) env :=
      .applyCall hfunction rfl hnothing
    exact step_of_visible rule.expand_eq
  have hcall : (step .standard (.sequence [.native (.constructor tag fields)])).exec env =
      (.ok ⟨true, .struct tag (Assoc.ofList (pairArguments fields []))⟩, env) := rfl
  have hsecond := (h.entered hwritten).stepped (stepProgram_cons_moved hspread []) h.isAllowed
  exact hsecond.stepped (stepProgram_cons_moved hcall []) h.isAllowed

/-- In a user layer that becomes only what is allowed, an accessor can be applied to everything that
stands in a program under way, and gives the field or reports a mismatch, if and only if every
constructor of its tag that is bound on the way sets the field. -/
theorem accessor_iff (allowed : Environment → Prop) (tag field : String) :
    (∀ program env, InLayer allowed program env →
      ∀ (C : Context) (v : Expr), C.fill v ∈ program → Native.Accesses tag field v) ↔
      ∀ program env, InLayer allowed program env → env.Covers tag field := by
  constructor
  · intro haccess program env h name fields hget
    have hmade := haccess _ _ (h.construct hget) .hole _ (List.mem_singleton.mpr rfl)
    exact isSome_lookup_construct.mp (Native.accesses_iff.mp hmade _ rfl)
  · intro covers program env h C v hv
    have hwhole := (h.fielded covers).1 _ hv
    exact ((Expr.fielded_stepped tag field).of_fill hwhole).accesses

/-- The field without which a run ends in a failure that is not reported. -/
def Interpreting.missingField? (budget : Nat) (definitions expression : String) : Option String :=
  match (run budget definitions expression).exec (.initial false) with
  | some (.error (.missingField field), _) => some field
  | _ => none

theorem Interpreting.missingField?_eq_some {budget : Nat} {definitions expression : String}
    (h : missingField? budget definitions expression = some field) :
    ∃ interp, (run budget definitions expression).exec (.initial false) =
      some (.error (.missingField field), interp) := by
  unfold missingField? at h
  split at h
  · rename_i interp hrun
    cases h
    exact ⟨interp, hrun⟩
  · cases h

/-- A second definition of `p` without the field `x` leaves the accessor of `x` in the layer, and the
constructor that it makes gives structs without the field: the run of `(p-x (make-p #t))` fails, and
the failure is not reported. -/
theorem accessor_escapes :
    (∃ interp, (Interpreting.run 9 "(define-struct p (x)) (define-struct p (y))"
      "(p-x (make-p #t))").exec (.initial false) = some (.error (.missingField "x"), interp)) ∧
    (Error.missingField "x").isReported = false ∧
    ¬ Native.Accesses "p" "x" (.struct "p" [("y", .boolean true)]) := by
  refine ⟨Interpreting.missingField?_eq_some (by decide +kernel), rfl, ?_⟩
  intro haccess
  cases Native.accesses_iff.mp haccess _ rfl

end Redex
