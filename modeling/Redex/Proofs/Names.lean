import Redex.Proofs.Carried

/-!
# The names in a run

Which names can stand in the programs of a run: those of its source, and those that the language
makes itself. A property of names that the latter have holds all along a run if it holds at its
start.

* **`NameClass`** is a property of names that the language's own names have.
* **`Expr.NamesIn`** says that the symbols and the procedures in an expression have such names, and
  **`Environment.NamesIn`** that everything bound in the layers is of that kind.
* **`Expr.namesIn_stepped`** — application and the forms of the language bring no other names, and
  **`Environment.namesIn_admits`** — struct definitions name their procedures after themselves.
* **`stepProgram_namesIn`** is the step lemma, and **`StepsTo.namesIn`** the run lemma.
-/

namespace Redex

/-- A property that the names of the language's own procedures have. -/
structure NameClass (P : String → Prop) : Prop where
  anonymous : P Expr.anonymous
  builtin (b : Builtin) : P b.name
  constructor (tag : String) (h : P tag) : P ("make-" ++ tag)
  predicate (tag : String) (h : P tag) : P (tag ++ "?")
  accessor (tag field : String) (htag : P tag) (hfield : P field) : P (tag ++ "-" ++ field)

/-- The symbols and the procedures in an expression have names with the property. -/
inductive Expr.NamesIn (P : String → Prop) : Expr → Prop where
  | number (x : Float) : NamesIn P (.number x)
  | text (s : String) : NamesIn P (.text s)
  | boolean (b : Bool) : NamesIn P (.boolean b)
  | symbol {name : String} (h : P name) : NamesIn P (.symbol name)
  | sequence {items : List Expr} (h : ∀ x ∈ items, NamesIn P x) : NamesIn P (.sequence items)
  | native {p : Native} (h : P p.name) : NamesIn P (.native p)
  | closure {params : Params} {body : Expr} {name : String} (h : P name) (hbody : NamesIn P body) :
      NamesIn P (.closure params body name)
  | struct {tag : String} {fields : List (String × Expr)} (h : ∀ f ∈ fields, NamesIn P f.2) :
      NamesIn P (.struct tag fields)
  | quoted {e : Expr} (h : NamesIn P e) : NamesIn P (.quoted e)
  | answered {e : Expr} (h : NamesIn P e) : NamesIn P (.answered e)
  | undefined : NamesIn P .undefined
  | absent : NamesIn P .absent

open Redex.Expr (NamesIn)

/-- Everything bound in the layers is of that kind. -/
structure Environment.NamesIn (P : String → Prop) (env : Environment) : Prop where
  user : ∀ b ∈ env.user.bindings, Expr.NamesIn P b.2
  builtins : ∀ b ∈ env.builtins.bindings, Expr.NamesIn P b.2

variable {P : String → Prop} {env env' : Environment} {e : Expr} {program program' : Program}

theorem Expr.NamesIn.name {name : String} (h : NamesIn P (.symbol name)) : P name := by
  cases h with
  | symbol h => exact h

/-! ## Application and special forms -/

/-- Application brings no other names than those of the procedure and its arguments. -/
theorem Expr.namesIn_inherited (P : String → Prop) : Expr.Inherited (Expr.NamesIn P) where
  number := .number
  boolean := .boolean
  undefined := .undefined
  sequence := by
    refine ⟨?_, .sequence⟩
    rintro ⟨⟩
    assumption
  struct := by
    refine ⟨?_, .struct⟩
    rintro ⟨⟩
    assumption
  body := by
    rintro _ _ _ ⟨⟩
    assumption
  closure := by
    rintro _ _ _ _ ⟨⟩ hbody
    exact .closure (by assumption) hbody
  answered := by
    rintro _ ⟨⟩
    assumption

theorem Expr.namesIn_stepped (hP : NameClass P) :
    Expr.Stepped (Expr.NamesIn P) (Expr.NamesIn P) where
  toCarried := (Expr.namesIn_inherited P).carried
  anonymous hbody := .closure hP.anonymous hbody
  function hname hbody := .closure hname.name hbody

theorem structProcedures_namesIn (hP : NameClass P) {tag : String} {fields : List String}
    (htag : P tag) (hfields : ∀ field ∈ fields, P field) :
    ∀ b ∈ structProcedures tag fields, NamesIn P b.2 := by
  intro b hb
  have hb := Assoc.mem_ofList hb
  obtain ⟨p, hp, rfl⟩ := List.mem_map.mp hb
  refine .native ?_
  rcases List.mem_cons.mp hp with rfl | hp
  · exact hP.constructor tag htag
  · rcases List.mem_cons.mp hp with rfl | hp
    · exact hP.predicate tag htag
    · obtain ⟨field, hfield, rfl⟩ := List.mem_map.mp hp
      exact hP.accessor tag field htag (hfields field hfield)

theorem Environment.namesIn_admits (hP : NameClass P) (env env' : Environment) :
    env.Admits (Expr.NamesIn P) env' :=
  fun _ _ _ htag hfields =>
    structProcedures_namesIn hP htag.name fun field hfield => (hfields field hfield).name

/-! ## Layers -/

theorem Environment.NamesIn.carries (h : env.NamesIn P) : env.Carries (Expr.NamesIn P) :=
  ⟨h.user, h.builtins⟩

theorem Environment.NamesIn.get? (h : env.NamesIn P) {name : String}
    (hget : env.get? name = some e) : Expr.NamesIn P e :=
  h.carries.get? hget

/-! ## Runs -/

theorem stepProgram_namesIn (hP : NameClass P) {stepped : Bool} (henv : env.NamesIn P)
    (hprogram : ∀ e ∈ program, NamesIn P e)
    (h : (stepProgram .standard program).exec env = (.ok (stepped, program'), env')) :
    (∀ e ∈ program', NamesIn P e) ∧ env'.NamesIn P := by
  obtain ⟨hnext, henv'⟩ := stepProgram_carried (Expr.namesIn_stepped hP)
    (Environment.namesIn_admits hP env env') (.inl .undefined) henv.carries hprogram h
  exact ⟨hnext, henv'.user, henv'.builtins⟩

theorem StepsTo.namesIn (hP : NameClass P) {n : Nat} (h : StepsTo n program env program' env')
    (henv : env.NamesIn P) (hprogram : ∀ e ∈ program, NamesIn P e) :
    (∀ e ∈ program', NamesIn P e) ∧ env'.NamesIn P := by
  obtain ⟨hlast, henv'⟩ := h.carried (Expr.namesIn_stepped hP) (Environment.namesIn_admits hP)
    (.inl .undefined) henv.carries hprogram
  exact ⟨hlast, henv'.user, henv'.builtins⟩

end Redex
