import Redex.Proofs.Records
import Redex.Proofs.SameBindings
import Redex.Proofs.TopLevel

/-!
# The order of definitions

A definition binds its value as it is written: it evaluates nothing and looks nothing up. So
definitions of different names may stand in any order.

* **`Expr.Binds`** — a form is a definition of the given names.
* **`InTurn.of_defines`** — definitions leave no values behind, and the bindings of all of them.
* **`Expr.Binds.defines_all`** — definitions of different names bind no name twice.
* **`definition_order`** — so what is bound in the end does not depend on their order, nor does what
  is evaluated behind them.
-/

namespace Redex

variable {env : Environment} {e : Expr} {names : List String} {pairs : List (String × Expr)}
variable {forms forms' : List Expr} {pairss : List (List (String × Expr))}

/-- The form is a well-formed definition, and the names are those that it binds. -/
inductive Expr.Binds : Expr → List String → Prop where
  | define {args : List Expr} {name : String} {value : Expr}
      (parts : SpecialForm.definition args = .ok (name, value)) :
      Binds (.sequence (.symbol "define" :: args)) [name]
  | defineStruct {args : List Expr} {tag : String} {fields : List String}
      (parts : SpecialForm.structDefinition args = .ok (tag, fields)) :
      Binds (.sequence (.symbol "define-struct" :: args)) (structNames tag fields)

/-- A definition binds each of its names once. -/
theorem Expr.Binds.defines (h : e.Binds names) :
    ∃ pairs, Defines e pairs ∧ (Assoc.names pairs).Nodup ∧
      ∀ name, name ∈ Assoc.names pairs ↔ name ∈ names := by
  cases h with
  | define parts => exact ⟨_, .define parts, List.nodup_singleton _, fun _ => Iff.rfl⟩
  | defineStruct parts =>
    exact ⟨_, .defineStruct parts, Assoc.nodup_ofList _, fun _ => mem_names_structProcedures⟩

/-- Definitions of different names bind no name twice. -/
theorem Expr.Binds.defines_all {namess : List (List String)}
    (h : List.Forall₂ Expr.Binds forms namess) (apart : namess.Pairwise List.Disjoint) :
    ∃ pairss, List.Forall₂ Defines forms pairss ∧ (Assoc.names pairss.flatten).Nodup ∧
      ∀ name, name ∈ Assoc.names pairss.flatten ↔ name ∈ namess.flatten := by
  induction h with
  | nil => exact ⟨[], .nil, List.nodup_nil, fun _ => Iff.rfl⟩
  | @cons form names forms namess hform hforms ih =>
    obtain ⟨hnames, apart⟩ := List.pairwise_cons.mp apart
    obtain ⟨pairs, hdefines, hnodup, hmem⟩ := hform.defines
    obtain ⟨pairss, hall, hnodups, hmems⟩ := ih apart
    have hsplit : Assoc.names (pairs :: pairss).flatten =
        Assoc.names pairs ++ Assoc.names pairss.flatten := List.map_append
    refine ⟨pairs :: pairss, .cons hdefines hall, ?_, ?_⟩
    · rw [hsplit]
      refine hnodup.append hnodups ?_
      intro name hname hother
      obtain ⟨others, hothers, hother⟩ := List.mem_flatten.mp ((hmems name).mp hother)
      exact hnames others hothers ((hmem name).mp hname) hother
    · intro name
      rw [hsplit, List.mem_append, hmem, hmems, List.flatten_cons, List.mem_append]

/-! ## Runs of definitions -/

theorem Environment.bindAll_append (env : Environment) (pairs more : List (String × Expr)) :
    env.bindAll (pairs ++ more) = (env.bindAll pairs).bindAll more := by
  simp only [Environment.bindAll, Layer.bindAll, Assoc.insertAll, List.foldl_append]

/-- Evaluating a definition makes its bindings and leaves no value behind. -/
theorem Defines.ends (h : Defines e pairs) (free : env.user.frozen = false) :
    Ends Expr.round e env (.ok .undefined) (env.bindAll pairs) := by
  have hstill : Expr.undefined.round.exec (env.bindAll pairs) =
      (.ok (false, .undefined), env.bindAll pairs) := rfl
  exact .step (Expr.round_ok_iff.mpr (h.step_eq free)) (.still hstill)

/-- Definitions in turn leave no values behind, and the bindings of all of them. -/
theorem InTurn.of_defines (h : List.Forall₂ Defines forms pairss) (free : env.user.frozen = false) :
    InTurn env forms (List.replicate forms.length .undefined) (env.bindAll pairss.flatten) := by
  induction h generalizing env with
  | nil => exact .nil env
  | cons hform hforms ih =>
    rw [List.flatten_cons, Environment.bindAll_append]
    exact .cons (Expr.evaluates_iff.mpr (hform.ends free)) (ih free)

/-- A program of definitions comes to the program without forms. -/
theorem Defines.evaluates_all (h : List.Forall₂ Defines forms pairss)
    (free : env.user.frozen = false) :
    Program.Evaluates forms env (.ok []) (env.bindAll pairss.flatten) := by
  have hnone : rebuild (List.replicate forms.length Expr.undefined) = [] := by
    simp [rebuild, Expr.isUndefined]
  have hends := (InTurn.of_defines h free).ends fun v hv => by
    rw [List.eq_of_mem_replicate (List.mem_of_mem_dropLast hv)]
    rfl
  rw [hnone] at hends
  exact Program.evaluates_iff.mpr hends

/-! ## Permutations -/

/-- Bindings of different names may be made in any order. -/
theorem Environment.SameBindings.of_perm {pairs' : List (String × Expr)}
    (distinct : (Assoc.names pairs).Nodup) (perm : pairs.Perm pairs') :
    (env.bindAll pairs).SameBindings (env.bindAll pairs') where
  builtins := rfl
  frozen := rfl
  user name := Assoc.lookup_insertAll_perm distinct perm name

/-- Definitions whose names do not meet may stand in any order: the program comes to the program
without forms, and the layer that it leaves binds the same names to the same values. So what is
evaluated behind them comes to the same, if it comes to anything. -/
theorem definition_order (env : Environment) {forms forms' : List Expr}
    {namess : List (List String)} (definitions : List.Forall₂ Expr.Binds forms namess)
    (apart : namess.Pairwise List.Disjoint) (perm : forms.Perm forms')
    (free : env.user.frozen = false) :
    ∃ env₁ env₂, Program.Evaluates forms env (.ok []) env₁ ∧
      Program.Evaluates forms' env (.ok []) env₂ ∧ env₁.SameBindings env₂ ∧
      (∀ (later : Program) outcome, (∃ env₃, later.Evaluates env₁ outcome env₃) ↔
        ∃ env₃, later.Evaluates env₂ outcome env₃) ∧
      ∀ (later : Expr) outcome, (∃ env₃, later.Evaluates env₁ outcome env₃) ↔
        ∃ env₃, later.Evaluates env₂ outcome env₃ := by
  obtain ⟨pairss, hdefines, hdistinct, -⟩ := Expr.Binds.defines_all definitions apart
  -- the bindings are permuted as the forms are
  obtain ⟨pairss', hdefines', hperm⟩ := List.perm_comp_forall₂ perm.symm hdefines
  have hsame : (env.bindAll pairss.flatten).SameBindings (env.bindAll pairss'.flatten) :=
    .of_perm hdistinct hperm.symm.flatten
  exact ⟨_, _, Defines.evaluates_all hdefines free, Defines.evaluates_all hdefines' free, hsame,
    evaluates_sameBindings_iff hsame, exprEvaluates_sameBindings_iff hsame⟩

/-- `(define (f . xs) (g xs))`, `(define-struct p (x y))` and `(define g (p-x f))` in two orders: the
body and the value are bound as they are written, whatever is bound to `g`, `p-x` and `f` by
then. -/
theorem definition_order_later_names :
    let procedure := Expr.sequence [.symbol "define",
      .sequence [.symbol "f", .symbol ".", .symbol "xs"], .sequence [.symbol "g", .symbol "xs"]]
    let struct := Expr.sequence [.symbol "define-struct", .symbol "p",
      .sequence [.symbol "x", .symbol "y"]]
    let value := Expr.sequence [.symbol "define", .symbol "g",
      .sequence [.symbol "p-x", .symbol "f"]]
    ∃ env₁ env₂, Program.Evaluates [procedure, struct, value] .fresh (.ok []) env₁ ∧
      Program.Evaluates [value, struct, procedure] .fresh (.ok []) env₂ ∧
      env₁.SameBindings env₂ ∧
      (∀ (later : Program) outcome, (∃ env₃, later.Evaluates env₁ outcome env₃) ↔
        ∃ env₃, later.Evaluates env₂ outcome env₃) ∧
      ∀ (later : Expr) outcome, (∃ env₃, later.Evaluates env₁ outcome env₃) ↔
        ∃ env₃, later.Evaluates env₂ outcome env₃ := by
  intro procedure struct value
  have hprocedure : procedure.Binds ["f"] := .define rfl
  have hstruct : struct.Binds (structNames "p" ["x", "y"]) := .defineStruct rfl
  have hvalue : value.Binds ["g"] := .define rfl
  have happart : [["f"], structNames "p" ["x", "y"], ["g"]].Pairwise List.Disjoint := by
    simp [structNames]
  have hperm : [procedure, struct, value].Perm [value, struct, procedure] :=
    List.reverse_perm [value, struct, procedure]
  exact definition_order .fresh (.cons hprocedure (.cons hstruct (.cons hvalue .nil))) happart hperm
    rfl

/-- Of two definitions of one name the later one counts. -/
example :
    let yes := Expr.sequence [.symbol "define", .symbol "x", .boolean true]
    let no := Expr.sequence [.symbol "define", .symbol "x", .boolean false]
    (evaluate .standard 4 [no, yes, .symbol "x"] .fresh).map Run.outcome =
        some (.ok [.boolean true]) ∧
      (evaluate .standard 4 [yes, no, .symbol "x"] .fresh).map Run.outcome =
        some (.ok [.boolean false]) :=
  ⟨rfl, rfl⟩

end Redex
