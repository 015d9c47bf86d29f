import Mathlib.Data.Set.Finite.Lattice
import Redex.Proofs.Unmentioned

/-!
# Layers with the same bindings

Bindings stand in a layer in the order in which they were made, but stepping only looks names up. So
two environments with the same bindings are the same for every run.

* **`Environment.SameBindings`** — the layers bind the same names to the same values.
* **`Expr.finite_names`** — only finitely many names stand in an expression, so there is always a name
  that stands nowhere, and environments with the same bindings are alike but for that name.
* **`Ends.sameBindings`** — what is true of all names but one, for two choices of the one, is true of
  all names: a run comes to the same end.
* **`evaluates_sameBindings`** and **`exprEvaluates_sameBindings`** — the two evaluations do so, and
  leave environments with the same bindings.
-/

namespace Redex

/-- The layers bind the same names to the same values, in any order. -/
structure Environment.SameBindings (env env' : Environment) : Prop where
  builtins : env'.builtins = env.builtins
  frozen : env'.user.frozen = env.user.frozen
  user : ∀ name, env'.user.get? name = env.user.get? name

open Environment (Alike SameBindings)
open Stepping (Blind)

variable {env env' env₁ : Environment} {z : String}

theorem Environment.SameBindings.symm (h : SameBindings env env') : SameBindings env' env :=
  ⟨h.builtins.symm, h.frozen.symm, fun name => (h.user name).symm⟩

/-! ## Names that stand nowhere -/

theorem finite_not_all {α : Type} {P : String → α → Prop} {xs : List α}
    (h : ∀ x ∈ xs, {z | ¬ P z x}.Finite) : {z | ¬ ∀ x ∈ xs, P z x}.Finite := by
  refine (Set.Finite.biUnion xs.finite_toSet h).subset ?_
  intro z hz
  obtain ⟨x, hx, hz⟩ : ∃ x ∈ xs, ¬ P z x := by simpa using hz
  exact Set.mem_biUnion hx hz

theorem finite_of_all {P : String → Prop} (h : ∀ z, P z) : {z | ¬ P z}.Finite :=
  Set.finite_empty.subset fun z hz => hz (h z)

/-- Only finitely many names stand in an expression. -/
theorem Expr.finite_names : ∀ e : Expr, {z | ¬ e.Avoids z}.Finite
  | .number x => finite_of_all fun _ => .number x
  | .text s => finite_of_all fun _ => .text s
  | .boolean b => finite_of_all fun _ => .boolean b
  | .symbol name => by
    refine (Set.finite_singleton name).subset fun z hz => ?_
    by_contra hne
    exact hz (.symbol fun heq => hne heq.symm)
  | .sequence items => by
    have hitems := finite_not_all fun x (hx : x ∈ items) => finite_names x
    exact hitems.subset fun z hz hall => hz (.sequence hall)
  | .native p => finite_of_all fun _ => .native p
  | .closure params body _ => by
    refine (params.names.finite_toSet.union (finite_names body)).subset fun z hz => ?_
    by_contra hneither
    obtain ⟨hparams, hbody⟩ := not_or.mp hneither
    exact hz (.closure hparams (not_not.mp hbody))
  | .struct _ fields => by
    have hfields := finite_not_all fun f (hf : f ∈ fields) => finite_names f.2
    exact hfields.subset fun z hz hall => hz (.struct hall)
  | .quoted e => (finite_names e).subset fun _ hz he => hz (.quoted he)
  | .answered e => (finite_names e).subset fun _ hz he => hz (.answered he)
  | .undefined => finite_of_all fun _ => .undefined
  | .absent => finite_of_all fun _ => .absent
termination_by e => sizeOf e
decreasing_by
  all_goals simp_wf
  · have hlt := List.sizeOf_lt_of_mem hx
    omega
  · omega
  · have hlt := List.sizeOf_lt_of_mem hf
    have hvalue : sizeOf f = 1 + sizeOf f.1 + sizeOf f.2 := rfl
    omega

/-- Some name stands neither in what is bound nor where one likes, finitely many names apart. -/
theorem exists_unmentioned (env : Environment) {S : Set String} (hS : S.Finite) :
    ∃ z, z ∉ S ∧ ∀ name value, lookupIn env.layers name = some value → value.Avoids z := by
  have hbound : ∀ layer : Layer, {z | ¬ ∀ b ∈ layer.bindings, b.2.Avoids z}.Finite :=
    fun layer => finite_not_all fun b _ => b.2.finite_names
  obtain ⟨z, hz⟩ := (hS.union ((hbound env.user).union (hbound env.builtins))).exists_notMem
  simp only [Set.mem_union, Set.mem_ofPred_eq, not_or, not_not] at hz
  obtain ⟨hfresh, huser, hbuiltins⟩ := hz
  refine ⟨z, hfresh, ?_⟩
  intro name value hvalue
  rw [lookupIn_layers] at hvalue
  rcases Option.or_eq_some_iff.mp hvalue with h | ⟨-, h⟩
  · exact huser _ (Assoc.mem_of_lookup h)
  · exact hbuiltins _ (Assoc.mem_of_lookup h)

theorem Environment.SameBindings.alike (h : SameBindings env env')
    (unmentioned : ∀ name value, lookupIn env.layers name = some value → value.Avoids z) :
    Alike z env env' :=
  ⟨h.builtins, h.frozen, fun name _ => h.user name, fun name value _ => unmentioned name value⟩

/-- What agrees on all names but one, for two choices of the one, agrees on all names. -/
theorem Environment.SameBindings.of_alike {z' : String} (hne : z' ≠ z) (h : Alike z env env')
    (h' : Alike z' env env') : SameBindings env env' := by
  refine ⟨h.builtins, h.frozen, ?_⟩
  intro name
  by_cases hname : name = z
  · exact h'.user name fun heq => hne (heq.symm.trans hname)
  · exact h.user name hname

/-! ## Runs -/

/-- A computation that is blind to a name does the same in environments that are alike but for it. -/
theorem Stepping.Blind.exec_eq {α : Type} {Q : α → Prop} {m : Stepping α} (h : Blind z Q m)
    {result : Except Error α} (hexec : m.exec env = (result, env₁)) (henv : Alike z env env') :
    ∃ env₁', m.exec env' = (result, env₁') ∧ Alike z env₁ env₁' ∧ ∀ a, result = .ok a → Q a := by
  obtain ⟨hsame, hleft, hresult⟩ := h env env' henv
  rw [hexec] at hsame hleft hresult
  exact ⟨(m.exec env').2, Prod.ext hsame rfl, hleft, hresult⟩

section Runs

variable {α : Type} {next : α → Stepping (Bool × α)} {a : α} {outcome : Except Error α}

/-- A run whose rounds do not come upon a name ends alike in environments that are alike but for the
name. -/
theorem Ends.alike {Q : α → Prop} (blind : ∀ a, Q a → Blind z (fun r => Q r.2) (next a))
    (h : Ends next a env outcome env₁) (ha : Q a) (henv : Alike z env env') :
    ∃ env₁', Ends next a env' outcome env₁' ∧ Alike z env₁ env₁' := by
  induction h generalizing env' with
  | failed round =>
    obtain ⟨env₁', hround, hleft, -⟩ := (blind _ ha).exec_eq round henv
    exact ⟨env₁', .failed hround, hleft⟩
  | still round =>
    obtain ⟨env₁', hround, hleft, -⟩ := (blind _ ha).exec_eq round henv
    exact ⟨env₁', .still hround, hleft⟩
  | step round rest ih =>
    obtain ⟨env₂', hround, hleft, hresult⟩ := (blind _ ha).exec_eq round henv
    obtain ⟨env₁', hends, hend⟩ := ih (hresult _ rfl) hleft
    exact ⟨env₁', .step hround hends, hend⟩

/-- A run in environments with the same bindings comes to the same end. -/
theorem Ends.sameBindings {Q : String → α → Prop}
    (blind : ∀ z a, Q z a → Blind z (fun r => Q z r.2) (next a)) (finite : {z | ¬ Q z a}.Finite)
    (h : Ends next a env outcome env₁) (henv : SameBindings env env') :
    ∃ env₁', Ends next a env' outcome env₁' ∧ SameBindings env₁ env₁' := by
  obtain ⟨z, hz, hbound⟩ := exists_unmentioned env finite
  obtain ⟨z', hz', hbound'⟩ := exists_unmentioned env (finite.insert z)
  obtain ⟨hne, hz'⟩ := not_or.mp hz'
  obtain ⟨env₁', hends, hend⟩ := h.alike (blind z) (not_not.mp hz) (henv.alike hbound)
  obtain ⟨env₂', hends', hend'⟩ := h.alike (blind z') (not_not.mp hz') (henv.alike hbound')
  -- both are the end of the one run from the second environment
  obtain ⟨-, rfl⟩ := hends.unique hends'
  exact ⟨env₂', hends, .of_alike hne hend hend'⟩

end Runs

theorem round_blind {e : Expr} (he : e.Avoids z) :
    Blind z (fun r : Bool × Expr => r.2.Avoids z) e.round :=
  (step_blind he).bind fun _ hs => .pure hs

/-- Programs evaluate alike in environments with the same bindings. -/
theorem evaluates_sameBindings {program : Program} {outcome : Except Error Program}
    (h : program.Evaluates env outcome env₁) (henv : SameBindings env env') :
    ∃ env₁', program.Evaluates env' outcome env₁' ∧ SameBindings env₁ env₁' := by
  have hfinite : {z | ¬ ∀ e ∈ program, e.Avoids z}.Finite := finite_not_all fun e _ => e.finite_names
  obtain ⟨env₁', hends, hsame⟩ := (Program.evaluates_iff.mp h).sameBindings
    (Q := fun z p => ∀ e ∈ p, e.Avoids z) (fun _ _ hprogram => stepProgram_blind hprogram) hfinite
    henv
  exact ⟨env₁', Program.evaluates_iff.mpr hends, hsame⟩

/-- Expressions evaluate alike in environments with the same bindings. -/
theorem exprEvaluates_sameBindings {e : Expr} {outcome : Except Error Expr}
    (h : e.Evaluates env outcome env₁) (henv : SameBindings env env') :
    ∃ env₁', e.Evaluates env' outcome env₁' ∧ SameBindings env₁ env₁' := by
  obtain ⟨env₁', hends, hsame⟩ := (Expr.evaluates_iff.mp h).sameBindings
    (Q := fun z e => e.Avoids z) (fun _ _ he => round_blind he) e.finite_names henv
  exact ⟨env₁', Expr.evaluates_iff.mpr hends, hsame⟩

/-- What a program comes to depends on the bindings alone. -/
theorem evaluates_sameBindings_iff (henv : SameBindings env env') (program : Program)
    (outcome : Except Error Program) :
    (∃ env₁, program.Evaluates env outcome env₁) ↔ ∃ env₁, program.Evaluates env' outcome env₁ := by
  constructor
  · rintro ⟨env₁, h⟩
    obtain ⟨env₁', hends, -⟩ := evaluates_sameBindings h henv
    exact ⟨env₁', hends⟩
  · rintro ⟨env₁, h⟩
    obtain ⟨env₁', hends, -⟩ := evaluates_sameBindings h henv.symm
    exact ⟨env₁', hends⟩

/-- What an expression comes to depends on the bindings alone. -/
theorem exprEvaluates_sameBindings_iff (henv : SameBindings env env') (e : Expr)
    (outcome : Except Error Expr) :
    (∃ env₁, e.Evaluates env outcome env₁) ↔ ∃ env₁, e.Evaluates env' outcome env₁ := by
  constructor
  · rintro ⟨env₁, h⟩
    obtain ⟨env₁', hends, -⟩ := exprEvaluates_sameBindings h henv
    exact ⟨env₁', hends⟩
  · rintro ⟨env₁, h⟩
    obtain ⟨env₁', hends, -⟩ := exprEvaluates_sameBindings h henv.symm
    exact ⟨env₁', hends⟩

end Redex
