import Redex.Proofs.Binders

/-!
# Substitutions one after the other

Two substitutions that splice nothing come to one if they are made one after the other: what the
first puts in has to be left alone by the second, and must not be the head of a literal closure.
Nothing is renamed on the way, so both hide the same names at every binder.

* **`Substitution.apply_eq_self`** — an expression that mentions no bound name stays as it is.
* **`Substitution.Precedes`** says what one substitution may put in if another follows, and
  **`Substitution.Precedes.hide`** that this holds behind every binder.
* **`Substitution.Precedes.head`** — the first of them makes no head of a literal closure.
* **`Substitution.Precedes.apply_apply`** — a substitution that binds what both bind does what they
  do one after the other.
* **`substitution_in_turn`** — so does their union, in either order if each may go first.
-/

namespace Redex

variable {e : Expr} {items : List Expr} {name : String}

namespace Substitution

variable {σ τ ρ : Substitution}

/-- An expression that mentions no bound name stays as it is. -/
theorem apply_eq_self (hσ : σ.splice = []) (he : e.Unmarked)
    (h : ∀ name, Mentions name e → name ∉ Assoc.names σ.bindings) : σ.apply e = e := by
  have hempty : ∀ name, Mentions name e →
      σ.apply (.symbol name) = (⟨[], []⟩ : Substitution).apply (.symbol name) :=
    fun name hname => apply_symbol_of_unbound (h name hname)
  rw [apply_congr σ ⟨[], []⟩ e hσ rfl hempty he, apply_empty]

/-! ## What may go first -/

/-- The first substitution may be made before the second: what it puts in mentions no name that the
second binds, is not the symbol that heads literal closures, and holds no mark of a fixed answer,
as nothing in a program does. -/
structure Precedes (τ σ : Substitution) : Prop where
  unmentioned : ∀ b ∈ τ.bindings, ∀ name ∈ Assoc.names σ.bindings, ¬ Mentions name b.2
  noHead : ∀ b ∈ τ.bindings, b.2 ≠ .symbol lambdaName
  unmarked : ∀ b ∈ τ.bindings, b.2.Unmarked

theorem Precedes.hide (h : τ.Precedes σ) (names : List String) :
    (τ.hide names).Precedes (σ.hide names) where
  unmentioned b hb name hname :=
    h.unmentioned b (List.mem_filter.mp hb).1 name (mem_names_hide_iff.mp hname).2
  noHead b hb := h.noHead b (List.mem_filter.mp hb).1
  unmarked b hb := h.unmarked b (List.mem_filter.mp hb).1

/-- What is not the head of a literal closure does not become one. -/
theorem Precedes.head (h : τ.Precedes σ) (he : e.Unmarked) (plain : e.isSymbol lambdaName = false) :
    (τ.apply e).isSymbol lambdaName = false := by
  cases e with
  | symbol name =>
    rw [apply]
    cases hlookup : τ.bindings.lookup name with
    | none => exact plain
    | some value =>
      rw [← Bool.not_eq_true, Expr.isSymbol_iff]
      exact h.noHead _ (Assoc.mem_of_lookup hlookup)
  | answered e =>
    cases he with
    | leaf _ _ _ unmarked => exact absurd rfl (unmarked e)
  | _ => rfl

/-! ## One after the other -/

/-- The names that both of two substitutions bind, as they are bound when the first goes first. -/
def Unites (ρ σ τ : Substitution) : Prop :=
  ∀ name, ρ.bindings.lookup name = (τ.bindings.lookup name).or (σ.bindings.lookup name)

theorem Unites.hide (h : ρ.Unites σ τ) (names : List String) :
    (ρ.hide names).Unites (σ.hide names) (τ.hide names) := by
  intro name
  show (Assoc.without names ρ.bindings).lookup name =
    ((Assoc.without names τ.bindings).lookup name).or ((Assoc.without names σ.bindings).lookup name)
  rw [Assoc.lookup_without, Assoc.lookup_without, Assoc.lookup_without]
  split
  · rfl
  · exact h name

/-- A substitution that binds what two others bind does what they do one after the other. -/
theorem Precedes.apply_apply (σ τ ρ : Substitution) (e : Expr) (hσ : σ.splice = [])
    (hτ : τ.splice = []) (hρ : ρ.splice = []) (h : τ.Precedes σ) (unites : ρ.Unites σ τ)
    (he : e.Unmarked) : σ.apply (τ.apply e) = ρ.apply e := by
  -- along the recursion of the substitution that goes first; all three hide the same names
  refine Substitution.apply.induct
    (fun τ e => ∀ σ ρ : Substitution, σ.splice = [] → τ.splice = [] → ρ.splice = [] →
      τ.Precedes σ → ρ.Unites σ τ → e.Unmarked → σ.apply (τ.apply e) = ρ.apply e)
    (fun τ opening items => ∀ σ ρ : Substitution, σ.splice = [] → τ.splice = [] → ρ.splice = [] →
      τ.Precedes σ → ρ.Unites σ τ → (∀ x ∈ items, x.Unmarked) →
      σ.applyItems opening (τ.applyItems opening items) = ρ.applyItems opening items)
    ?symbol ?sequence ?closure ?untouched ?answered ?leaf ?nil ?alone ?lambda ?cons
    τ e σ ρ hσ hτ hρ h unites he
  case symbol =>
    intro τ name σ ρ hσ hτ hρ h unites he
    rw [apply, apply.eq_def ρ]
    simp only [unites name]
    cases hlookup : τ.bindings.lookup name with
    | none =>
      rw [Option.getD_none, Option.none_or, apply]
    | some value =>
      -- what was put in is left alone
      have hmem := Assoc.mem_of_lookup hlookup
      exact apply_eq_self hσ (h.unmarked _ hmem) fun other hother hbound =>
        h.unmentioned _ hmem other hbound hother
  case sequence =>
    intro τ items ih σ ρ hσ hτ hρ h unites he
    rw [apply, apply, apply, ih σ ρ hσ hτ hρ h unites he.mem]
  case closure =>
    intro τ params body label ih σ ρ hσ hτ hρ h unites he
    have hbody := ih (σ.hide params.names) (ρ.hide params.names) (hide_splice hσ _)
      (hide_splice hτ _) (hide_splice hρ _) (h.hide _) (unites.hide _) he.body
    rw [apply, apply, apply, hbody]
  case untouched =>
    intro τ e hempty σ ρ hσ hτ hρ h unites he
    cases he with
    | leaf _ _ _ unmarked => exact absurd rfl (unmarked e)
  case answered =>
    intro τ e hempty ih σ ρ hσ hτ hρ h unites he
    cases he with
    | leaf _ _ _ unmarked => exact absurd rfl (unmarked e)
  case leaf =>
    intro τ e hsymbol hsequence hclosure hanswered σ ρ hσ hτ hρ h unites he
    have hleaf : ∀ ρ : Substitution, ρ.apply e = e := by
      intro ρ
      rw [apply] <;> assumption
    rw [hleaf τ, hleaf σ, hleaf ρ]
  case nil =>
    intro τ opening σ ρ hσ hτ hρ h unites he
    rfl
  case alone =>
    intro τ opening head hopen ih σ ρ hσ hτ hρ h unites he
    have hhead := ih σ ρ hσ hτ hρ h unites (he head List.mem_cons_self)
    rw [applyItems_singleton, item_of_splice hτ, applyItems_singleton, item_of_splice hσ,
      applyItems_singleton, item_of_splice hρ, hhead]
  case lambda =>
    intro τ opening head hopen spec body ih σ ρ hσ hτ hρ h unites he
    obtain ⟨rfl, hhead⟩ : opening = true ∧ head.isSymbol lambdaName = true := by
      simpa using hopen
    obtain rfl := Expr.isSymbol_iff.mp hhead
    have hbody := ih (σ.hide (literalParamNames spec)) (ρ.hide (literalParamNames spec))
      (hide_splice hσ _) (hide_splice hτ _) (hide_splice hρ _) (h.hide _) (unites.hide _)
      fun x hx => he x (by simp [hx])
    rw [applyItems_literal, applyItems_literal, applyItems_literal, hbody]
  case cons =>
    intro τ opening head rest hopen ihhead ihrest σ ρ hσ hτ hρ h unites he
    have hfirst := he head List.mem_cons_self
    have hhead := ihhead σ ρ hσ hτ hρ h unites hfirst
    have hrest := ihrest σ ρ hσ hτ hρ h unites fun x hx => he x (List.mem_cons_of_mem head hx)
    -- the second substitution finds no literal closure where the first found none
    have hplain : (opening && (τ.apply head).isSymbol lambdaName) = false := by
      cases opening with
      | false => rfl
      | true => exact h.head hfirst (by simpa using hopen)
    rw [applyItems_cons (by simpa using hopen), item_of_splice hτ, List.singleton_append,
      applyItems_cons hplain, item_of_splice hσ, applyItems_cons (by simpa using hopen),
      item_of_splice hρ, hhead, hrest]

/-! ## The union -/

/-- The union of two substitutions; a name that both bind is bound as in the first. -/
def union (σ τ : Substitution) : Substitution :=
  ⟨σ.bindings ++ τ.bindings, σ.splice ++ τ.splice⟩

theorem union_splice (hσ : σ.splice = []) (hτ : τ.splice = []) : (σ.union τ).splice = [] := by
  show σ.splice ++ τ.splice = []
  rw [hσ, hτ, List.append_nil]

/-- If no name is bound twice, it does not matter which of the substitutions counts. -/
theorem union_unites (disjoint : ∀ name ∈ Assoc.names σ.bindings, name ∉ Assoc.names τ.bindings) :
    (σ.union τ).Unites σ τ ∧ (σ.union τ).Unites τ σ := by
  have hlookup : ∀ name, (σ.union τ).bindings.lookup name =
      (σ.bindings.lookup name).or (τ.bindings.lookup name) := fun _ => List.lookup_append
  refine ⟨fun name => ?_, hlookup⟩
  rw [hlookup]
  cases hσ : σ.bindings.lookup name with
  | none => rw [Option.none_or, Option.or_none]
  | some value =>
    have hmem : name ∈ Assoc.names σ.bindings := by
      rw [← Assoc.isSome_lookup, hσ]
      rfl
    rw [lookup_eq_none (disjoint name hmem)]
    rfl

end Substitution

/-- Two substitutions of different names that splice nothing: if the first puts in nothing that the
second binds, and no head of a literal closure, then one after the other they do what their union
does. If either may go first, their order does not matter. -/
theorem substitution_in_turn {σ τ : Substitution} (e : Expr) (he : e.Unmarked)
    (plain : σ.splice = [] ∧ τ.splice = [])
    (disjoint : ∀ name ∈ Assoc.names σ.bindings, name ∉ Assoc.names τ.bindings)
    (first : τ.Precedes σ) :
    σ.apply (τ.apply e) = (σ.union τ).apply e ∧
      (σ.Precedes τ → τ.apply (σ.apply e) = σ.apply (τ.apply e)) := by
  obtain ⟨hσ, hτ⟩ := plain
  obtain ⟨hunites, hunites'⟩ := Substitution.union_unites disjoint
  have hunion := Substitution.union_splice hσ hτ
  have hfirst := Substitution.Precedes.apply_apply σ τ (σ.union τ) e hσ hτ hunion first hunites he
  refine ⟨hfirst, fun second => ?_⟩
  rw [hfirst]
  exact Substitution.Precedes.apply_apply τ σ (σ.union τ) e hτ hσ hunion second hunites' he

/-- `x` and `y` are replaced in `((lambda (x) (x y)) x)`, whose literal closure hides `x`. -/
theorem substitution_in_turn_binder :
    (⟨[("x", .boolean true)], []⟩ : Substitution).apply
        ((⟨[("y", .symbol "not")], []⟩ : Substitution).apply
          (.sequence [literalClosure ["x"] (.sequence [.symbol "x", .symbol "y"]), .symbol "x"])) =
      .sequence [literalClosure ["x"] (.sequence [.symbol "x", .symbol "not"]), .boolean true] ∧
    (⟨[("y", .symbol "not")], []⟩ : Substitution).apply
        ((⟨[("x", .boolean true)], []⟩ : Substitution).apply
          (.sequence [literalClosure ["x"] (.sequence [.symbol "x", .symbol "y"]), .symbol "x"])) =
      .sequence [literalClosure ["x"] (.sequence [.symbol "x", .symbol "not"]), .boolean true] := by
  have hsymbol : ∀ name, Expr.Written (fun _ => True) (.symbol name) := fun _ => .symbol trivial
  have hbody : Expr.Written (fun _ => True) (.sequence [.symbol "x", .symbol "y"]) :=
    .sequence (List.forall_mem_cons.mpr ⟨hsymbol "x", List.forall_mem_singleton.mpr (hsymbol "y")⟩)
  have hspec : Expr.Written (fun _ => True) (.sequence [.symbol "x"]) :=
    .sequence (List.forall_mem_singleton.mpr (hsymbol "x"))
  have hliteral : Expr.Written (fun _ => True)
      (literalClosure ["x"] (.sequence [.symbol "x", .symbol "y"])) :=
    .sequence (List.forall_mem_cons.mpr ⟨hsymbol lambdaName,
      List.forall_mem_cons.mpr ⟨hspec, List.forall_mem_singleton.mpr hbody⟩⟩)
  have hwritten : Expr.Written (fun _ => True) (.sequence
      [literalClosure ["x"] (.sequence [.symbol "x", .symbol "y"]), .symbol "x"]) :=
    .sequence (List.forall_mem_cons.mpr ⟨hliteral, List.forall_mem_singleton.mpr (hsymbol "x")⟩)
  have hfirst : (⟨[("y", .symbol "not")], []⟩ : Substitution).Precedes
      ⟨[("x", .boolean true)], []⟩ := by
    refine ⟨List.forall_mem_singleton.mpr (List.forall_mem_singleton.mpr ?_),
      List.forall_mem_singleton.mpr ?_, List.forall_mem_singleton.mpr (hsymbol "not").unmarked⟩
    · intro hmentioned
      exact absurd (mentions_symbol_iff.mp hmentioned) (by decide)
    · simp [lambdaName]
  have hsecond : (⟨[("x", .boolean true)], []⟩ : Substitution).Precedes
      ⟨[("y", .symbol "not")], []⟩ := by
    have htrue : Expr.Written (fun _ => True) (.boolean true) := .boolean true
    refine ⟨List.forall_mem_singleton.mpr (List.forall_mem_singleton.mpr ?_),
      List.forall_mem_singleton.mpr ?_, List.forall_mem_singleton.mpr htrue.unmarked⟩
    · intro hmentioned
      cases hmentioned
    · simp
  obtain ⟨hunion, hswap⟩ :=
    substitution_in_turn _ hwritten.unmarked ⟨rfl, rfl⟩ (by decide) hfirst
  exact ⟨hunion, (hswap hsecond).trans hunion⟩

end Redex
