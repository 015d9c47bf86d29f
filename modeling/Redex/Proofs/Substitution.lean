import Redex.Application

/-!
# Substitution item by item

What substitution makes of a sequence is given by what it makes of the items. Each item takes the
place of one, unless its name is spliced; the parameters of a literal closure stay as they are and
are hidden in what follows them.

* **`Substitution.hide_apply_symbol`** — behind a binder its names stand for themselves.
* **`Substitution.spliced?_eq_some_iff`** — only a symbol hands items on, and they are the items of
  the sequence that it is bound to.
* **`Substitution.applyItems_literal`**, **`Substitution.applyItems_cons`** and
  **`Substitution.applyItems_singleton`** give the items of a substituted sequence by its shape.
* **`Substitution.item_of_splice`** — where nothing is spliced, every item stays one item.
* **`Substitution.apply_empty`** — a substitution that binds nothing changes nothing.
-/

namespace Redex.Substitution

variable {σ : Substitution} {name : String} {e : Expr} {items : List Expr}

/-! ## Bound and hidden names -/

theorem lookup_eq_none (h : name ∉ Assoc.names σ.bindings) : σ.bindings.lookup name = none := by
  cases hlookup : σ.bindings.lookup name with
  | none => rfl
  | some value => exact absurd (List.mem_map_of_mem (Assoc.mem_of_lookup hlookup)) h

theorem mem_names_hide_iff {names : List String} :
    name ∈ Assoc.names (σ.hide names).bindings ↔
      name ∉ names ∧ name ∈ Assoc.names σ.bindings := by
  rw [← Assoc.isSome_lookup, ← Assoc.isSome_lookup]
  show ((Assoc.without names σ.bindings).lookup name).isSome = true ↔ _
  rw [Assoc.lookup_without]
  split <;> simp_all

/-- Hiding a name that is not bound changes nothing. -/
theorem hide_cons_of_unbound (hbound : name ∉ Assoc.names σ.bindings) (hsplice : name ∉ σ.splice)
    (names : List String) : σ.hide (name :: names) = σ.hide names := by
  unfold hide Assoc.without
  congr 1
  · refine List.filter_congr fun b hb => ?_
    have hne : b.1 ≠ name := fun h => hbound (h ▸ List.mem_map_of_mem hb)
    simp [hne]
  · refine List.filter_congr fun other hother => ?_
    have hne : other ≠ name := fun h => hsplice (h ▸ hother)
    simp [hne]

theorem hide_splice (h : σ.splice = []) (names : List String) : (σ.hide names).splice = [] := by
  show σ.splice.filter _ = []
  rw [h]
  rfl

/-- Hidden names stand for themselves, and the others for what they stood for. -/
theorem hide_apply_symbol (σ : Substitution) (names : List String) (name : String) :
    (σ.hide names).apply (.symbol name) =
      if name ∈ names then .symbol name else σ.apply (.symbol name) := by
  rw [apply, apply]
  show ((Assoc.without names σ.bindings).lookup name).getD _ = _
  rw [Assoc.lookup_without]
  split <;> rfl

/-- Substitutions that do the same to a name do so behind a binder. -/
theorem hide_apply_symbol_congr {τ : Substitution} {names : List String}
    (h : name ∉ names → σ.apply (.symbol name) = τ.apply (.symbol name)) :
    (σ.hide names).apply (.symbol name) = (τ.hide names).apply (.symbol name) := by
  rw [hide_apply_symbol, hide_apply_symbol]
  split
  · rfl
  · rename_i free
    exact h free

/-! ## Spliced names -/

/-- Only a symbol hands items on, and they are the items of the sequence that it is bound to. -/
theorem spliced?_eq_some_iff : σ.spliced? e = some items ↔
    ∃ name, e = .symbol name ∧ name ∈ σ.splice ∧
      σ.bindings.lookup name = some (.sequence items) := by
  constructor
  · intro h
    cases e with
    | symbol name =>
      simp only [spliced?] at h
      split at h
      · rename_i hsplice
        split at h
        · rename_i hlookup
          cases h
          exact ⟨name, rfl, by simpa using hsplice, hlookup⟩
        · cases h
      · cases h
    | _ => cases h
  · rintro ⟨name, rfl, hsplice, hlookup⟩
    simp [spliced?, hsplice, hlookup]

/-- Without names to splice every item stays one item. -/
theorem item_of_splice (h : σ.splice = []) (e replaced : Expr) : σ.item e replaced = [replaced] := by
  have hnone : σ.spliced? e = none := by
    cases hspliced : σ.spliced? e with
    | none => rfl
    | some items =>
      obtain ⟨name, -, hsplice, -⟩ := spliced?_eq_some_iff.mp hspliced
      rw [h] at hsplice
      cases hsplice
  rw [item, hnone]
  rfl

/-! ## Substituted sequences -/

/-- The parameters of a literal closure are kept as they are and hidden in what follows them. -/
theorem applyItems_literal (σ : Substitution) (spec : Expr) (body : List Expr) :
    σ.applyItems true (.symbol lambdaName :: spec :: body) =
      .symbol lambdaName :: spec :: (σ.hide (literalParamNames spec)).applyItems true body := rfl

/-- The first item of a sequence that is no literal closure. -/
theorem applyItems_cons {opening : Bool} {head : Expr}
    (h : (opening && head.isSymbol lambdaName) = false) (rest : List Expr) :
    σ.applyItems opening (head :: rest) =
      σ.item head (σ.apply head) ++ σ.applyItems false rest := by
  rw [applyItems.eq_def]
  simp only [h, Bool.false_eq_true, if_false]

theorem applyItems_singleton (σ : Substitution) (opening : Bool) (e : Expr) :
    σ.applyItems opening [e] = σ.item e (σ.apply e) := by
  by_cases h : (opening && e.isSymbol lambdaName) = true
  · rw [applyItems.eq_def]
    simp only [h, if_true]
  · rw [applyItems_cons (by simpa using h), applyItems, List.append_nil]

theorem applyItems_of_splice (h : σ.splice = []) (items : List Expr) :
    σ.applyItems false items = items.map σ.apply := by
  induction items with
  | nil => rfl
  | cons e items ih =>
    rw [applyItems_cons rfl, item_of_splice h, ih]
    rfl

/-- A substitution that binds nothing changes nothing. -/
theorem apply_empty (e : Expr) : (⟨[], []⟩ : Substitution).apply e = e := by
  have hhide : ∀ names, (⟨[], []⟩ : Substitution).hide names = ⟨[], []⟩ := fun _ => rfl
  generalize hσ : (⟨[], []⟩ : Substitution) = σ
  refine Substitution.apply.induct
    (fun σ e => ⟨[], []⟩ = σ → σ.apply e = e)
    (fun σ opening items => ⟨[], []⟩ = σ → σ.applyItems opening items = items)
    ?symbol ?sequence ?closure ?untouched ?answered ?leaf ?nil ?alone ?lambda ?cons σ e hσ
  case symbol =>
    rintro σ name rfl
    rfl
  case sequence =>
    intro σ items ih hσ
    rw [apply, ih hσ]
  case closure =>
    rintro σ params body name ih rfl
    rw [apply, ih (hhide _).symm]
  case untouched =>
    intro σ e hempty hσ
    rw [apply, if_pos hempty]
  case answered =>
    rintro σ e hempty ih rfl
    exact absurd rfl hempty
  case leaf =>
    intro σ e hsymbol hsequence hclosure hanswered hσ
    rw [apply]
    all_goals assumption
  case nil =>
    intro σ opening hσ
    rfl
  case alone =>
    rintro σ opening head hopen ih rfl
    rw [applyItems_singleton, item_of_splice rfl, ih rfl]
  case lambda =>
    rintro σ opening head hopen spec body ih rfl
    rw [applyItems.eq_def]
    simp only [hopen, if_true]
    rw [ih (hhide _).symm]
  case cons =>
    rintro σ opening head rest hopen ihhead ihrest rfl
    rw [applyItems_cons (by simpa using hopen), item_of_splice rfl, ihhead rfl, ihrest rfl]
    rfl

end Redex.Substitution
