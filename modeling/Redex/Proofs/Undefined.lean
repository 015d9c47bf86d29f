import Redex.Proofs.Display
import Redex.Proofs.TopLevel

/-!
# Where the results of definitions go

A definition leaves no value behind: what it leaves is dropped from the sequence around it and from
the program. But the rules of `if` and `apply` put back a part that they have stepped without
looking at it, and there it stays.

* **`Expr.isTidy`** says that no sequence holds the result of a definition.
* **`Expr.Clean`** says it of closures and structs as well, and **`Expr.clean_stepped`** — a step
  that loses no part keeps it.
* **`LosesPart.untidy`** — a step that loses a part leaves its result in a sequence.
* **`reachable_tidy_iff`** — so the programs under way are tidy exactly if no step loses a part.
-/

namespace Redex

variable {env env' : Environment} {e e' : Expr} {items : List Expr} {program next : Program}

/-! ## Tidy expressions -/

mutual

/-- No sequence in the expression has the result of a definition among its items. Closures, structs
and quoted expressions are not looked into. -/
def Expr.isTidy : Expr → Bool
  | .sequence items => Expr.allTidy items
  | .answered e => e.isTidy
  | _ => true
termination_by structural e => e

/-- The items are tidy, and none is the result of a definition. -/
def Expr.allTidy : List Expr → Bool
  | [] => true
  | item :: rest => !item.isUndefined && item.isTidy && Expr.allTidy rest
termination_by structural items => items

end

theorem Expr.allTidy_iff :
    Expr.allTidy items = true ↔ ∀ x ∈ items, x.isUndefined = false ∧ x.isTidy = true := by
  induction items with
  | nil => simp [Expr.allTidy]
  | cons item items ih => simp [Expr.allTidy, ih]

theorem Expr.isTidy_sequence :
    (Expr.sequence items).isTidy = true ↔
      ∀ x ∈ items, x.isUndefined = false ∧ x.isTidy = true := by
  rw [Expr.isTidy]
  exact Expr.allTidy_iff

/-- A sequence holds the result of a definition nowhere, and neither do the bodies of closures and
the fields of structs. Quoted expressions are never opened. -/
inductive Expr.Clean : Expr → Prop where
  | number (x : Float) : Clean (.number x)
  | text (s : String) : Clean (.text s)
  | boolean (b : Bool) : Clean (.boolean b)
  | symbol (name : String) : Clean (.symbol name)
  | sequence {items : List Expr} (defined : ∀ x ∈ items, x.isUndefined = false)
      (h : ∀ x ∈ items, Clean x) : Clean (.sequence items)
  | native (p : Native) : Clean (.native p)
  | closure {params : Params} {body : Expr} {name : String} (h : Clean body) :
      Clean (.closure params body name)
  | struct {tag : String} {fields : List (String × Expr)} (h : ∀ f ∈ fields, Clean f.2) :
      Clean (.struct tag fields)
  | quoted (e : Expr) : Clean (.quoted e)
  | answered {e : Expr} (defined : e.isUndefined = false) (h : Clean e) : Clean (.answered e)
  | undefined : Clean .undefined
  | absent : Clean .absent

/-- A clean expression that may stand in a sequence. -/
structure Expr.CleanItem (e : Expr) : Prop where
  clean : e.Clean
  defined : e.isUndefined = false

theorem Expr.Clean.isTidy (h : e.Clean) : e.isTidy = true := by
  induction h with
  | sequence defined h ih => exact Expr.isTidy_sequence.mpr fun x hx => ⟨defined x hx, ih x hx⟩
  | answered defined h ih =>
    rw [Expr.isTidy]
    exact ih
  | _ => rfl

theorem Expr.Written.cleanItem {P : String → Prop} (h : Written P e) : e.CleanItem := by
  refine ⟨?_, h.isUndefined⟩
  induction h with
  | number x => exact .number x
  | text s => exact .text s
  | boolean b => exact .boolean b
  | symbol h => exact .symbol _
  | sequence h ih => exact .sequence (fun x hx => (h x hx).isUndefined) ih

/-! ## Steps that lose no part -/

/-- Items are clean and no results of definitions; what comes of a call is clean. -/
theorem Expr.clean_stepped : Expr.Stepped Expr.CleanItem Expr.Clean where
  whole h := h.clean
  item h defined := ⟨h, defined⟩
  number := .number
  boolean := .boolean
  undefined := .undefined
  sequence := by
    refine ⟨?_, ?_⟩
    · rintro ⟨⟩ x hx
      rename_i defined h
      exact ⟨h x hx, defined x hx⟩
    · intro h
      exact .sequence (fun x hx => (h x hx).defined) fun x hx => (h x hx).clean
  construct _ hargs := .struct fun b hb =>
    pairArguments_mem (.boolean false) _ (fun a ha => (hargs a ha).clean) b (Assoc.mem_ofList hb)
  field := by
    rintro _ _ ⟨⟩
    assumption
  body := by
    rintro _ _ _ ⟨⟩
    assumption
  closure _ hbody := .closure hbody
  answered := by
    rintro _ ⟨⟨⟩, -⟩
    rename_i defined h
    exact ⟨h, defined⟩
  anonymous hbody := .closure hbody
  function _ hbody := .closure hbody

/-- The procedures of a struct definition hold no expressions. -/
theorem Environment.clean_admits (env env' : Environment) : env.Admits Expr.CleanItem env' := by
  intro tag fields _ _ _ b hb
  obtain ⟨p, -, rfl⟩ := List.mem_map.mp (Assoc.mem_ofList hb)
  exact ⟨.native p, rfl⟩

/-! ## Steps that lose a part -/

/-- What stands in a tree that is rebuilt around it is tidy if the tree is, unless it leaves it. -/
theorem Context.isTidy_of_rebuilt {C : Context} (h : (C.rebuilt e).isTidy = true)
    (defined : e.isUndefined = false) : e.isTidy = true := by
  induction C with
  | hole => exact h
  | item before inner after ih =>
    have hkept : (inner.rebuilt e).isUndefined = false := by
      cases inner with
      | hole => exact defined
      | item => rfl
    have hmem : inner.rebuilt e ∈ rebuild (before ++ inner.rebuilt e :: after) :=
      List.mem_filter.mpr ⟨by simp, by simp [hkept]⟩
    exact ih (Expr.isTidy_sequence.mp h _ hmem).2

/-- What the step of a part has put back in its call shows in the result of the step. -/
theorem Takes.untidy {r part part' : Expr} {env₁ : Environment} (leads : Leads env r e)
    (takes : Takes env part r) (moved : (step .standard part).exec env = (.ok ⟨true, part'⟩, env₁))
    (hpart : part'.isUndefined = true ∨ part'.isTidy = false)
    (h : (step .standard e).exec env = (.ok ⟨true, e'⟩, env')) : e'.isTidy = false := by
  obtain ⟨items, rule, hmem⟩ := takes.rule moved
  obtain ⟨C, rfl⟩ := step_of_leads leads rule h
  cases htidy : (C.rebuilt (.sequence items)).isTidy with
  | false => rfl
  | true =>
    have hitems := Expr.isTidy_sequence.mp (C.isTidy_of_rebuilt htidy rfl)
    obtain ⟨hdefined, hinner⟩ := hitems part' hmem
    rcases hpart with hpart | hpart
    · cases hpart.symm.trans hdefined
    · cases hpart.symm.trans hinner

/-- A step that loses a part leaves the result of a definition in a sequence. -/
theorem LosesPart.untidy (h : LosesPart env e)
    (hstep : (step .standard e).exec env = (.ok ⟨true, e'⟩, env')) : e'.isTidy = false := by
  induction h generalizing e' env' with
  | gone leads takes moved => exact takes.untidy leads moved (.inl rfl) hstep
  | inside leads takes moved inner ih => exact takes.untidy leads moved (.inr (ih moved)) hstep

theorem Program.LosesPart.step (h : program.LosesPart env) :
    ∃ next env', (stepProgram .standard program).exec env = (.ok (true, next), env') ∧
      ∃ e ∈ next, e.isTidy = false := by
  obtain ⟨before, form, after, form', env', rfl, hleft, hstep, hloses⟩ := h
  have huntidy := hloses.untidy hstep
  have hdefined : form'.isUndefined = false := by
    cases form' with
    | undefined => cases huntidy
    | _ => rfl
  refine ⟨rebuild (before.map env.named) ++ rebuild (form' :: after), env', ?_, form', ?_, huntidy⟩
  · rw [stepProgram_append hleft, Stepping.exec_bind_of_ok (stepProgram_cons_moved hstep after)]
    rfl
  · refine List.mem_append_right _ (List.mem_filter.mpr ⟨List.mem_cons_self, ?_⟩)
    rw [hdefined]
    rfl

/-! ## Programs under way -/

variable {strict : Bool} {budget : Nat} {definitions expression : String} {interp : Interpreter}

/-- While no step loses a part, programs under way are clean, and so is all that is bound. -/
theorem Reachable.clean
    (defined : ∀ forms, readProgram strict definitions = .ok forms →
      ∀ n program env, StepsTo n forms .fresh program env → ¬ program.LosesPart env)
    (kept : ∀ program interp, Reachable strict budget definitions expression program interp →
      ¬ program.LosesPart (interp.environment interp.current))
    (h : Reachable strict budget definitions expression program interp) :
    (∀ e ∈ program, e.CleanItem) ∧
      (interp.environment interp.current).Carries Expr.CleanItem :=
  h.carried Expr.clean_stepped Environment.clean_admits (fun _ => ⟨.native _, rfl⟩)
    (fun _ hwritten => hwritten.cleanItem) (.inr defined) (.inr kept)

/-- The program behind the first step of a prepared program. -/
def firstStep (budget : Nat) (definitions expression : String) : Option Program :=
  match (Interpreting.prepare budget definitions expression).exec (.initial false) with
  | some (.ok program, interp) =>
    match interp.stepNoted program with
    | (.ok (true, next), _) => some next
    | _ => none
  | _ => none

theorem firstStep_reachable (h : firstStep budget definitions expression = some next) :
    ∃ interp, Reachable false budget definitions expression next interp := by
  unfold firstStep at h
  split at h
  · rename_i program interp hprepare
    split at h
    · rename_i next interp' hstep
      cases h
      exact ⟨interp', .stepped (.prepared hprepare) hstep⟩
    · cases h
  · cases h

/-- The empty program has no part to lose. -/
theorem StepsTo.not_losesPart {n : Nat} (h : StepsTo n [] env program env') :
    ¬ program.LosesPart env' := by
  rintro ⟨before, form, after, form', env'', rfl, -⟩
  generalize hprogram : before ++ form :: after = program at h
  cases h with
  | refl => simp at hprogram
  | step first rest => cases first

/-- No form of a program under way is the result of a definition. If the run of the definitions lost
no part, no sequence of a program under way holds one, unless a step from such a program loses a
part; and that step leaves one behind. -/
theorem reachable_tidy_iff (strict : Bool) (budget : Nat) (definitions expression : String) :
    (∀ program interp, Reachable strict budget definitions expression program interp →
      ∀ e ∈ program, e.isUndefined = false) ∧
    ((∀ forms, readProgram strict definitions = .ok forms →
        ∀ n program env, StepsTo n forms .fresh program env → ¬ program.LosesPart env) →
      ((∀ program interp, Reachable strict budget definitions expression program interp →
          ∀ e ∈ program, e.isTidy = true) ↔
        ∀ program interp, Reachable strict budget definitions expression program interp →
          ¬ program.LosesPart (interp.environment interp.current))) := by
  refine ⟨fun program interp h e he => (h.sound.2 e he).2, fun defined => ⟨?_, ?_⟩⟩
  · intro htidy program interp h hloses
    obtain ⟨next, env', hexec, e, he, huntidy⟩ := hloses.step
    rw [← h.sound.1.standard] at hexec
    have hnext := htidy _ _ (h.stepped (Interpreter.stepNoted_of_exec hexec)) e he
    cases hnext.symm.trans huntidy
  · intro kept program interp h e he
    exact ((h.clean defined kept).1 e he).clean.isTidy

/-- In `(if (define not #t) #f)` the test is lost, once its step has bound the name. -/
theorem reachable_tidy_iff_test :
    ∃ program interp, Reachable false 9 "" "(if (define not #t) #f)" program interp ∧
      program.LosesPart (interp.environment interp.current) := by
  have hstep : (firstStep 9 "" "(if (define not #t) #f)").map (fun next => next.all Expr.isTidy) =
      some false := by decide +kernel
  obtain ⟨next, hfirst, huntidy⟩ := Option.map_eq_some_iff.mp hstep
  obtain ⟨interp, hnext⟩ := firstStep_reachable hfirst
  have hread : readProgram false "" = .ok [] := rfl
  have hdefinitions : ∀ forms, readProgram false "" = .ok forms →
      ∀ n program env, StepsTo n forms .fresh program env → ¬ program.LosesPart env := by
    intro forms hforms n program env hsteps
    cases hread.symm.trans hforms
    exact hsteps.not_losesPart
  have hiff := (reachable_tidy_iff false 9 "" "(if (define not #t) #f)").2 hdefinitions
  by_cases hkept : ∃ program interp, Reachable false 9 "" "(if (define not #t) #f)" program interp ∧
      program.LosesPart (interp.environment interp.current)
  · exact hkept
  · have htidy := hiff.mpr fun program interp h hloses => hkept ⟨program, interp, h, hloses⟩
    have hall : next.all Expr.isTidy = true := List.all_eq_true.mpr (htidy next interp hnext)
    cases huntidy.symm.trans hall

/-- The function of `(apply (define x #t) (list #t))` is a definition, and its result stays in the
call. -/
theorem undefined_stays :
    ∃ program interp, Reachable false 9 "" "(apply (define x #t) (list #t))" program interp ∧
      program.surface = "(apply  (list #t))" ∧ ∃ e ∈ program, e.isTidy = false := by
  have hstep : (firstStep 9 "" "(apply (define x #t) (list #t))").map
      (fun next => (next.surface, next.all Expr.isTidy)) = some ("(apply  (list #t))", false) := by
    decide +kernel
  obtain ⟨next, hfirst, hshown⟩ := Option.map_eq_some_iff.mp hstep
  obtain ⟨interp, hnext⟩ := firstStep_reachable hfirst
  obtain ⟨hsurface, huntidy⟩ := Prod.mk.inj hshown
  obtain ⟨e, he, hnot⟩ := List.all_eq_false.mp huntidy
  exact ⟨next, interp, hnext, hsurface, e, he, by simpa using hnot⟩

end Redex
