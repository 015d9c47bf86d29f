import Redex.Proofs.Display
import Redex.Proofs.Interleaving
import Redex.Proofs.Runs
import Redex.Proofs.Transaction

/-!
# Runs do not see what happened before

A preparation puts an empty user layer in front of the built-ins, so that a run depends on what an
interpreter was before by the built-ins, the special forms and the reader alone. No operation and
no driver changes these.

* **`Interpreter.SameBase`** compares all that a run depends on, and **`Interpreter.SameView`** the
  bindings of the current session besides.
* **`Interpreting.Agrees`** compares two executions of an operation, along a relation that reading
  and evaluating respect (**`Respected`**).
* **`run_agrees`** — runs from the same base have the same outcome and leave the same bindings.
* **`Move.sameBase`** — no operation and no turn of a driver changes the base.
* **`run_after_history`** — so a run is the same after any history.
-/

namespace Redex

namespace Interpreter

/-- The bindings that have been made in the current session. -/
def userLayer (interp : Interpreter) : Layer :=
  (interp.session interp.current).layer

/-- The interpreters have the same built-ins, special forms and reader. -/
structure SameBase (i j : Interpreter) : Prop where
  builtins : j.builtins = i.builtins
  macros : j.macros = i.macros
  strict : j.strict = i.strict

/-- The interpreters have the same base and the same bindings in the current session. -/
structure SameView (i j : Interpreter) : Prop extends SameBase i j where
  left : i.sessions ≠ []
  right : j.sessions ≠ []
  environment : j.environment j.current = i.environment i.current

variable {i j k : Interpreter}

theorem SameBase.refl (i : Interpreter) : SameBase i i :=
  ⟨rfl, rfl, rfl⟩

theorem SameBase.trans (h : SameBase i j) (h' : SameBase j k) : SameBase i k :=
  ⟨h'.builtins.trans h.builtins, h'.macros.trans h.macros, h'.strict.trans h.strict⟩

theorem SameView.userLayer (h : SameView i j) : j.userLayer = i.userLayer :=
  congrArg Environment.user h.environment

/-- A preparation makes the bindings of the current session the same. -/
theorem SameBase.renew (h : SameBase i j) : SameView i.renew j.renew := by
  have hsessions : ∀ k : Interpreter, k.renew.sessions ≠ [] := by
    intro k
    simp [Interpreter.renew, Interpreter.note]
  refine ⟨⟨h.builtins, h.macros, h.strict⟩, hsessions i, hsessions j, ?_⟩
  rw [renew_environment, renew_environment, h.builtins]

theorem SameBase.note (h : SameBase i j) (notice : Notice) : SameBase i (j.note notice) :=
  ⟨h.builtins, h.macros, h.strict⟩

theorem SameView.note (h : SameView i j) (notice : Notice) :
    SameView (i.note notice) (j.note notice) :=
  ⟨⟨h.builtins, h.macros, h.strict⟩, h.left, h.right, h.environment⟩

theorem SameView.withEnvironment (h : SameView i j) (env : Environment) :
    SameView (i.withEnvironment i.current env) (j.withEnvironment j.current env) := by
  refine ⟨⟨rfl, h.macros, h.strict⟩, withEnvironment_sessions_ne h.left _ _,
    withEnvironment_sessions_ne h.right _ _, ?_⟩
  rw [current_withEnvironment, current_withEnvironment, environment_withEnvironment h.left,
    environment_withEnvironment h.right]

end Interpreter

/-! ## Two executions of an operation -/

namespace Interpreting

open Interpreter (SameBase SameView)

variable {α β : Type} {R S : Interpreter → Interpreter → Prop}

/-- What is seen of an execution: the outcome, and the bindings that it leaves in the session. -/
def observe (m : Interpreting α) (interp : Interpreter) : Option (Except Error α × Layer) :=
  (m.exec interp).map fun (outcome, left) => (outcome, left.userLayer)

/-- From interpreters that are related by `R` the operation comes to the same outcome, if to any,
and leaves interpreters that are related by `S`. -/
def Agrees (R S : Interpreter → Interpreter → Prop) (m : Interpreting α) : Prop :=
  ∀ i j, R i j → Option.Rel (fun p q => q.1 = p.1 ∧ S p.2 q.2) (m.exec i) (m.exec j)

namespace Agrees

theorem pure (a : α) : Agrees S S (Pure.pure a : Interpreting α) :=
  fun _ _ h => .some ⟨rfl, h⟩

theorem bind {m : Interpreting α} {f : α → Interpreting β} (hm : Agrees R S m)
    (hf : ∀ a, Agrees S S (f a)) : Agrees R S (m >>= f) := by
  intro i j hij
  have hfirst := hm i j hij
  rw [exec_bind, exec_bind]
  generalize m.exec i = left at hfirst ⊢
  generalize m.exec j = right at hfirst ⊢
  cases hfirst with
  | none => exact .none
  | @some p q hboth =>
    obtain ⟨outcome, i'⟩ := p
    obtain ⟨outcome', j'⟩ := q
    obtain ⟨rfl, hleft⟩ := hboth
    cases outcome' with
    | error err => exact .some ⟨rfl, hleft⟩
    | ok a => exact hf a i' j' hleft

theorem observe {m : Interpreting α} (hm : Agrees R SameView m) {i j : Interpreter} (hij : R i j) :
    m.observe j = m.observe i := by
  have hboth := hm i j hij
  unfold Interpreting.observe
  generalize m.exec i = left at hboth ⊢
  generalize m.exec j = right at hboth ⊢
  cases hboth with
  | none => rfl
  | @some p q h =>
    obtain ⟨houtcome, hview⟩ := h
    simp only [Option.map_some, houtcome, hview.userLayer]

end Agrees

/-- Reading and evaluating find related interpreters alike, and leave them related. -/
structure Respected (R : Interpreter → Interpreter → Prop) : Prop where
  strict {i j : Interpreter} : R i j → j.strict = i.strict
  macros {i j : Interpreter} : R i j → j.macros = i.macros
  environment {i j : Interpreter} : R i j → j.environment j.current = i.environment i.current
  note {i j : Interpreter} : R i j → ∀ notice, R (i.note notice) (j.note notice)
  left {i j : Interpreter} : R i j → ∀ {budget program run},
    Redex.evaluate i.macros budget program (i.environment i.current) = some run →
      R (i.withEnvironment i.current run.env) (j.withEnvironment j.current run.env)

namespace Respected

variable (hR : Respected R)

include hR

theorem read (source : String) : Agrees R R (read source) := by
  intro i j hij
  rw [read_exec, read_exec, Interpreter.read, Interpreter.read, hR.strict hij]
  exact .some ⟨rfl, hij⟩

theorem evaluate (budget : Nat) (program : Program) : Agrees R R (evaluate budget program) := by
  intro i j hij
  rw [evaluate_exec, evaluate_exec, hR.macros hij, hR.environment hij]
  cases hrun : Redex.evaluate i.macros budget program (i.environment i.current) with
  | none => exact .none
  | some run =>
    have hleft := hR.left hij hrun
    obtain ⟨outcome, env, steps⟩ := run
    cases outcome with
    | error err => exact .some ⟨rfl, hleft⟩
    | ok values => exact .some ⟨rfl, hR.note hleft _⟩

theorem report {m : Interpreting α} {notice : Error → Option Notice} (hm : Agrees S R m) :
    Agrees S R (report notice m) := by
  intro i j hij
  have hfirst := hm i j hij
  rw [report_exec, report_exec]
  generalize m.exec i = left at hfirst ⊢
  generalize m.exec j = right at hfirst ⊢
  cases hfirst with
  | none => exact .none
  | @some p q hboth =>
    obtain ⟨outcome, i'⟩ := p
    obtain ⟨outcome', j'⟩ := q
    obtain ⟨rfl, hleft⟩ := hboth
    cases outcome' with
    | ok a => exact .some ⟨rfl, hleft⟩
    | error err =>
      by_cases hreported : err.isReported = true
      · simp only [Option.map_some, hreported, if_true]
        cases notice err with
        | none => exact .some ⟨rfl, hleft⟩
        | some n => exact .some ⟨rfl, hR.note hleft n⟩
      · simp only [Option.map_some, hreported]
        exact .some ⟨rfl, hleft⟩

theorem eval (budget : Nat) (code : String) : Agrees R R (eval budget code) :=
  (hR.read code).bind fun program => (hR.evaluate budget program).bind fun _ => .pure _

/-- A preparation leaves interpreters related if its new session makes them so. -/
theorem prepare (hrenew : ∀ {i j}, S i j → R i.renew j.renew) (budget : Nat)
    (definitions expression : String) : Agrees S R (prepare budget definitions expression) := by
  have hfirst : Agrees S R (modify Interpreter.renew) := fun i j hij => .some ⟨rfl, hrenew hij⟩
  unfold Interpreting.prepare
  apply hfirst.bind
  intro _
  split
  · exact (hR.read definitions).bind fun program =>
      (hR.evaluate budget program).bind fun _ => hR.read expression
  · exact hR.read expression

theorem run (hrenew : ∀ {i j}, S i j → R i.renew j.renew) (budget : Nat)
    (definitions expression : String) : Agrees S R (run budget definitions expression) := by
  unfold Interpreting.run
  apply (hR.report (hR.prepare hrenew budget definitions expression)).bind
  intro outcome
  cases outcome with
  | ok program => exact hR.report (hR.evaluate budget program)
  | error err => exact .pure _

end Respected

theorem sameView_respected : Respected SameView where
  strict h := h.strict
  macros h := h.macros
  environment h := h.environment
  note h notice := h.note notice
  left h _ _ _ _ := h.withEnvironment _

/-- A run from the same base has the same outcome and leaves the same bindings. -/
theorem run_agrees (budget : Nat) (definitions expression : String) :
    Agrees SameBase SameView (run budget definitions expression) :=
  sameView_respected.run SameBase.renew budget definitions expression

end Interpreting

/-! ## What stays the same -/

theorem Ends.builtins {program : Program} {env env' : Environment} {outcome : Except Error Program}
    (h : Ends (stepProgram .standard) program env outcome env') :
    env'.builtins = env.builtins := by
  induction h with
  | failed round => exact stepProgram_builtins round
  | still round => exact stepProgram_builtins round
  | step round rest ih => exact ih.trans (stepProgram_builtins round)

namespace Interpreter

variable {interp : Interpreter}

theorem sameBase_withEnvironment {env : Environment} (id : Nat)
    (h : env.builtins = interp.builtins) : SameBase interp (interp.withEnvironment id env) :=
  ⟨h, rfl, rfl⟩

theorem sameBase_stepIn (hmacros : interp.macros = .standard) (id : Nat) (program : Program) :
    SameBase interp (interp.stepIn id program).2 := by
  unfold stepIn
  rw [hmacros]
  cases h : (stepProgram .standard program).exec (interp.environment id) with
  | mk outcome env => exact sameBase_withEnvironment id (stepProgram_builtins h)

theorem sameBase_stepNoted (hmacros : interp.macros = .standard) (program : Program) :
    SameBase interp (interp.stepNoted program).2 := by
  have hstep := sameBase_stepIn hmacros interp.current program
  unfold stepNoted
  cases h : interp.stepIn interp.current program with
  | mk outcome left =>
    rw [h] at hstep
    cases outcome with
    | ok result => exact hstep
    | error err =>
      by_cases hreported : err.isReported = true
      · simp only [hreported, if_true]
        exact hstep.note _
      · simp only [hreported]
        exact hstep

end Interpreter

namespace Interpreting

open Interpreter (SameBase)

variable {α : Type} {interp : Interpreter}

/-- One interpreter beside itself, with the base of another. -/
def KeepsBase (interp i j : Interpreter) : Prop :=
  j = i ∧ SameBase interp i

theorem keepsBase_respected (hmacros : interp.macros = .standard) :
    Respected (KeepsBase interp) where
  strict h := by rw [h.1]
  macros h := by rw [h.1]
  environment h := by rw [h.1]
  note := by
    rintro i _ ⟨rfl, hbase⟩ notice
    exact ⟨rfl, hbase.note notice⟩
  left := by
    rintro i _ ⟨rfl, hbase⟩ budget program run hrun
    rw [hbase.macros, hmacros] at hrun
    have hbuiltins := (Ends.of_runFrom hrun).builtins
    exact ⟨rfl, hbase.trans (Interpreter.sameBase_withEnvironment _ hbuiltins)⟩

theorem keepsBase_renew {i j : Interpreter} (h : KeepsBase interp i j) :
    KeepsBase interp i.renew j.renew := by
  obtain ⟨rfl, hbase⟩ := h
  exact ⟨rfl, hbase.builtins, hbase.macros, hbase.strict⟩

theorem Agrees.sameBase {m : Interpreting α}
    (hm : Agrees (KeepsBase interp) (KeepsBase interp) m) {outcome : Except Error α}
    {left : Interpreter} (h : m.exec interp = some (outcome, left)) : SameBase interp left := by
  have hboth := hm interp interp ⟨rfl, .refl interp⟩
  rw [h] at hboth
  cases hboth with
  | some hleft => exact hleft.2.2

end Interpreting

/-! ## Histories -/

theorem Driver.perform_sameBase {interp : Interpreter} (hmacros : interp.macros = .standard)
    (driver : Driver) (action : Action) :
    Interpreter.SameBase interp (driver.perform action interp).2 := by
  cases action with
  | step grip program =>
    have hstep := Interpreter.sameBase_stepIn hmacros grip.layer program
    simp only [perform]
    cases h : interp.stepIn grip.layer program with
    | mk outcome left =>
      rw [h] at hstep
      cases outcome with
      | error err => exact hstep
      | ok result => exact hstep
  | _ => exact .refl interp

namespace Workshop

variable {w w' : Workshop} {strict : Bool}

/-- No operation and no turn of a driver changes the base. -/
theorem Move.sameBase (h : Move w w') (hmacros : w.interp.macros = .standard) :
    Interpreter.SameBase w.interp w'.interp := by
  have hkept := Interpreting.keepsBase_respected hmacros
  cases h with
  | prepare h =>
    cases h with
    | prepare h => exact (hkept.prepare Interpreting.keepsBase_renew _ _ _).sameBase h
    | run h => exact (hkept.run Interpreting.keepsBase_renew _ _ _).sameBase h
  | cancel => exact ⟨rfl, rfl, rfl⟩
  | @step program _ _ h =>
    obtain ⟨outcome, hexec⟩ := Interpreting.stepAll_exec program w.interp
    rw [hexec] at h
    cases h
    exact Interpreter.sameBase_stepNoted hmacros program
  | evaluate h => exact (hkept.report (hkept.evaluate _ _)).sameBase h
  | eval h => exact (hkept.eval _ _).sameBase h
  | turn i =>
    unfold Workshop.turn
    cases w.workers[i]? with
    | none => exact .refl w.interp
    | some worker => exact worker.driver.perform_sameBase hmacros (worker.action w.interp)
  | _ => exact .refl w.interp

theorem Reaches.sameBase (h : Reaches w w') (hmacros : w.interp.macros = .standard) :
    Interpreter.SameBase w.interp w'.interp := by
  induction h with
  | refl => exact .refl w.interp
  | tail _ last ih => exact ih.trans (last.sameBase (ih.macros.trans hmacros))

/-- A run is the same after any history as in a new interpreter: operations and drivers that came
before it, with whatever outcomes, change neither what it comes to nor the bindings that it leaves.
The built-ins and the special forms are those of a new interpreter. -/
theorem run_after_history (history : Reaches (.initial strict) w) :
    w.interp.builtins = Layer.builtins ∧ w.interp.builtins.bindings.length = 66 ∧
    w.interp.macros = .standard ∧
    ∀ budget definitions expression,
      (Interpreting.run budget definitions expression).observe w.interp =
        (Interpreting.run budget definitions expression).observe (.initial strict) := by
  have hbase := history.sameBase rfl
  refine ⟨hbase.builtins, ?_, hbase.macros, ?_⟩
  · rw [hbase.builtins]
    rfl
  · intro budget definitions expression
    exact (Interpreting.run_agrees budget definitions expression).observe hbase

/-- A step that binds `not` to `#t`, an evaluation that fails behind a definition of `x`, and a
cancellation: a run finds the built-in `not` all the same. -/
theorem run_after_history_failed :
    ∃ w, Reaches (.initial false) w ∧ w.interp.userNames = ["not", "x"] ∧
      (w.interp.lookup "not").isFunction = false ∧
      ((Interpreting.run 9 "" "(not #t)").observe w.interp).map
        (fun seen => (seen.1.toOption.bind Except.toOption).map Program.surface) =
          some (some "#f") := by
  have hhistory : ∃ w, Reaches (.initial false) w ∧ w.interp.userNames = ["not", "x"] ∧
      (w.interp.lookup "not").isFunction = false := by
    have hstep := @Move.step (.initial false)
      [.sequence [.symbol "define", .symbol "not", .boolean true]] _ _ rfl
    have hfailed := (Relation.ReflTransGen.single hstep).tail (@Move.evaluate _ 9
      [.sequence [.symbol "define", .symbol "x", .symbol "not"], .sequence [.symbol "if"]] _ _ rfl)
    exact ⟨_, hfailed.tail .cancel, rfl, rfl⟩
  obtain ⟨w, history, hnames, hlookup⟩ := hhistory
  obtain ⟨-, -, -, hrun⟩ := run_after_history history
  refine ⟨w, history, hnames, hlookup, ?_⟩
  rw [hrun]
  decide +kernel

end Workshop

end Redex
