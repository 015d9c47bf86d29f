import Mathlib.Data.Nat.Init
import Redex.Proofs.Interleaving
import Redex.Proofs.Runs
import Redex.Proofs.Transaction

/-!
# Drivers agree with evaluation

Drivers that share a layer rest after every step, and between two steps of one the others may make
any number. If no program changes the layer, a driver does not see the others: after any turns it
stands where its own turns alone have brought it.

* **`Program.RunsInPlace`** — the steps of a program leave the layers as they are, so that a turn
  leaves the interpreter as it is (**`Driver.perform_inPlace`**).
* **`Workshop.InPlace.turns`** — so the workers of a workshop do with their turns what each does
  alone, in any order.
* **`Driver.after_poised_finished`** and **`Driver.after_poised`** — alone, a driver finishes with
  the outcome of the evaluation, and with turns enough it does finish.
* **`Driver.output_poised`** — alone, an iterator hands out the programs that its program comes to.
* **`drivers_agree`** puts these together.
-/

namespace Redex

/-! ## Programs that run in place -/

section InPlace

variable {env env' : Environment} {program program' : Program}

/-- Neither the steps of the program nor those of what it comes to change the layers. -/
def Program.RunsInPlace (program : Program) (env : Environment) : Prop :=
  ∀ n last env', StepsTo n program env last env' → env' = env

theorem Program.RunsInPlace.step (h : program.RunsInPlace env)
    (hstep : (stepProgram .standard program).exec env = (.ok (true, program'), env')) :
    env' = env ∧ program'.RunsInPlace env := by
  obtain rfl : env' = env := h 1 _ _ (.step hstep (.refl _ _))
  exact ⟨rfl, fun n last env₁ hsteps => h (n + 1) last env₁ (.step hstep hsteps)⟩

theorem Program.RunsInPlace.of_step
    (first : (stepProgram .standard program).exec env = (.ok (true, program'), env))
    (rest : program'.RunsInPlace env) : program.RunsInPlace env := by
  intro n last env' hsteps
  cases hsteps with
  | refl => rfl
  | step first' more =>
    rw [first] at first'
    cases first'
    exact rest _ _ _ more

theorem Program.RunsInPlace.of_still
    (still : (stepProgram .standard program).exec env = (.ok (false, program'), env)) :
    program.RunsInPlace env := by
  intro n last env' hsteps
  cases hsteps with
  | refl => rfl
  | step first more =>
    rw [still] at first
    cases first

theorem Program.RunsInPlace.round (h : program.RunsInPlace env)
    {result : Except Error (Bool × Program)}
    (hround : (stepProgram .standard program).exec env = (result, env')) : env' = env := by
  cases result with
  | error err => exact stepProgram_failed hround
  | ok found =>
    obtain ⟨stepped, next⟩ := found
    cases stepped with
    | false => exact (stepProgram_still hround).2.2
    | true => exact (h.step hround).1

/-- The programs that the program comes to, one step after the other, and at most `n` of them. -/
def successive : Nat → Program → Environment → List Program
  | 0, _, _ => []
  | n + 1, program, env =>
    match (stepProgram .standard program).exec env with
    | (.ok (true, next), env') => next :: successive n next env'
    | _ => []

end InPlace

/-! ## Turns that leave the interpreter as it is -/

namespace Interpreter

theorem withEnvironment_environment (interp : Interpreter) (id : Nat) :
    interp.withEnvironment id (interp.environment id) = interp := by
  have hsessions : (interp.sessions.modify (id - 1) fun s =>
      { s with layer := (interp.session id).layer }) = interp.sessions := by
    apply List.ext_getElem?
    intro n
    rw [List.getElem?_modify]
    by_cases h : id - 1 = n
    · subst h
      unfold session
      cases interp.sessions[id - 1]? with
      | none => simp
      | some s => simp
    · simp [h]
  unfold withEnvironment environment
  rw [hsessions]

theorem stepIn_inPlace {interp : Interpreter} (standard : interp.macros = .standard) {id : Nat}
    {program : Program} {result : Except Error (Bool × Program)}
    (h : (stepProgram .standard program).exec (interp.environment id) =
      (result, interp.environment id)) : interp.stepIn id program = (result, interp) := by
  unfold stepIn
  rw [standard, h]
  simp only [withEnvironment_environment]

end Interpreter

variable {interp : Interpreter} {grip : Grip} {job : Job} {program program' : Program}

/-- The program runs in place in the layer that is held. -/
def Grip.Suits (grip : Grip) (interp : Interpreter) (program : Program) : Prop :=
  program.RunsInPlace (interp.environment grip.layer)

/-- A step that the action makes, and those of the program that it hands out, are in place. -/
def Action.InPlace (interp : Interpreter) (grip : Grip) : Action → Prop
  | step held program => held = grip ∧ grip.Suits interp program
  | handOut held program => held = grip ∧ grip.Suits interp program
  | _ => True

namespace Driver

/-- The driver has the layer in its grip, or will take it, and runs its program in place. -/
def InPlace (interp : Interpreter) (grip : Grip) : Driver → Prop
  | unstarted free program => interp.grip free = grip ∧ grip.Suits interp program
  | poised held program => held = grip ∧ grip.Suits interp program
  | resting held stepped program => held = grip ∧ (stepped = true → grip.Suits interp program)
  | _ => True

theorem attempt_inPlace (h : grip.Suits interp program) :
    (attempt grip program interp).InPlace interp grip := by
  unfold attempt
  cases grip.check interp with
  | error err => exact trivial
  | ok _ => exact ⟨rfl, h⟩

theorem action_inPlace {driver : Driver} (h : driver.InPlace interp grip) (job : Job) :
    (driver.action job interp).InPlace interp grip := by
  cases driver with
  | unstarted free program =>
    obtain ⟨rfl, hsuits⟩ := h
    exact attempt_inPlace hsuits
  | poised held program =>
    obtain ⟨rfl, hsuits⟩ := h
    exact attempt_inPlace hsuits
  | resting held stepped program =>
    obtain ⟨rfl, hsuits⟩ := h
    simp only [action]
    cases held.check interp with
    | error err => exact trivial
    | ok _ =>
      cases stepped with
      | false => cases job <;> exact trivial
      | true =>
        cases job with
        | step => exact trivial
        | iterate => exact ⟨rfl, hsuits rfl⟩
        | evaluate => exact attempt_inPlace (hsuits rfl)
  | finished outcome => exact trivial
  | cancelled => exact trivial

/-- An action in place leaves the interpreter as it is, and a driver in place. -/
theorem perform_inPlace (standard : interp.macros = .standard) {driver : Driver}
    (h : driver.InPlace interp grip) {action : Action} (haction : action.InPlace interp grip) :
    (driver.perform action interp).2 = interp ∧
      (driver.perform action interp).1.InPlace interp grip := by
  cases action with
  | step held program =>
    obtain ⟨rfl, hsuits⟩ := haction
    cases hround : (stepProgram .standard program).exec (interp.environment held.layer) with
    | mk result env' =>
      obtain rfl := hsuits.round hround
      simp only [perform, Interpreter.stepIn_inPlace standard hround]
      cases result with
      | error err => exact ⟨rfl, trivial⟩
      | ok found =>
        obtain ⟨stepped, next⟩ := found
        refine ⟨rfl, rfl, ?_⟩
        rintro rfl
        exact (hsuits.step hround).2
  | handOut held program => exact ⟨rfl, haction⟩
  | finish outcome => exact ⟨rfl, trivial⟩
  | abort => exact ⟨rfl, trivial⟩
  | idle => exact ⟨rfl, h⟩

/-! ## Turns of one driver -/

/-- The driver after a turn, if nobody cancels it. -/
def turn (job : Job) (interp : Interpreter) (driver : Driver) : Driver :=
  (driver.perform (driver.action job interp) interp).1

/-- The driver after turns of its own, in an interpreter that stays as it is. -/
def after (job : Job) (interp : Interpreter) : Nat → Driver → Driver
  | 0, driver => driver
  | n + 1, driver => after job interp n (driver.turn job interp)

end Driver

/-- The program that an action hands out, if it does. -/
def Action.output : Action → List Program
  | handOut _ program => [program]
  | _ => []

/-- What the driver hands out in turns of its own. -/
def Driver.output (job : Job) (interp : Interpreter) : Nat → Driver → List Program
  | 0, _ => []
  | n + 1, driver =>
    (driver.action job interp).output ++ output job interp n (driver.turn job interp)

/-! ## A driver by itself -/

namespace Driver

theorem after_finished (n : Nat) (outcome : Except Error (Bool × Program)) :
    after job interp n (finished outcome) = finished outcome := by
  induction n with
  | zero => rfl
  | succ n ih => exact ih

theorem output_finished (n : Nat) (outcome : Except Error (Bool × Program)) :
    output job interp n (finished outcome) = [] := by
  induction n with
  | zero => rfl
  | succ n ih => exact ih

section Live

-- the session is not cancelled, and the special forms are the standard ones
variable (live : grip.check interp = .ok ()) (standard : interp.macros = .standard)

section Rests

include live

theorem action_poised (job : Job) (program : Program) :
    (poised grip program).action job interp = .step grip program := by
  simp only [action, attempt, live]

theorem turn_poised (job : Job) (program : Program) :
    (poised grip program).turn job interp =
      ((poised grip program).perform (.step grip program) interp).1 := by
  rw [turn, action_poised live]

theorem action_resting_still (job : Job) (program : Program) :
    (resting grip false program).action job interp = .finish (.ok (false, program)) := by
  simp only [action, live]

theorem turn_resting_still (job : Job) (program : Program) :
    (resting grip false program).turn job interp = finished (.ok (false, program)) := by
  unfold turn
  rw [action_resting_still live]
  rfl

theorem action_resting_iterate (program : Program) :
    (resting grip true program).action .iterate interp = .handOut grip program := by
  simp only [action, live]

/-- After the rest that follows a step, an evaluation goes on to the next step at once, and an
iterator with the turn after. -/
theorem after_resting (hjob : job ≠ .step) (n : Nat) (program : Program) :
    ∃ k, n ≤ k ∧ k ≤ n + 1 ∧
      after job interp (n + 1) (resting grip true program) =
        after job interp k (poised grip program) := by
  cases job with
  | step => exact absurd rfl hjob
  | iterate =>
    refine ⟨n, Nat.le_refl n, Nat.le_succ n, ?_⟩
    rw [after, turn, action_resting_iterate live]
    rfl
  | evaluate =>
    refine ⟨n + 1, Nat.le_succ n, Nat.le_refl _, ?_⟩
    have haction : (resting grip true program).action .evaluate interp = .step grip program := by
      simp only [action, live, attempt]
    rw [after, after, turn_poised live, turn, haction]
    rfl

end Rests

include live standard

/-- A round that fails ends the driver. -/
theorem turn_poised_error {err : Error}
    (hround : (stepProgram .standard program).exec (interp.environment grip.layer) =
      (.error err, interp.environment grip.layer)) (job : Job) :
    (poised grip program).turn job interp = finished (.error err) := by
  rw [turn_poised live, perform, Interpreter.stepIn_inPlace standard hround]

/-- The driver rests after any other round. -/
theorem turn_poised_ok {stepped : Bool}
    (hround : (stepProgram .standard program).exec (interp.environment grip.layer) =
      (.ok (stepped, program'), interp.environment grip.layer)) (job : Job) :
    (poised grip program).turn job interp = resting grip stepped program' := by
  rw [turn_poised live, perform, Interpreter.stepIn_inPlace standard hround]

/-- A driver that finishes has come to the end of its program's run. -/
theorem after_poised_finished (hjob : job ≠ .step) (hsuits : grip.Suits interp program)
    {n : Nat} {outcome : Except Error (Bool × Program)}
    (h : after job interp n (poised grip program) = finished outcome) :
    ∃ result, Ends (stepProgram .standard) program (interp.environment grip.layer) result
        (interp.environment grip.layer) ∧ outcome = result.map (Prod.mk false) := by
  -- an evaluation makes its next step in the turn that ends a rest, so that one turn less is left
  induction n using Nat.strongRecOn generalizing program with
  | ind n ih =>
    cases n with
    | zero => cases h
    | succ n =>
      rw [after] at h
      cases hround : (stepProgram .standard program).exec (interp.environment grip.layer) with
      | mk result env' =>
        obtain rfl := hsuits.round hround
        cases result with
        | error err =>
          rw [turn_poised_error live standard hround, after_finished] at h
          cases h
          exact ⟨.error err, .failed hround, rfl⟩
        | ok found =>
          obtain ⟨stepped, next⟩ := found
          rw [turn_poised_ok live standard hround] at h
          cases n with
          | zero => cases h
          | succ n =>
            cases stepped with
            | false =>
              rw [after, turn_resting_still live, after_finished] at h
              cases h
              exact ⟨.ok next, .still hround, rfl⟩
            | true =>
              obtain ⟨k, -, hk, hafter⟩ := after_resting live hjob n next
              rw [hafter] at h
              have hnext := (hsuits.step hround).2
              obtain ⟨result, hends, houtcome⟩ := ih k (by omega) hnext h
              exact ⟨result, .step hround hends, houtcome⟩

/-- With two turns for a step, the driver makes the steps of its program. -/
theorem after_stepsTo (hjob : job ≠ .step) (hsuits : grip.Suits interp program) {m : Nat}
    {last : Program} {env' : Environment}
    (hsteps : StepsTo m program (interp.environment grip.layer) last env') (n : Nat) :
    grip.Suits interp last ∧ ∃ k, n ≤ k ∧
      after job interp (2 * m + n) (poised grip program) =
        after job interp k (poised grip last) := by
  generalize henv : interp.environment grip.layer = env at hsteps
  induction hsteps generalizing n with
  | refl program env =>
    refine ⟨hsuits, n, Nat.le_refl n, ?_⟩
    rw [Nat.mul_zero, Nat.zero_add]
  | @step m program next last env env₁ env₂ first rest ih =>
    subst henv
    obtain ⟨rfl, hnext⟩ := hsuits.step first
    obtain ⟨k, hk, -, hafter⟩ := after_resting live hjob (2 * m + n) next
    have hcount : 2 * (m + 1) + n = 2 * m + n + 1 + 1 := by omega
    have hleft : k = 2 * m + (k - 2 * m) := by omega
    obtain ⟨hlast, k', hk', hlater⟩ := ih hnext (k - 2 * m) rfl
    refine ⟨hlast, k', by omega, ?_⟩
    rw [hcount, after, turn_poised_ok live standard first, hafter, hleft, hlater]

/-- With two turns for a step and two more, the driver has finished with the outcome of the run. -/
theorem after_poised (hjob : job ≠ .step) (hsuits : grip.Suits interp program) {budget : Nat}
    {run : Run Program}
    (hrun : evaluate .standard budget program (interp.environment grip.layer) = some run) {n : Nat}
    (hn : 2 * run.steps + 2 ≤ n) :
    after job interp n (poised grip program) = finished (run.outcome.map (Prod.mk false)) := by
  obtain ⟨m, last, env₁, hsteps, hcount, hend⟩ := runFrom_cases hrun
  obtain rfl := hsuits m last env₁ hsteps
  obtain ⟨hlast, k, hk, hafter⟩ := after_stepsTo live standard hjob hsuits hsteps (n - 2 * m)
  have hleft : n = 2 * m + (n - 2 * m) := by omega
  obtain ⟨k, rfl⟩ : ∃ k', k = k' + 1 + 1 := ⟨k - 2, by omega⟩
  rw [hleft, hafter, after]
  rcases hend with ⟨err, houtcome, hround⟩ | ⟨result, houtcome, hround⟩
  · rw [hlast.round hround] at hround
    rw [turn_poised_error live standard hround, after_finished, houtcome]
    rfl
  · rw [hlast.round hround] at hround
    rw [turn_poised_ok live standard hround, after, turn_resting_still live, after_finished,
      houtcome]
    rfl

/-- An iterator hands out the programs that its program comes to, one in two turns. -/
theorem output_poised (hsuits : grip.Suits interp program) (n : Nat) :
    output .iterate interp n (poised grip program) =
      successive (n / 2) program (interp.environment grip.layer) := by
  -- two turns at a time: one makes a step, and one hands out what the step has left
  induction n using Nat.twoStepInduction generalizing program with
  | zero => rfl
  | one =>
    rw [output, action_poised live]
    rfl
  | more n ih =>
    rw [output, action_poised live, Nat.add_div_right n Nat.two_pos, successive]
    cases hround : (stepProgram .standard program).exec (interp.environment grip.layer) with
    | mk result env' =>
      obtain rfl := hsuits.round hround
      cases result with
      | error err =>
        rw [turn_poised_error live standard hround, output_finished]
        rfl
      | ok found =>
        obtain ⟨stepped, next⟩ := found
        rw [turn_poised_ok live standard hround, output]
        cases stepped with
        | false =>
          rw [action_resting_still live, turn_resting_still live, output_finished]
          rfl
        | true =>
          have hturn : (resting grip true next).turn .iterate interp = poised grip next := by
            rw [turn, action_resting_iterate live]
            rfl
          rw [action_resting_iterate live, hturn, ih (hsuits.step hround).2]
          rfl

end Live

/-- The driver is about to step the program, with the grip that it holds or with the one that it
will take. -/
inductive Begins (interp : Interpreter) (grip : Grip) (program : Program) : Driver → Prop where
  | poised : Begins interp grip program (.poised grip program)
  | unstarted {free : Bool} (takes : interp.grip free = grip) :
      Begins interp grip program (.unstarted free program)

namespace Begins

variable {driver : Driver}

theorem inPlace (h : driver.Begins interp grip program) (hsuits : grip.Suits interp program) :
    driver.InPlace interp grip := by
  cases h with
  | poised => exact ⟨rfl, hsuits⟩
  | unstarted takes => exact ⟨takes, hsuits⟩

theorem program_eq (h : driver.Begins interp grip program)
    (h' : driver.Begins interp grip program') : program' = program := by
  cases h with
  | poised =>
    cases h'
    rfl
  | unstarted takes =>
    cases h'
    rfl

theorem action_eq (h : driver.Begins interp grip program) (job : Job) :
    driver.action job interp = (Driver.poised grip program).action job interp := by
  cases h with
  | poised => rfl
  | unstarted takes =>
    subst takes
    rfl

/-- With its first turn a driver does what it does when it has its grip already. -/
theorem turn_eq (h : driver.Begins interp grip program) (job : Job) :
    driver.turn job interp = (Driver.poised grip program).turn job interp := by
  unfold turn
  rw [h.action_eq]
  simp only [action, attempt]
  cases grip.check interp with
  | error err => rfl
  | ok _ => rfl

theorem after_finished_iff (h : driver.Begins interp grip program) {n : Nat}
    {outcome : Except Error (Bool × Program)} :
    after job interp n driver = finished outcome ↔
      after job interp n (Driver.poised grip program) = finished outcome := by
  cases n with
  | zero =>
    cases h with
    | poised => rfl
    | unstarted takes => exact ⟨nofun, nofun⟩
  | succ n => rw [after, after, h.turn_eq]

theorem output_eq (h : driver.Begins interp grip program) (n : Nat) :
    output job interp n driver = output job interp n (Driver.poised grip program) := by
  cases n with
  | zero => rfl
  | succ n => rw [output, output, h.action_eq, h.turn_eq]

end Begins

end Driver

/-! ## Turns in any order -/

namespace Worker

variable {worker : Worker}

theorem action_of_free (hfree : worker.doomed = false) (interp : Interpreter) :
    worker.action interp = worker.driver.action worker.job interp := by
  unfold action
  rw [hfree]
  rfl

theorem turn_of_free (hfree : worker.doomed = false) (interp : Interpreter) :
    (worker.turn interp).1 =
      { worker with driver := worker.driver.turn worker.job interp } := by
  unfold turn
  rw [action_of_free hfree]
  rfl

/-- Nobody is about to cancel the worker, and its driver runs its program in place. -/
structure InPlace (interp : Interpreter) (grip : Grip) (worker : Worker) : Prop where
  free : worker.doomed = false
  driver : worker.driver.InPlace interp grip

theorem InPlace.turn (h : worker.InPlace interp grip) (standard : interp.macros = .standard) :
    (worker.turn interp).2 = interp ∧ (worker.turn interp).1.InPlace interp grip := by
  obtain ⟨hinterp, hdriver⟩ := Driver.perform_inPlace standard h.driver
    (Driver.action_inPlace h.driver worker.job)
  unfold Worker.turn
  rw [action_of_free h.free]
  exact ⟨hinterp, h.free, hdriver⟩

end Worker

namespace Workshop

variable {w : Workshop} {i : Nat} {worker : Worker}

/-- The workshop after turns of its workers in the order. -/
def turns (w : Workshop) (order : List Nat) : Workshop :=
  order.foldl turn w

/-- What a worker hands out with its next turn. -/
def offer (w : Workshop) (i : Nat) : List Program :=
  match w.workers[i]? with
  | none => []
  | some worker => (worker.action w.interp).output

/-- What a worker hands out in the course of turns, in the order in which it does. -/
def output (i : Nat) : List Nat → Workshop → List Program
  | [], _ => []
  | j :: order, w => (if j = i then w.offer i else []) ++ output i order (w.turn j)

/-- All that are at work are in place. -/
def InPlace (w : Workshop) (grip : Grip) : Prop :=
  ∀ (i : Nat) (worker : Worker), w.workers[i]? = some worker → worker.InPlace w.interp grip

/-- A turn leaves the interpreter as it is, and the workers in place. -/
theorem InPlace.turn (h : w.InPlace grip) (standard : w.interp.macros = .standard) (j : Nat) :
    (w.turn j).interp = w.interp ∧ (w.turn j).InPlace grip := by
  have hinterp : (w.turn j).interp = w.interp := by
    cases hworker : w.workers[j]? with
    | none =>
      unfold Workshop.turn
      rw [hworker]
    | some worker =>
      rw [turn_interp hworker]
      exact ((h j worker hworker).turn standard).1
  refine ⟨hinterp, fun i worker' hworker' => ?_⟩
  rw [hinterp]
  cases hworker : w.workers[i]? with
  | none =>
    have hlength : w.workers.length ≤ i := List.getElem?_eq_none_iff.mp hworker
    rw [List.getElem?_eq_none (by rwa [length_turn])] at hworker'
    cases hworker'
  | some worker =>
    rw [turn_getElem? hworker] at hworker'
    cases hworker'
    by_cases hj : j = i
    · rw [if_pos hj]
      exact ((h i worker hworker).turn standard).2
    · rw [if_neg hj]
      exact h i worker hworker

/-- In any order of turns a worker does what it does alone, with as many turns as it has in the
order. -/
theorem InPlace.turns (h : w.InPlace grip) (standard : w.interp.macros = .standard)
    (order : List Nat) (hworker : w.workers[i]? = some worker) :
    (w.turns order).interp = w.interp ∧
    (w.turns order).driver? i =
      some (worker.driver.after worker.job w.interp (order.count i)) ∧
    w.output i order = worker.driver.output worker.job w.interp (order.count i) := by
  induction order generalizing w worker with
  | nil =>
    refine ⟨rfl, ?_, rfl⟩
    show (w.workers[i]?).map Worker.driver = _
    rw [hworker]
    rfl
  | cons j order ih =>
    obtain ⟨hinterp, hnext⟩ := h.turn standard j
    have hworker' := turn_getElem? hworker j
    have hfree := (h i worker hworker).free
    obtain ⟨hsame, hdriver, houtput⟩ := ih hnext (by rw [hinterp, standard]) hworker'
    rw [hinterp] at hsame hdriver houtput
    have hturns : w.turns (j :: order) = (w.turn j).turns order := rfl
    rw [hturns, output, offer, hworker, houtput]
    refine ⟨hsame, ?_⟩
    by_cases hj : j = i
    · -- its own turn
      subst hj
      simp only [if_true, Worker.turn_of_free hfree] at hdriver ⊢
      rw [hdriver, List.count_cons_self, Worker.action_of_free hfree]
      exact ⟨rfl, rfl⟩
    · simp only [if_neg hj] at hdriver ⊢
      rw [hdriver, List.count_cons_of_ne hj, List.nil_append]
      exact ⟨rfl, rfl⟩

/-- Drivers that share a layer and are not cancelled agree with the evaluation of their programs,
whatever the order of their turns, if no program changes the layer. One that finishes does so with
the outcome of the evaluation, and with turns enough for an evaluation that ends it does finish; an
iterator hands out the programs that its program comes to, one after the other. -/
theorem drivers_agree (standard : w.interp.macros = .standard)
    (live : grip.check w.interp = .ok ())
    (inPlace : ∀ (i : Nat) (worker : Worker), w.workers[i]? = some worker →
      worker.doomed = false ∧ ∃ program, worker.driver.Begins w.interp grip program ∧
        program.RunsInPlace (w.interp.environment grip.layer))
    (order : List Nat) {i : Nat} {worker : Worker} (hworker : w.workers[i]? = some worker)
    {program : Program} (begins : worker.driver.Begins w.interp grip program)
    (hjob : worker.job ≠ .step) :
    (w.turns order).interp = w.interp ∧
    (∀ outcome, (w.turns order).driver? i = some (.finished outcome) →
      ∃ budget run, evaluate .standard budget program (w.interp.environment grip.layer) = some run ∧
        outcome = run.outcome.map (Prod.mk false)) ∧
    (∀ budget run, evaluate .standard budget program (w.interp.environment grip.layer) = some run →
      2 * run.steps + 2 ≤ order.count i →
        (w.turns order).driver? i = some (.finished (run.outcome.map (Prod.mk false)))) ∧
    (worker.job = .iterate → w.output i order =
      successive (order.count i / 2) program (w.interp.environment grip.layer)) := by
  have hall : w.InPlace grip := by
    intro i worker hworker
    obtain ⟨hfree, program, hbegins, hsuits⟩ := inPlace i worker hworker
    exact ⟨hfree, hbegins.inPlace hsuits⟩
  have hsuits : grip.Suits w.interp program := by
    obtain ⟨-, program', hbegins', hsuits⟩ := inPlace i worker hworker
    rwa [hbegins'.program_eq begins]
  obtain ⟨hinterp, hdriver, houtput⟩ := hall.turns standard order hworker
  rw [hdriver, houtput]
  refine ⟨hinterp, ?_, ?_, ?_⟩
  · intro outcome h
    rw [Option.some_inj, begins.after_finished_iff] at h
    obtain ⟨result, hends, rfl⟩ := Driver.after_poised_finished live standard hjob hsuits h
    obtain ⟨budget, run, hrun, rfl, -⟩ := ends_iff.mp hends
    exact ⟨budget, run, hrun, rfl⟩
  · intro budget run hrun hcount
    rw [Option.some_inj, begins.after_finished_iff]
    exact Driver.after_poised live standard hjob hsuits hrun hcount
  · intro hiterate
    rw [begins.output_eq, hiterate]
    exact Driver.output_poised live standard hsuits _

/-- `(not (not #t))` is evaluated while the steps of `(not (if #t #t #f))` are asked for: it comes
to `#t`, and they are `(not #t)` and `#f`. -/
theorem drivers_agree_interleaved :
    let evaluated := [.sequence [.symbol "not", .sequence [.symbol "not", .boolean true]]]
    let iterated := [.sequence [.symbol "not",
      .sequence [.symbol "if", .boolean true, .boolean true, .boolean false]]]
    let w := ((initial false).hire .evaluate (.unstarted false evaluated)).hire .iterate
      (.poised ((Interpreter.initial false).grip false) iterated)
    let order := [0, 1, 1, 0, 1, 0, 0, 1, 0, 0]
    (w.turns order).driver? 0 = some (.finished (.ok (false, [.boolean true]))) ∧
      w.output 1 order = [[.sequence [.symbol "not", .boolean true]], [.boolean false]] := by
  intro evaluated iterated w order
  have hevaluated : Program.RunsInPlace evaluated .fresh :=
    .of_step rfl (.of_step rfl (.of_still rfl))
  have hiterated : Program.RunsInPlace iterated .fresh :=
    .of_step rfl (.of_step rfl (.of_still rfl))
  let grip := w.interp.grip false
  have hall : ∀ (i : Nat) (worker : Worker), w.workers[i]? = some worker →
      worker.doomed = false ∧ ∃ program, worker.driver.Begins w.interp grip program ∧
        program.RunsInPlace (w.interp.environment grip.layer) := by
    intro i worker hworker
    match i, hworker with
    | 0, rfl => exact ⟨rfl, evaluated, .unstarted rfl, hevaluated⟩
    | 1, rfl => exact ⟨rfl, iterated, .poised, hiterated⟩
  have hfirst : w.workers[0]? = some ⟨.evaluate, .unstarted false evaluated, false, false⟩ := rfl
  have hsecond : w.workers[1]? =
      some ⟨.iterate, .poised grip iterated, false, false⟩ := rfl
  obtain ⟨-, -, hfinished, -⟩ := drivers_agree rfl rfl hall order hfirst (.unstarted rfl) nofun
  obtain ⟨-, -, -, houtput⟩ := drivers_agree rfl rfl hall order hsecond .poised nofun
  have hturns : order.count 1 / 2 = 2 := by decide
  refine ⟨hfinished 4 _ rfl (by decide), ?_⟩
  rw [houtput rfl, hturns]
  rfl

end Workshop

end Redex
