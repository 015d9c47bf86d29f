import Redex.Proofs.Scheduling

/-!
# Cancellation

What is left to a driver when its session has been cancelled.

* **`Worker.Stops`** — a turn makes no step, hands nothing out and ends the worker.
* **`Worker.Halted`** is the invariant behind it: the worker is doomed, holds the session, or has
  ended. **`Move.halted`** keeps it through a move, and **`Reaches.halted`** through any number.
* **`cancelled_worker_stops`** — so a driver that holds a cancelled session makes no further step,
  whatever happens around it.
-/

namespace Redex

/-! ## A worker that ends -/

/-- The action makes a step, hands a program out, or ends with one. -/
def Action.isFruitful : Action → Bool
  | step .. => true
  | handOut .. => true
  | finish (.ok _) => true
  | _ => false

namespace Driver

/-- The session that the driver looks at, once it holds one. -/
def session? : Driver → Option Nat
  | poised grip _ => grip.session
  | resting grip _ _ => grip.session
  | _ => none

theorem isDone_of_session? {driver : Driver} {id : Nat} (h : driver.session? = some id) :
    driver.isDone = false := by
  cases driver with
  | finished outcome => cases h
  | cancelled => cases h
  | _ => rfl

theorem action_of_cancelled {driver : Driver} {id : Nat} {interp : Interpreter}
    (h : driver.session? = some id) (hcancelled : (interp.session id).cancelled = true)
    (job : Job) : driver.action job interp = .finish (.error (.cancelled id)) := by
  have hcheck : ∀ grip : Grip, grip.session = some id →
      grip.check interp = .error (.cancelled id) := by
    intro grip hgrip
    unfold Grip.check
    rw [hgrip]
    exact if_pos hcancelled
  cases driver with
  | poised grip program =>
    simp only [action, attempt]
    rw [hcheck grip h]
  | resting grip stepped program =>
    simp only [action]
    rw [hcheck grip h]
  | unstarted free program => cases h
  | finished outcome => cases h
  | cancelled => cases h

end Driver

namespace Worker

variable {id : Nat} {worker : Worker} {interp : Interpreter}

/-- The worker when it has been stopped: with the error of its session, unless it was cancelled
itself. -/
def stopped (id : Nat) (worker : Worker) : Worker :=
  { worker with
    driver := if worker.doomed then .cancelled else .finished (.error (.cancelled id)) }

/-- The worker has been stopped, or does nothing with its turn but end so. -/
structure Stops (id : Nat) (worker : Worker) (interp : Interpreter) : Prop where
  fruitless : (worker.action interp).isFruitful = false
  turn : worker.turn interp = (worker.stopped id, interp)

/-- The worker has been stopped, or will be: it is doomed or holds the session. -/
inductive Halted (id : Nat) (worker : Worker) : Prop where
  | doomed (h : worker.doomed = true) (hdone : worker.driver.isDone = false)
  | held (h : worker.doomed = false) (hsession : worker.driver.session? = some id)
  | ended (h : worker = worker.stopped id)

theorem Halted.stops (h : Halted id worker) (hcancelled : (interp.session id).cancelled = true) :
    worker.Stops id interp := by
  cases h with
  | doomed h hdone =>
    -- it is cancelled before it can look at the session
    have haction : worker.action interp = .abort := by
      unfold action
      rw [h, hdone]
      rfl
    refine ⟨by rw [haction]; rfl, ?_⟩
    unfold turn stopped
    rw [haction, h]
    rfl
  | held h hsession =>
    -- whether it waits for a step or rests after one, it looks at the session first
    have haction : worker.action interp = .finish (.error (.cancelled id)) := by
      unfold action
      rw [h]
      exact Driver.action_of_cancelled hsession hcancelled worker.job
    refine ⟨by rw [haction]; rfl, ?_⟩
    unfold turn stopped
    rw [haction, h]
    rfl
  | ended h =>
    have haction : worker.action interp = .idle := by
      rw [h]
      unfold action stopped
      cases worker.doomed <;> rfl
    refine ⟨by rw [haction]; rfl, ?_⟩
    unfold turn
    rw [haction, ← h]
    rfl

theorem halted_stopped (id : Nat) (worker : Worker) : Halted id (worker.stopped id) :=
  .ended rfl

theorem Halted.doom (h : Halted id worker) : Halted id worker.doom := by
  cases hdone : worker.driver.isDone with
  | true =>
    rw [doom_of_done hdone]
    exact h
  | false =>
    rw [doom_of_undone hdone]
    exact .doomed rfl hdone

end Worker

namespace Workshop

variable {w w' : Workshop} {i id : Nat} {worker : Worker}

theorem Move.halted (h : Move w w') (hcancelled : (w.interp.session id).cancelled = true)
    (hworker : w.workers[i]? = some worker) (hhalted : worker.Halted id) :
    ∃ worker', w'.workers[i]? = some worker' ∧ worker'.Halted id := by
  obtain ⟨worker', hworker', heffect⟩ := h.worker_cases hworker
  refine ⟨worker', hworker', ?_⟩
  rcases heffect with rfl | ⟨-, rfl⟩ | hturn
  · exact hhalted
  · exact hhalted.doom
  · rw [(hhalted.stops hcancelled).turn] at hturn
    rw [← (Prod.mk.inj hturn).1]
    exact worker.halted_stopped id

theorem Reaches.halted (h : Reaches w w') (hcancelled : (w.interp.session id).cancelled = true)
    (hworker : w.workers[i]? = some worker) (hhalted : worker.Halted id) :
    ∃ worker', w'.workers[i]? = some worker' ∧ worker'.Halted id := by
  induction h with
  | refl => exact ⟨worker, hworker, hhalted⟩
  | tail run last ih =>
    obtain ⟨worker₁, hworker₁, hhalted₁⟩ := ih
    exact last.halted (Reaches.cancelled run hcancelled) hworker₁ hhalted₁

theorem Reaches.stops (h : Reaches w w') (hcancelled : (w.interp.session id).cancelled = true)
    (hworker : w.workers[i]? = some worker) (hhalted : worker.Halted id) :
    ∃ worker', w'.workers[i]? = some worker' ∧ worker'.Stops id w'.interp := by
  obtain ⟨worker', hworker', hhalted'⟩ := h.halted hcancelled hworker hhalted
  exact ⟨worker', hworker', hhalted'.stops (h.cancelled hcancelled)⟩

/-- A driver that holds a cancelled session makes no step and hands nothing out in any state that
can follow: its next turn ends it and leaves the interpreter as it is. -/
theorem cancelled_worker_stops (hworker : w.workers[i]? = some worker)
    (hsession : worker.driver.session? = some id)
    (hcancelled : (w.interp.session id).cancelled = true) (later : Reaches w w') :
    ∃ worker', w'.workers[i]? = some worker' ∧ worker'.Stops id w'.interp := by
  have hhalted : worker.Halted id := by
    cases hdoomed : worker.doomed with
    | false => exact .held hdoomed hsession
    | true => exact .doomed hdoomed (Driver.isDone_of_session? hsession)
  exact later.stops hcancelled hworker hhalted

/-- A driver that rests after its step when the session is cancelled, and rests with the scheduler
once more. -/
theorem cancelled_worker_stops_resting :
    let program := [.sequence [.symbol "define", .symbol "x", .boolean true]]
    let s := ({ Scheduler.initial false with program }.spawn "t" false).rest.cancel
    s.interp.userNames = ["x"] ∧ (s.interp.session 1).cancelled = true ∧
      ∃ worker, s.rest.workers[0]? = some worker ∧ worker.Stops 1 s.rest.interp := by
  intro program s
  have hqueue : s.queue = [.task 0] := rfl
  have hsettled : s.Settled := by
    intro i hi
    rw [hqueue] at hi
    simp at hi
  have later := (s.rest_leads hsettled).1
  exact ⟨rfl, rfl, cancelled_worker_stops rfl rfl rfl later⟩

end Workshop

end Redex
