import Mathlib.Logic.Relation
import Redex.Proofs.Sessions
import Redex.Scheduler.Basic

/-!
# Interleavings

The drivers of a workshop have turns in any order, between the operations of the interpreter that
they share. An operation and a turn are not interrupted.

* **`Workshop.Move`** is one operation or one turn, and **`Workshop.Reaches`** any number of them.
* **`Move.worker_cases`** — a move leaves a worker alone, dooms it if it is tracked, or gives it a turn.
* **`Move.marks`** — a move starts a session and cancels one at most, so that a session that has
  been cancelled stays so (**`Reaches.cancelled`**).
-/

namespace Redex

/-! ## Moves -/

/-- The driver can be put to work: it has not begun, or holds a session that there is. -/
def Driver.Available (interp : Interpreter) : Driver → Prop
  | unstarted .. => True
  | poised grip _ => ∀ id, grip.session = some id → id ≤ interp.current
  | _ => False

theorem Interpreter.grip_available (interp : Interpreter) (free : Bool) (program : Program) :
    (Driver.poised (interp.grip free) program).Available interp := by
  intro id h
  cases free with
  | true => cases h
  | false =>
    cases h
    exact Nat.le_refl _

namespace Workshop

/-- A preparation, by itself or with the evaluation of what was prepared. -/
inductive Prepares (w : Workshop) : Workshop → Prop where
  | prepare {budget : Nat} {definitions expression : String} {outcome : Except Error Program}
      {interp : Interpreter}
      (h : (Interpreting.prepare budget definitions expression).exec w.interp =
        some (outcome, interp)) : Prepares w { w.doomTracked with interp }
  | run {budget : Nat} {definitions expression : String}
      {outcome : Except Error (Except Error Program)} {interp : Interpreter}
      (h : (Interpreting.run budget definitions expression).exec w.interp =
        some (outcome, interp)) : Prepares w { w.doomTracked with interp }

/-- One operation of the interpreter, or one turn of a driver. -/
inductive Move (w : Workshop) : Workshop → Prop where
  | prepare {w' : Workshop} (h : w.Prepares w') : Move w w'
  | cancel : Move w w.cancel
  | step {program : Program} {outcome : Except Error (Except Error (Bool × Program))}
      {interp : Interpreter}
      (h : (Interpreting.stepAll program).exec w.interp = some (outcome, interp)) :
      Move w { w with interp }
  | evaluate {budget : Nat} {program : Program}
      {outcome : Except Error (Except Error Program)} {interp : Interpreter}
      (h : (Interpreting.evaluateAll budget program).exec w.interp = some (outcome, interp)) :
      Move w { w with interp }
  | eval {budget : Nat} {code : String} {outcome : Except Error Expr} {interp : Interpreter}
      (h : (Interpreting.eval budget code).exec w.interp = some (outcome, interp)) :
      Move w { w with interp }
  | hire (job : Job) {driver : Driver} (h : driver.Available w.interp) :
      Move w (w.hire job driver)
  | hireTracked (program : Program) : Move w (w.hireTracked program)
  | turn (i : Nat) : Move w (w.turn i)
  -- A worker that is done leaves the tracked set.
  | forget {i : Nat} (h : (w.driver? i).any Driver.isDone = true) : Move w (w.forget i)

def Reaches : Workshop → Workshop → Prop :=
  Relation.ReflTransGen Move

end Workshop

/-! ## What a move does to a worker -/

namespace Worker

theorem action_of_done {worker : Worker} (h : worker.driver.isDone = true)
    (interp : Interpreter) : worker.action interp = .idle := by
  unfold action
  rw [h, Bool.not_true, Bool.and_false]
  cases hdriver : worker.driver with
  | finished outcome => rfl
  | cancelled => rfl
  | _ =>
    rw [hdriver] at h
    cases h

theorem turn_of_done {worker : Worker} (h : worker.driver.isDone = true)
    (interp : Interpreter) : worker.turn interp = (worker, interp) := by
  unfold turn
  rw [action_of_done h]
  rfl

theorem doom_of_done {worker : Worker} (h : worker.driver.isDone = true) : worker.doom = worker :=
  if_pos h

theorem doom_of_undone {worker : Worker} (h : worker.driver.isDone = false) :
    worker.doom = { worker with doomed := true } := by
  unfold doom
  rw [h]
  rfl

end Worker

namespace Workshop

variable {w w' : Workshop} {i : Nat} {worker : Worker}

theorem doomTracked_getElem? (w : Workshop) (i : Nat) :
    w.doomTracked.workers[i]? =
      (w.workers[i]?).map fun worker => if i ∈ w.tracked then worker.doom else worker := by
  unfold doomTracked
  rw [List.getElem?_mapIdx]

theorem turn_getElem? (hworker : w.workers[i]? = some worker) (j : Nat) :
    (w.turn j).workers[i]? = some (if j = i then (worker.turn w.interp).1 else worker) := by
  unfold turn
  by_cases h : j = i
  · subst h
    have hlt : j < w.workers.length := (List.getElem?_eq_some_iff.mp hworker).1
    rw [hworker, if_pos rfl]
    simp only [List.getElem?_set_self hlt]
  · rw [if_neg h]
    cases w.workers[j]? with
    | none => exact hworker
    | some other =>
      simp only [List.getElem?_set_ne h]
      exact hworker

theorem turn_interp (hworker : w.workers[i]? = some worker) :
    (w.turn i).interp = (worker.turn w.interp).2 := by
  unfold turn
  rw [hworker]

theorem turn_tracked (w : Workshop) (i : Nat) : (w.turn i).tracked = w.tracked := by
  unfold turn
  cases w.workers[i]? <;> rfl

theorem length_turn (w : Workshop) (i : Nat) :
    (w.turn i).workers.length = w.workers.length := by
  unfold turn
  cases w.workers[i]? with
  | none => rfl
  | some worker => exact List.length_set

theorem append_getElem? (hworker : w.workers[i]? = some worker) (others : List Worker) :
    (w.workers ++ others)[i]? = some worker := by
  have hlt : i < w.workers.length := (List.getElem?_eq_some_iff.mp hworker).1
  rw [List.getElem?_append_left hlt]
  exact hworker

/-- A worker after one has been put to work is an old one or the new one. -/
theorem append_cases {new : Worker} (h : (w.workers ++ [new])[i]? = some worker) :
    w.workers[i]? = some worker ∨ i = w.workers.length ∧ worker = new := by
  rcases Nat.lt_or_ge i w.workers.length with hlt | hge
  · rw [List.getElem?_append_left hlt] at h
    exact Or.inl h
  · rw [List.getElem?_append_right hge, List.getElem?_singleton] at h
    split at h
    · cases h
      exact Or.inr ⟨by omega, rfl⟩
    · cases h

/-- What a move does to a worker: nothing, it dooms it if it is tracked, or it is its turn. -/
theorem Move.worker_cases (h : Move w w') (hworker : w.workers[i]? = some worker) :
    ∃ worker', w'.workers[i]? = some worker' ∧
      (worker' = worker ∨ i ∈ w.tracked ∧ worker' = worker.doom ∨
        worker.turn w.interp = (worker', w'.interp)) := by
  have hdoom : ∃ worker', w.doomTracked.workers[i]? = some worker' ∧
      (worker' = worker ∨ i ∈ w.tracked ∧ worker' = worker.doom) := by
    rw [doomTracked_getElem?, hworker]
    refine ⟨_, rfl, ?_⟩
    by_cases htracked : i ∈ w.tracked
    · exact Or.inr ⟨htracked, if_pos htracked⟩
    · exact Or.inl (if_neg htracked)
  cases h with
  | prepare h =>
    obtain ⟨worker', hworker', heffect⟩ := hdoom
    cases h with
    | prepare h => exact ⟨worker', hworker', heffect.imp_right Or.inl⟩
    | run h => exact ⟨worker', hworker', heffect.imp_right Or.inl⟩
  | cancel =>
    obtain ⟨worker', hworker', heffect⟩ := hdoom
    exact ⟨worker', hworker', heffect.imp_right Or.inl⟩
  | hire job h => exact ⟨worker, append_getElem? hworker _, Or.inl rfl⟩
  | hireTracked program => exact ⟨worker, append_getElem? hworker _, Or.inl rfl⟩
  | turn j =>
    refine ⟨_, turn_getElem? hworker j, ?_⟩
    by_cases h : j = i
    · subst h
      rw [if_pos rfl, turn_interp hworker]
      exact Or.inr (Or.inr rfl)
    · exact Or.inl (if_neg h)
  | _ => exact ⟨worker, hworker, Or.inl rfl⟩

/-- A worker that is done stays as it is. -/
theorem Move.done (h : Move w w') (hworker : w.workers[i]? = some worker)
    (hdone : worker.driver.isDone = true) : w'.workers[i]? = some worker := by
  obtain ⟨worker', hworker', rfl | ⟨-, rfl⟩ | hturn⟩ := h.worker_cases hworker
  · exact hworker'
  · rw [hworker', Worker.doom_of_done hdone]
  · rw [Worker.turn_of_done hdone] at hturn
    rw [hworker', (Prod.mk.inj hturn).1]

theorem Reaches.done (h : Reaches w w') (hworker : w.workers[i]? = some worker)
    (hdone : worker.driver.isDone = true) : w'.workers[i]? = some worker := by
  induction h with
  | refl => exact hworker
  | tail _ last ih => exact last.done ih hdone

theorem Reaches.isDone (h : Reaches w w') (hdone : (w.driver? i).any Driver.isDone = true) :
    (w'.driver? i).any Driver.isDone = true := by
  unfold driver? at hdone ⊢
  cases hworker : w.workers[i]? with
  | none =>
    rw [hworker] at hdone
    cases hdone
  | some worker =>
    rw [hworker] at hdone
    rw [h.done hworker hdone]
    exact hdone

end Workshop

/-! ## What a move does to the sessions -/

theorem Driver.perform_marks (driver : Driver) (action : Action) (interp : Interpreter) :
    (driver.perform action interp).2.marks = interp.marks := by
  cases action with
  | step grip program =>
    have hstep := interp.stepIn_marks grip.layer program
    simp only [perform]
    split
    · rename_i e left h
      rw [h] at hstep
      exact hstep
    · rename_i stepped next left h
      rw [h] at hstep
      exact hstep
  | _ => rfl

namespace Workshop

variable {w w' : Workshop}

theorem turn_marks (w : Workshop) (i : Nat) : (w.turn i).interp.marks = w.interp.marks := by
  unfold turn
  cases w.workers[i]? with
  | none => rfl
  | some worker => exact worker.driver.perform_marks (worker.action w.interp) w.interp

theorem Prepares.marks (h : Prepares w w') :
    w'.interp.marks = Interpreter.renewed w.interp.marks := by
  cases h with
  | prepare h => exact Interpreting.prepare_marking _ _ _ _ _ _ h
  | run h => exact Interpreting.run_marking _ _ _ _ _ _ h

/-- A move starts a session and cancels one at most. -/
theorem Move.marks (h : Move w w') : Interpreter.Remarked w.interp.marks w'.interp.marks := by
  cases h with
  | prepare h =>
    rw [h.marks]
    exact .renewed
  | cancel =>
    rw [show w.cancel.interp.marks = _ from w.interp.cancel_marks]
    exact .cancelled
  | step h =>
    rw [Interpreting.stepAll_marking _ _ _ _ h]
    exact .same
  | evaluate h =>
    rw [Interpreting.evaluateAll_marking _ _ _ _ _ h]
    exact .same
  | eval h =>
    rw [Interpreting.eval_marking _ _ _ _ _ h]
    exact .same
  | turn i =>
    rw [w.turn_marks i]
    exact .same
  | _ => exact .same

/-- A session that has been cancelled stays so. -/
theorem Move.cancelled (h : Move w w') {id : Nat}
    (hcancelled : (w.interp.session id).cancelled = true) :
    (w'.interp.session id).cancelled = true := by
  rw [Interpreter.cancelled_iff] at hcancelled ⊢
  exact h.marks.of_true hcancelled

theorem Reaches.cancelled (h : Reaches w w') {id : Nat}
    (hcancelled : (w.interp.session id).cancelled = true) :
    (w'.interp.session id).cancelled = true := by
  induction h with
  | refl => exact hcancelled
  | tail _ last ih => exact last.cancelled ih

end Workshop

end Redex
