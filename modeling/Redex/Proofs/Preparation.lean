import Redex.Proofs.Cancellation

/-!
# Preparations

Which of the drivers under way a preparation cancels.

* **`Workshop.Orderly`** is the invariant of all interleavings from the start: every session but the
  current one has been cancelled, and a worker whose end is announced is tracked until it is done or
  doomed. **`Orderly.move`** keeps it through a move, and **`Orderly.reaches`** through any number.
* **`Prepares.halted`** — a preparation catches a driver that holds a session or is tracked.
* **`crosses_preparation_iff`** — a driver steps in the session that a preparation starts if and only
  if the preparation overlooks it: it is untracked and has not begun.
-/

namespace Redex

/-! ## The invariant of interleavings -/

/-- The grip with which the driver goes on after the action. -/
def Action.grip? : Action → Option Grip
  | step grip _ => some grip
  | handOut grip _ => some grip
  | _ => none

namespace Driver

theorem Available.session_le {driver : Driver} {interp : Interpreter} (h : driver.Available interp)
    {id : Nat} (hsession : driver.session? = some id) : id ≤ interp.current := by
  cases driver with
  | poised grip program => exact h id hsession
  | resting grip stepped program => cases h
  | unstarted free program => cases hsession
  | finished outcome => cases hsession
  | cancelled => cases hsession

theorem attempt_grip? {grip grip' : Grip} {program : Program} {interp : Interpreter}
    (h : (attempt grip program interp).grip? = some grip') : grip' = grip := by
  unfold attempt at h
  split at h
  · cases h
  · cases h
    rfl

/-- A driver goes on with the grip that it has, or takes one if it has not begun. -/
theorem action_grip? {job : Job} {driver : Driver} {interp : Interpreter} {grip : Grip}
    (h : (driver.action job interp).grip? = some grip) :
    driver.session? = grip.session ∨ ∃ free, grip = interp.grip free := by
  cases driver with
  | unstarted free given => exact Or.inr ⟨free, attempt_grip? h⟩
  | poised held given =>
    rw [attempt_grip? h]
    exact Or.inl rfl
  | resting held stepped given =>
    simp only [action] at h
    split at h
    · cases h
    · split at h
      · cases h
        exact Or.inl rfl
      · rw [attempt_grip? h]
        exact Or.inl rfl
      · cases h
  | finished outcome => cases h
  | cancelled => cases h

/-- A driver that holds a session after an action acted with a grip on it, or held it before. -/
theorem perform_session? {driver : Driver} {action : Action} {interp : Interpreter} {id : Nat}
    (h : (driver.perform action interp).1.session? = some id) :
    (∃ grip, action.grip? = some grip ∧ grip.session = some id) ∨ driver.session? = some id := by
  cases action with
  | step grip program =>
    simp only [perform] at h
    split at h
    · cases h
    · exact Or.inl ⟨grip, rfl, h⟩
  | handOut grip program => exact Or.inl ⟨grip, rfl, h⟩
  | finish outcome => cases h
  | abort => cases h
  | idle => exact Or.inr h

/-- After a turn a driver holds the session that it held before, or has taken hold of the current
one. -/
theorem resumed_session? {job : Job} {driver : Driver} {interp : Interpreter} {id : Nat}
    (h : (driver.perform (driver.action job interp) interp).1.session? = some id) :
    driver.session? = some id ∨ id = interp.current := by
  rcases perform_session? h with ⟨grip, hgrip, hsession⟩ | hheld
  · rcases action_grip? hgrip with hheld | ⟨free, rfl⟩
    · exact Or.inl (hheld.trans hsession)
    · cases free with
      | true => cases hsession
      | false =>
        cases hsession
        exact Or.inr rfl
  · exact Or.inl hheld

end Driver

/-- What holds of a worker, by the number of sessions and whether the worker is tracked. -/
structure Worker.Orderly (current : Nat) (tracked : Prop) (worker : Worker) : Prop where
  -- it holds a session that there is
  holds : ∀ id, worker.driver.session? = some id → id ≤ current
  announced : worker.doomed = true ∨ tracked → worker.announced = true
  -- it is tracked until it is done or doomed
  listed : worker.announced = true → worker.driver.isDone = false → worker.doomed = false → tracked

namespace Worker.Orderly

variable {current current' : Nat} {tracked tracked' : Prop} {worker : Worker} {interp : Interpreter}

theorem mono (h : worker.Orderly current tracked) (hle : current ≤ current')
    (hiff : tracked ↔ tracked') : worker.Orderly current' tracked' where
  holds id hsession := Nat.le_trans (h.holds id hsession) hle
  announced hor := h.announced (hor.imp_right hiff.mpr)
  listed ha hdone hdoomed := hiff.mp (h.listed ha hdone hdoomed)

theorem done (h : worker.Orderly current tracked) (hdone : worker.driver.isDone = true)
    (himp : tracked' → tracked) : worker.Orderly current tracked' where
  holds := h.holds
  announced hor := h.announced (hor.imp_right himp)
  listed _ hundone _ := by
    rw [hdone] at hundone
    cases hundone

theorem doom (h : worker.Orderly current tracked) (htracked : tracked) :
    worker.doom.Orderly current False := by
  cases hdone : worker.driver.isDone with
  | true =>
    rw [doom_of_done hdone]
    exact h.done hdone False.elim
  | false =>
    rw [doom_of_undone hdone]
    exact ⟨h.holds, fun _ => h.announced (Or.inr htracked), fun _ _ hdoomed => by cases hdoomed⟩

theorem turn (h : worker.Orderly interp.current tracked) :
    (worker.turn interp).1.Orderly interp.current tracked := by
  refine ⟨?_, h.announced, ?_⟩
  · intro id hsession
    change (worker.driver.perform (worker.action interp) interp).1.session? = some id at hsession
    unfold Worker.action at hsession
    split at hsession
    · cases hsession
    · rcases Driver.resumed_session? hsession with hheld | rfl
      · exact h.holds id hheld
      · exact Nat.le_refl _
  · intro hannounced hundone hdoomed
    apply h.listed hannounced _ hdoomed
    cases hdone : worker.driver.isDone with
    | false => rfl
    | true =>
      rw [Worker.turn_of_done hdone, hdone] at hundone
      cases hundone

end Worker.Orderly

namespace Workshop

variable {w w' : Workshop} {i id : Nat} {worker : Worker}

/-- What holds of a workshop whatever has happened in it. -/
structure Orderly (w : Workshop) : Prop where
  begun : 0 < w.interp.current
  superseded : Interpreter.Superseded w.interp.marks
  tracked : ∀ i ∈ w.tracked, i < w.workers.length
  workers : ∀ (i : Nat) (worker : Worker), w.workers[i]? = some worker →
    worker.Orderly w.interp.current (i ∈ w.tracked)

theorem initial_orderly (strict : Bool) : (initial strict).Orderly where
  begun := Nat.one_pos
  superseded n h := by
    have : n + 1 < 1 := h
    omega
  tracked i h := by cases h
  workers i worker h := by cases h

namespace Orderly

/-- The invariant looks at the sessions by their marks only. -/
theorem marked (h : Orderly w) {interp : Interpreter}
    (hmarks : Interpreter.Remarked w.interp.marks interp.marks) : Orderly { w with interp } := by
  have hle : w.interp.current ≤ interp.current := by
    rw [← Interpreter.length_marks, ← Interpreter.length_marks]
    exact hmarks.length_le
  refine ⟨Nat.lt_of_lt_of_le h.begun hle, hmarks.superseded h.superseded, h.tracked, ?_⟩
  intro i worker hworker
  exact (h.workers i worker hworker).mono hle Iff.rfl

theorem doomTracked (h : Orderly w) : Orderly w.doomTracked where
  begun := h.begun
  superseded := h.superseded
  tracked i hi := by cases hi
  workers i worker hworker := by
    rw [doomTracked_getElem?] at hworker
    obtain ⟨worker₀, hworker₀, rfl⟩ := Option.map_eq_some_iff.mp hworker
    have horderly := h.workers i worker₀ hworker₀
    have hnone : i ∉ w.doomTracked.tracked := List.not_mem_nil
    by_cases htracked : i ∈ w.tracked
    · rw [if_pos htracked]
      exact (horderly.doom htracked).mono (Nat.le_refl _) (iff_of_false id hnone)
    · rw [if_neg htracked]
      exact horderly.mono (Nat.le_refl _) (iff_of_false htracked hnone)

theorem turn (h : Orderly w) (i : Nat) : Orderly (w.turn i) := by
  have hmarks := w.turn_marks i
  have hcurrent : (w.turn i).interp.current = w.interp.current := by
    rw [← Interpreter.length_marks, hmarks, Interpreter.length_marks]
  refine ⟨?_, ?_, ?_, ?_⟩
  · rw [hcurrent]
    exact h.begun
  · rw [hmarks]
    exact h.superseded
  · rw [turn_tracked, length_turn]
    exact h.tracked
  · intro j worker hworker
    rw [hcurrent, turn_tracked]
    have hlt : j < w.workers.length := by
      rw [← w.length_turn i]
      exact (List.getElem?_eq_some_iff.mp hworker).1
    have hworker₀ := List.getElem?_eq_getElem hlt
    rw [turn_getElem? hworker₀ i] at hworker
    cases hworker
    by_cases hi : i = j
    · rw [if_pos hi]
      exact (h.workers j _ hworker₀).turn
    · rw [if_neg hi]
      exact h.workers j _ hworker₀

theorem hire (h : Orderly w) (job : Job) {driver : Driver} (hdriver : driver.Available w.interp) :
    Orderly (w.hire job driver) := by
  refine ⟨h.begun, h.superseded, ?_, ?_⟩
  · intro i hi
    exact Nat.lt_of_lt_of_le (h.tracked i hi) (List.length_append ▸ Nat.le_add_right _ _)
  · intro i worker hworker
    rcases append_cases hworker with hold | ⟨rfl, rfl⟩
    · exact h.workers i worker hold
    · refine ⟨fun id hsession => hdriver.session_le hsession, ?_, nofun⟩
      rintro (hdoomed | htracked)
      · cases hdoomed
      · exact absurd (h.tracked _ htracked) (Nat.lt_irrefl _)

theorem hireTracked (h : Orderly w) (program : Program) : Orderly (w.hireTracked program) := by
  have htracked : ∀ i, i ∈ (w.hireTracked program).tracked ↔
      i ∈ w.tracked ∨ i = w.workers.length := by
    intro i
    exact List.mem_append.trans (or_congr_right List.mem_singleton)
  refine ⟨h.begun, h.superseded, ?_, ?_⟩
  · intro i hi
    have hlength : (w.hireTracked program).workers.length = w.workers.length + 1 :=
      List.length_append
    rw [hlength]
    rcases (htracked i).mp hi with hi | rfl
    · exact Nat.lt_succ_of_lt (h.tracked i hi)
    · exact Nat.lt_succ_self _
  · intro i worker hworker
    rw [htracked]
    rcases append_cases hworker with hold | ⟨rfl, rfl⟩
    · have hlt : i < w.workers.length := (List.getElem?_eq_some_iff.mp hold).1
      refine (h.workers i worker hold).mono (Nat.le_refl _) ?_
      exact (or_iff_left (Nat.ne_of_lt hlt)).symm
    · exact ⟨nofun, fun _ => rfl, fun _ _ _ => Or.inr rfl⟩

theorem forget (h : Orderly w) (hdone : (w.driver? i).any Driver.isDone = true) :
    Orderly (w.forget i) := by
  refine ⟨h.begun, h.superseded, fun j hj => h.tracked j (List.mem_of_mem_erase hj), ?_⟩
  intro j worker hworker
  have horderly := h.workers j worker hworker
  by_cases hj : j = i
  · subst hj
    have hworker' : w.workers[j]? = some worker := hworker
    rw [driver?, hworker'] at hdone
    exact horderly.done hdone List.mem_of_mem_erase
  · exact horderly.mono (Nat.le_refl _) (List.mem_erase_of_ne hj).symm

theorem move (h : Orderly w) (hmove : Move w w') : Orderly w' := by
  have hmarks := hmove.marks
  cases hmove with
  | prepare hprepares =>
    cases hprepares with
    | prepare hexec => exact h.doomTracked.marked hmarks
    | run hexec => exact h.doomTracked.marked hmarks
  | cancel => exact h.doomTracked.marked hmarks
  | hire job hdriver => exact h.hire job hdriver
  | hireTracked program => exact h.hireTracked program
  | turn i => exact h.turn i
  | forget hdone => exact h.forget hdone
  | _ => exact h.marked hmarks

theorem reaches (h : Orderly w) (hreaches : Reaches w w') : Orderly w' := by
  induction hreaches with
  | refl => exact h
  | tail _ last ih => exact ih.move last

end Orderly

end Workshop

/-! ## Preparations -/

namespace Driver

def isUnstarted : Driver → Bool
  | unstarted .. => true
  | _ => false

/-- The driver looks at no session, now or when it begins. -/
def isFree : Driver → Bool
  | unstarted free _ => free
  | poised grip _ => grip.session.isNone
  | resting grip _ _ => grip.session.isNone
  | _ => false

/-- A driver that looks at a session is done, has not begun, or holds it. -/
theorem bound_cases {driver : Driver} (h : driver.isFree = false) :
    driver.isDone = true ∨ (∃ program, driver = unstarted false program) ∨
      ∃ id, driver.session? = some id := by
  have hheld : ∀ grip : Grip, grip.session.isNone = false → ∃ id, grip.session = some id := by
    intro grip hgrip
    exact Option.isSome_iff_exists.mp (Option.isNone_eq_false_iff.mp hgrip)
  cases driver with
  | unstarted free program =>
    cases h
    exact Or.inr (Or.inl ⟨program, rfl⟩)
  | poised grip program => exact Or.inr (Or.inr (hheld grip h))
  | resting grip stepped program => exact Or.inr (Or.inr (hheld grip h))
  | finished outcome => exact Or.inl rfl
  | cancelled => exact Or.inl rfl

theorem eq_unstarted {driver : Driver} (h : driver.isUnstarted = true)
    (hbound : driver.isFree = false) : ∃ program, driver = unstarted false program := by
  cases driver with
  | unstarted free program =>
    cases hbound
    exact ⟨program, rfl⟩
  | _ => cases h

end Driver

/-- A preparation does not see the worker: it has not begun, and its end is not announced to the
tracked set. -/
def Worker.isOverlooked (worker : Worker) : Bool :=
  worker.driver.isUnstarted && !worker.announced

namespace Workshop

variable {w w' : Workshop} {i : Nat} {worker : Worker} {strict : Bool}

/-- The next turn of the worker makes a step in the layer of the session. -/
def StepsIn (w : Workshop) (i layer : Nat) : Prop :=
  ∃ worker grip program, w.workers[i]? = some worker ∧
    worker.action w.interp = .step grip program ∧ grip.layer = layer

theorem Prepares.current (h : Prepares w w') : w'.interp.current = w.interp.current + 1 := by
  rw [← Interpreter.length_marks, h.marks, Interpreter.length_renewed, Interpreter.length_marks]

theorem Prepares.getElem? (h : Prepares w w') (hworker : w.workers[i]? = some worker) :
    w'.workers[i]? = some (if i ∈ w.tracked then worker.doom else worker) := by
  have hdoom : w.doomTracked.workers[i]? =
      some (if i ∈ w.tracked then worker.doom else worker) := by
    rw [doomTracked_getElem?, hworker]
    rfl
  cases h with
  | prepare h => exact hdoom
  | run h => exact hdoom

/-- The session that a preparation starts has not been cancelled. -/
theorem Prepares.fresh (h : Prepares w w') :
    (w'.interp.session w'.interp.current).cancelled = false := by
  rw [Interpreter.session_cancelled, h.current, h.marks, Nat.add_sub_cancel,
    ← Interpreter.length_marks, Interpreter.renewed_last]
  rfl

theorem Prepares.cancelled (h : Prepares w w') (horderly : w.Orderly) {id : Nat}
    (hid : id ≤ w.interp.current) : (w'.interp.session id).cancelled = true := by
  have hsuperseded := (horderly.move (.prepare h)).superseded
  have hbegun := horderly.begun
  rw [Interpreter.cancelled_iff]
  apply hsuperseded
  rw [Interpreter.length_marks, h.current]
  omega

/-- A worker that a preparation finds under way is doomed, or holds a session that has been
cancelled. -/
theorem Prepares.halted (h : Prepares w w') (horderly : w.Orderly)
    (hworker : w.workers[i]? = some worker) (hbound : worker.driver.isFree = false)
    (hdone : worker.driver.isDone = false) (hseen : worker.isOverlooked = false) :
    ∃ id worker', id ≤ w.interp.current ∧ w'.workers[i]? = some worker' ∧
      worker'.Halted id := by
  have hworkers := horderly.workers i worker hworker
  have hworker' := h.getElem? hworker
  by_cases htracked : i ∈ w.tracked
  · rw [if_pos htracked, Worker.doom_of_undone hdone] at hworker'
    exact ⟨_, _, Nat.le_refl _, hworker', .doomed rfl hdone⟩
  · rw [if_neg htracked] at hworker'
    cases hdoomed : worker.doomed with
    | true => exact ⟨_, _, Nat.le_refl _, hworker', .doomed hdoomed hdone⟩
    | false =>
      rcases Driver.bound_cases hbound with hdone' | ⟨program, hdriver⟩ | ⟨id, hsession⟩
      · rw [hdone] at hdone'
        cases hdone'
      · -- it has not begun, so it is announced, and then it would be tracked
        have hannounced : worker.announced = true := by
          unfold Worker.isOverlooked at hseen
          rw [hdriver] at hseen
          simpa [Driver.isUnstarted] using hseen
        exact absurd (hworkers.listed hannounced hdone hdoomed) htracked
      · exact ⟨id, worker, hworkers.holds id hsession, hworker', .held hdoomed hsession⟩

theorem Prepares.stops (h : Prepares w w') (horderly : w.Orderly)
    (hworker : w.workers[i]? = some worker) (hbound : worker.driver.isFree = false)
    (hdone : worker.driver.isDone = false) (hseen : worker.isOverlooked = false) :
    ∃ id ≤ w.interp.current, ∀ later, Reaches w' later →
      ∃ worker', later.workers[i]? = some worker' ∧ worker'.Stops id later.interp := by
  obtain ⟨id, worker', hid, hworker', hhalted⟩ :=
    h.halted horderly hworker hbound hdone hseen
  refine ⟨id, hid, ?_⟩
  intro later hlater
  exact hlater.stops (h.cancelled horderly hid) hworker' hhalted

theorem Prepares.not_stepsIn (h : Prepares w w') (horderly : w.Orderly)
    (hworker : w.workers[i]? = some worker) (hbound : worker.driver.isFree = false)
    (hseen : worker.isOverlooked = false) {later : Workshop} (hlater : Reaches w' later)
    (layer : Nat) : ¬ later.StepsIn i layer := by
  rintro ⟨worker₁, grip, program, hworker₁, haction, -⟩
  cases hdone : worker.driver.isDone with
  | true =>
    have hrun : Reaches w later := .head (.prepare h) hlater
    rw [hrun.done hworker hdone] at hworker₁
    cases hworker₁
    rw [Worker.action_of_done hdone] at haction
    cases haction
  | false =>
    obtain ⟨id, -, hall⟩ := h.stops horderly hworker hbound hdone hseen
    obtain ⟨worker₂, hworker₂, hstops⟩ := hall later hlater
    rw [hworker₁] at hworker₂
    cases hworker₂
    have hfruitless := hstops.fruitless
    rw [haction] at hfruitless
    cases hfruitless

/-- A worker that a preparation overlooks begins in the session that the preparation starts. -/
theorem Prepares.stepsIn_of_overlooked (h : Prepares w w') (horderly : w.Orderly)
    (hworker : w.workers[i]? = some worker) (hbound : worker.driver.isFree = false)
    (hoverlooked : worker.isOverlooked = true) : w'.StepsIn i w'.interp.current := by
  obtain ⟨hunstarted, hannounced⟩ := (Bool.and_eq_true _ _).mp hoverlooked
  have hunannounced : worker.announced = false := Bool.not_eq_true' _ ▸ hannounced
  have hworkers := horderly.workers i worker hworker
  have hout : ¬ (worker.doomed = true ∨ i ∈ w.tracked) := by
    intro hin
    rw [hworkers.announced hin] at hunannounced
    cases hunannounced
  obtain ⟨hundoomed, huntracked⟩ := not_or.mp hout
  have hworker' := h.getElem? hworker
  rw [if_neg huntracked] at hworker'
  obtain ⟨program, hdriver⟩ := Driver.eq_unstarted hunstarted hbound
  have hcheck : (w'.interp.grip false).check w'.interp = .ok () := by
    unfold Grip.check
    exact if_neg (by rw [h.fresh]; exact Bool.false_ne_true)
  refine ⟨worker, w'.interp.grip false, program, hworker', ?_, rfl⟩
  rw [Worker.action, Bool.eq_false_iff.mpr hundoomed, hdriver]
  show Driver.attempt (w'.interp.grip false) program w'.interp = _
  rw [Driver.attempt, hcheck]

/-- A driver that looks at a session, and that was put to work before a preparation, can step in the
session that the preparation starts if and only if the preparation overlooks it. Any other that was
not done makes no step at all from then on, and ends cancelled. -/
theorem crosses_preparation_iff (hreaches : Reaches (initial strict) w)
    (hworker : w.workers[i]? = some worker) (hbound : worker.driver.isFree = false)
    (hprepares : Prepares w w') :
    ((∃ later, Reaches w' later ∧ later.StepsIn i w'.interp.current) ↔
      worker.isOverlooked = true) ∧
    (worker.driver.isDone = false → worker.isOverlooked = false →
      ∃ id ≤ w.interp.current, ∀ later, Reaches w' later →
        ∃ worker', later.workers[i]? = some worker' ∧ worker'.Stops id later.interp) := by
  have horderly := (initial_orderly strict).reaches hreaches
  refine ⟨⟨?_, ?_⟩, hprepares.stops horderly hworker hbound⟩
  · rintro ⟨later, hlater, hsteps⟩
    cases hseen : worker.isOverlooked with
    | true => rfl
    | false =>
      exact absurd hsteps (hprepares.not_stepsIn horderly hworker hbound hseen hlater _)
  · intro hoverlooked
    exact ⟨w', .refl, hprepares.stepsIn_of_overlooked horderly hworker hbound hoverlooked⟩

/-- A program that defines a name is handed to two drivers before a preparation, and neither has
begun: the tracked one is cancelled, the other crosses. -/
theorem crosses_preparation_iff_unstarted :
    let program := [.sequence [.symbol "define", .symbol "x", .boolean true]]
    let w := ((initial false).hire .evaluate (.unstarted false program)).hireTracked program
    ∃ w', Prepares w w' ∧ (∃ later, Reaches w' later ∧ later.StepsIn 0 w'.interp.current) ∧
      ∃ id ≤ 1, ∀ later, Reaches w' later →
        ∃ worker, later.workers[1]? = some worker ∧ worker.Stops id later.interp := by
  intro program w
  have hhired : Reaches (initial false)
      ((initial false).hire .evaluate (.unstarted false program)) :=
    .single (.hire .evaluate trivial)
  have hreaches : Reaches (initial false) w := hhired.tail (.hireTracked program)
  have hprepare : (Interpreting.prepare 0 "" "").exec w.interp = some (.ok [], w.interp.renew) :=
    rfl
  have hprepares : Prepares w { w.doomTracked with interp := w.interp.renew } := .prepare hprepare
  exact ⟨_, hprepares, (crosses_preparation_iff hreaches rfl rfl hprepares).1.mpr rfl,
    (crosses_preparation_iff hreaches rfl rfl hprepares).2 rfl rfl⟩

/-- A preparation does not cancel every driver that is under way: one that has not begun defines a
name in the new session, and succeeds. -/
theorem unstarted_worker_crosses :
    let program := [.sequence [.symbol "define", .symbol "x", .boolean true]]
    let w := (initial false).hire .evaluate (.unstarted false program)
    ∃ w', Reaches (initial false) w ∧ Prepares w w' ∧ w'.StepsIn 0 w'.interp.current ∧
      w'.interp.userNames = [] ∧ (w'.turn 0).interp.userNames = ["x"] ∧
      (((w'.turn 0).turn 0).turn 0).driver? 0 = some (.finished (.ok (false, []))) := by
  intro program w
  have hprepare : (Interpreting.prepare 0 "" "").exec w.interp = some (.ok [], w.interp.renew) :=
    rfl
  exact ⟨{ w.doomTracked with interp := w.interp.renew }, .single (.hire .evaluate trivial),
    .prepare hprepare, ⟨_, _, _, rfl, rfl, rfl⟩, rfl, rfl, rfl⟩

end Workshop

end Redex
