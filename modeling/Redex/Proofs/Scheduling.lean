import Redex.Proofs.Interleaving
import Redex.Scheduler.Command

/-!
# Scheduling

The scheduler gives turns in one of the orders in which the drivers of a workshop may have them, so
what holds along every interleaving holds of a scheduler under any commands.

* **`Leads`** — the workshop of a scheduler comes to another by moves. A worker leaves the tracked
  set when it is done, for which the queue has to be **`Settled`**.
* **`rest_leads`** and **`drive_leads`** — resting and driving are moves.
* **`perform_leads`** — so is every command, and **`Commanded.reaches`** a whole session of them.
-/

namespace Redex

namespace Scheduler

open Workshop (Reaches)

variable {s s' s'' : Scheduler}

/-- The workers whose removal stands in the queue are done. -/
def Settled (s : Scheduler) : Prop :=
  ∀ i, .removal i ∈ s.queue → (s.driver? i).any Driver.isDone = true

/-- The scheduler comes to the other by moves of its workshop, if it was settled. -/
def Leads (s s' : Scheduler) : Prop :=
  s.Settled → Reaches s.toWorkshop s'.toWorkshop ∧ s'.Settled

namespace Leads

theorem trans (h : Leads s s') (h' : Leads s' s'') : Leads s s'' := by
  intro hsettled
  obtain ⟨hreaches, hsettled'⟩ := h hsettled
  obtain ⟨hreaches', hsettled''⟩ := h' hsettled'
  exact ⟨hreaches.trans hreaches', hsettled''⟩

/-- Moves that leave the queue alone. -/
theorem of_reaches (h : Reaches s.toWorkshop s'.toWorkshop) (hqueue : s'.queue = s.queue) :
    Leads s s' := by
  intro hsettled
  refine ⟨h, ?_⟩
  intro i hi
  rw [hqueue] at hi
  exact h.isDone (hsettled i hi)

theorem refl (s : Scheduler) : Leads s s :=
  of_reaches .refl rfl

end Leads

/-! ## Turns -/

theorem turn_leads (s : Scheduler) (i : Nat) : Leads s (s.turn i) :=
  .of_reaches (.single (.turn i)) rfl

/-- The removal of a worker is queued when it is done. -/
theorem removal_mem_follow {i j : Nat} (h : .removal j ∈ s.follow i) :
    (s.driver? j).any Driver.isDone = true := by
  unfold follow at h
  unfold Workshop.driver?
  split at h
  · cases h
  · rename_i worker hworker
    split at h
    · cases h with
      | tail _ h => cases h
    · rename_i hdone
      split at h
      · cases h with
        | head =>
          rw [hworker]
          simpa using hdone
        | tail _ h => cases h
      · cases h

theorem runEntry_leads (s : Scheduler) {entry : Entry}
    (hentry : ∀ i, entry = .removal i → (s.driver? i).any Driver.isDone = true) :
    Leads s (s.runEntry entry) := by
  cases entry with
  | removal i => exact .of_reaches (.single (.forget (hentry i rfl))) rfl
  | task i =>
    intro hsettled
    obtain ⟨hreaches, hsettled'⟩ := s.turn_leads i hsettled
    refine ⟨hreaches, ?_⟩
    intro j hj
    rcases List.mem_append.mp hj with hold | hnew
    · exact hsettled' j hold
    · exact removal_mem_follow (s := s.turn i) hnew

/-- The entries are run one after the other; those of workers that are done stay so. -/
theorem foldl_leads (entries : List Entry) (s : Scheduler)
    (hentries : ∀ i, .removal i ∈ entries → (s.driver? i).any Driver.isDone = true) :
    Leads s (entries.foldl runEntry s) := by
  induction entries generalizing s with
  | nil => exact .refl s
  | cons entry entries ih =>
    intro hsettled
    have hfirst : Leads s (s.runEntry entry) := by
      apply s.runEntry_leads
      rintro i rfl
      exact hentries i List.mem_cons_self
    have hreaches := (hfirst hsettled).1
    have hrest : ∀ i, .removal i ∈ entries →
        ((s.runEntry entry).driver? i).any Driver.isDone = true := by
      intro i hi
      exact hreaches.isDone (hentries i (List.mem_cons_of_mem _ hi))
    exact hfirst.trans (ih (s.runEntry entry) hrest) hsettled

theorem rest_leads (s : Scheduler) : Leads s s.rest := by
  intro hsettled
  have hempty : Leads { s with queue := [] } s.rest := foldl_leads s.queue _ hsettled
  exact hempty nofun

theorem restTimes_leads (n : Nat) (s : Scheduler) : Leads s (restTimes n s) := by
  induction n generalizing s with
  | zero => exact .refl s
  | succ n ih => exact s.rest_leads.trans (ih s.rest)

theorem drive_leads {i budget : Nat} (h : drive i budget s = some s') : Leads s s' := by
  induction budget generalizing s with
  | zero => cases h
  | succ budget ih =>
    simp only [drive] at h
    split at h
    · exact (s.turn_leads i).trans ((rest_leads _).trans (ih h))
    · cases h
      exact s.turn_leads i

theorem next_leads {name : String} {outcome : Except Error (Option Program)}
    (h : next name s = some (outcome, s')) : Leads s s' := by
  unfold next at h
  split at h
  · cases h
    exact .refl s
  · split at h
    · cases h
      exact .refl s
    · obtain ⟨s₁, hdrive, hanswer⟩ := Option.map_eq_some_iff.mp h
      have hleads := drive_leads hdrive
      split at hanswer
      · cases hanswer
        exact hleads
      · cases hanswer
        exact hleads
      · cases hanswer
        exact hleads

theorem collect_leads {name : String} {budget : Nat} {outcome : Except Error (List Program)}
    (h : collect name budget s = some (outcome, s')) : Leads s s' := by
  induction budget generalizing s outcome with
  | zero => cases h
  | succ budget ih =>
    rw [collect] at h
    split at h
    · cases h
    · rename_i hnext
      cases h
      exact next_leads hnext
    · rename_i hnext
      cases h
      exact next_leads hnext
    · rename_i program s₁ hnext
      obtain ⟨⟨rest, s₂⟩, hcollect, hanswer⟩ := Option.map_eq_some_iff.mp h
      cases hanswer
      exact (next_leads hnext).trans (ih hcollect)

theorem awaitTask_leads {name : String} {budget : Nat} (h : awaitTask name budget s = some s') :
    Leads s s' := by
  induction budget generalizing s with
  | zero => cases h
  | succ budget ih =>
    rw [awaitTask] at h
    split at h
    · cases h
      exact .refl _
    · split at h
      · cases h
        exact .refl _
      · exact (rest_leads _).trans (ih h)

/-- What is answered may change the program that commands work on, and no more. -/
theorem interpret_leads {α : Type} {s₀ : Scheduler} {m : Interpreting α}
    {answer : α → Scheduler → Answer × Scheduler} {a : Answer}
    (hanswer : ∀ a s, Leads s (answer a s).2)
    (hmove : ∀ outcome interp, m.exec s.interp = some (outcome, interp) →
      Leads s₀ { s with interp })
    (h : s.interpret m answer = some (a, s')) : Leads s₀ s' := by
  unfold interpret at h
  obtain ⟨⟨outcome, interp⟩, hexec, hresult⟩ := Option.map_eq_some_iff.mp h
  have hleads := hmove outcome interp hexec
  cases outcome with
  | ok value =>
    have hlast : (answer value { s with interp }).2 = s' := congrArg Prod.snd hresult
    rw [← hlast]
    exact hleads.trans (hanswer value _)
  | error e =>
    cases hresult
    exact hleads

theorem take_leads (program : Program) (s : Scheduler) : Leads s (take program s).2 :=
  .of_reaches .refl rfl

theorem takeStep_leads (outcome : Except Error (Bool × Program)) (s : Scheduler) :
    Leads s (takeStep outcome s).2 := by
  cases outcome with
  | ok result => exact .of_reaches .refl rfl
  | error e => exact .refl s

theorem employ_leads {job : Job} {free : Bool} {budget : Nat}
    {answer : Except Error (Bool × Program) → Scheduler → Answer × Scheduler} {a : Answer}
    (hanswer : ∀ outcome s, Leads s (answer outcome s).2)
    (h : s.employ job free budget answer = some (a, s')) : Leads s s' := by
  unfold employ at h
  obtain ⟨s₁, hdrive, hresult⟩ := Option.map_eq_some_iff.mp h
  have hhire : Leads s (s.hire job (.unstarted free s.program)) :=
    .of_reaches (.single (.hire job trivial)) rfl
  have hleads := hhire.trans (drive_leads hdrive)
  split at hresult
  · rename_i outcome hdriver
    have hlast : (answer outcome s₁).2 = s' := congrArg Prod.snd hresult
    rw [← hlast]
    exact hleads.trans (hanswer outcome s₁)
  · cases hresult
    exact hleads

theorem spawn_leads (s : Scheduler) (name : String) (tracked : Bool) :
    Leads s (s.spawn name tracked) := by
  intro hsettled
  have hreaches : Reaches s.toWorkshop (s.spawn name tracked).toWorkshop := by
    cases tracked with
    | true => exact .single (.hireTracked s.program)
    | false => exact .single (.hire .evaluate trivial)
  refine ⟨hreaches, ?_⟩
  intro i hi
  rcases List.mem_append.mp hi with hold | hnew
  · exact hreaches.isDone (hsettled i hold)
  · cases hnew with
    | tail _ h => cases h

/-! ## Commands -/

/-- A command comes to moves of the workshop. -/
theorem perform_leads {budget : Nat} {command : Command} {answer : Answer}
    (h : perform budget command s = some (answer, s')) : Leads s s' := by
  match command with
  | .prepare definitions expression =>
    refine interpret_leads take_leads ?_ h
    intro outcome interp hexec
    exact .of_reaches (.single (.prepare (.prepare hexec))) rfl
  | .run definitions expression =>
    refine interpret_leads (fun _ s => .refl s) ?_ h
    intro outcome interp hexec
    exact .of_reaches (.single (.prepare (.run hexec))) rfl
  | .read source =>
    refine interpret_leads take_leads ?_ h
    intro outcome interp hexec
    rw [Interpreting.read_exec] at hexec
    cases hexec
    exact .refl s
  | .step true => exact employ_leads takeStep_leads h
  | .step false =>
    refine interpret_leads takeStep_leads ?_ h
    intro outcome interp hexec
    exact .of_reaches (.single (.step hexec)) rfl
  | .evaluate true => exact employ_leads (fun _ s => .refl s) h
  | .evaluate false =>
    refine interpret_leads (fun _ s => .refl s) ?_ h
    intro outcome interp hexec
    exact .of_reaches (.single (.evaluate hexec)) rfl
  | .evaluateFree =>
    refine employ_leads ?_ h
    intro outcome s
    cases outcome with
    | ok result => exact .refl s
    | error e => exact .refl s
  | .eval code =>
    refine interpret_leads (fun _ s => .refl s) ?_ h
    intro outcome interp hexec
    exact .of_reaches (.single (.eval hexec)) rfl
  | .lookup name =>
    cases h
    exact .refl s
  | .cancel =>
    cases h
    exact .of_reaches (.single .cancel) rfl
  | .iterate name free =>
    cases h
    exact .of_reaches (.single (.hire .iterate (s.interp.grip_available free s.program))) rfl
  | .next name =>
    obtain ⟨⟨outcome, s₁⟩, hnext, hresult⟩ := Option.map_eq_some_iff.mp h
    have hlast : s₁ = s' := by
      match outcome with
      | .ok (some program) => exact congrArg Prod.snd hresult
      | .ok none => exact congrArg Prod.snd hresult
      | .error e => exact congrArg Prod.snd hresult
    exact hlast ▸ next_leads hnext
  | .collect name =>
    obtain ⟨⟨outcome, s₁⟩, hcollect, hresult⟩ := Option.map_eq_some_iff.mp h
    have hlast : s₁ = s' := by
      cases outcome with
      | ok programs => exact congrArg Prod.snd hresult
      | error e => exact congrArg Prod.snd hresult
    exact hlast ▸ collect_leads hcollect
  | .spawn name tracked =>
    cases h
    exact s.spawn_leads name tracked
  | .tick n =>
    cases h
    exact restTimes_leads n s
  | .status name =>
    cases h
    exact .refl s
  | .await name =>
    obtain ⟨s₁, hawait, hresult⟩ := Option.map_eq_some_iff.mp h
    cases hresult
    exact awaitTask_leads hawait

/-- A scheduler that has been given commands from the start. -/
inductive Commanded (strict : Bool) : Scheduler → Prop where
  | initial : Commanded strict (.initial strict)
  | perform {s s' : Scheduler} {budget : Nat} {command : Command} {answer : Answer}
      (h : Commanded strict s) (hperform : perform budget command s = some (answer, s')) :
      Commanded strict s'

/-- Whatever the commands were, the workshop has come to where it is by moves. -/
theorem Commanded.reaches {strict : Bool} (h : Commanded strict s) :
    Reaches (.initial strict) s.toWorkshop ∧ s.Settled := by
  induction h with
  | initial => exact ⟨.refl, nofun⟩
  | perform _ hperform ih =>
    obtain ⟨hreaches, hsettled⟩ := ih
    obtain ⟨hreaches', hsettled'⟩ := perform_leads hperform hsettled
    exact ⟨hreaches.trans hreaches', hsettled'⟩

end Scheduler

end Redex
