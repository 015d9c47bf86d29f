import Redex.Interpreter.Basic

/-!
# Sessions

Which sessions an interpreter has and which of them have been cancelled, and what its operations
make of that.

* **`Interpreter.marks`** lists for every session whether it has been cancelled, and
  **`Interpreting.Marking`** says what an operation makes of the list, however it ends.
* **`prepare_marking`** and **`run_marking`** — a preparation cancels the current session and starts
  another; every other operation leaves the list as it is.
-/

namespace Redex

namespace Interpreter

variable (interp : Interpreter)

/-- For every session, the oldest first, whether it has been cancelled. -/
def marks : List Bool :=
  interp.sessions.map Session.cancelled

theorem length_marks : interp.marks.length = interp.current :=
  List.length_map _

theorem session_cancelled (id : Nat) :
    (interp.session id).cancelled = (interp.marks[id - 1]?).getD false := by
  unfold session marks
  rw [List.getElem?_map]
  cases interp.sessions[id - 1]? with
  | none => rfl
  | some s => rfl

theorem cancelled_iff {id : Nat} :
    (interp.session id).cancelled = true ↔ interp.marks[id - 1]? = some true := by
  rw [session_cancelled]
  cases interp.marks[id - 1]? with
  | none => simp
  | some mark => simp

@[simp] theorem note_marks (notice : Notice) : (interp.note notice).marks = interp.marks := rfl

@[simp] theorem withEnvironment_marks (id : Nat) (env : Environment) :
    (interp.withEnvironment id env).marks = interp.marks := by
  apply List.ext_getElem?
  intro n
  simp only [marks, withEnvironment, List.getElem?_map, List.getElem?_modify]
  cases interp.sessions[n]? with
  | none => rfl
  | some s =>
    by_cases h : id - 1 = n
    · simp [h]
    · simp [h]

@[simp] theorem stepIn_marks (id : Nat) (program : Program) :
    (interp.stepIn id program).2.marks = interp.marks :=
  interp.withEnvironment_marks id _

@[simp] theorem stepNoted_marks (program : Program) :
    (interp.stepNoted program).2.marks = interp.marks := by
  have hstep := interp.stepIn_marks interp.current program
  unfold stepNoted
  split
  · rename_i e interp' h
    rw [h] at hstep
    by_cases hreported : e.isReported = true
    · simpa [hreported] using hstep
    · simpa [hreported] using hstep
  · rename_i result interp' h
    rw [h] at hstep
    exact hstep

/-- The marks when the current session has been cancelled. -/
def lastCancelled (marks : List Bool) : List Bool :=
  marks.modify (marks.length - 1) fun _ => true

/-- The marks when it has been cancelled and another session has started. -/
def renewed (marks : List Bool) : List Bool :=
  lastCancelled marks ++ [false]

@[simp] theorem length_lastCancelled (marks : List Bool) :
    (lastCancelled marks).length = marks.length :=
  List.length_modify ..

@[simp] theorem length_renewed (marks : List Bool) :
    (renewed marks).length = marks.length + 1 := by
  unfold renewed
  rw [List.length_append, length_lastCancelled, List.length_singleton]

theorem lastCancelled_of_true {marks : List Bool} {n : Nat} (h : marks[n]? = some true) :
    (lastCancelled marks)[n]? = some true := by
  unfold lastCancelled
  rw [List.getElem?_modify, h]
  by_cases hlast : marks.length - 1 = n
  · simp [hlast]
  · simp [hlast]

theorem lastCancelled_last {marks : List Bool} (h : marks ≠ []) :
    (lastCancelled marks)[marks.length - 1]? = some true := by
  have hlt : marks.length - 1 < marks.length := by
    have := List.length_pos_iff.mpr h
    omega
  unfold lastCancelled
  rw [List.getElem?_modify, List.getElem?_eq_getElem hlt]
  simp

theorem renewed_of_true {marks : List Bool} {n : Nat} (h : marks[n]? = some true) :
    (renewed marks)[n]? = some true := by
  have hcancelled := lastCancelled_of_true h
  have hlt : n < (lastCancelled marks).length := (List.getElem?_eq_some_iff.mp hcancelled).1
  unfold renewed
  rw [List.getElem?_append_left hlt]
  exact hcancelled

theorem renewed_last (marks : List Bool) : (renewed marks)[marks.length]? = some false := by
  unfold renewed
  rw [← length_lastCancelled, List.getElem?_concat_length]

/-- Every session but the current one has been cancelled. -/
def Superseded (marks : List Bool) : Prop :=
  ∀ n, n + 1 < marks.length → marks[n]? = some true

theorem Superseded.lastCancelled {marks : List Bool} (h : Superseded marks) :
    Superseded (lastCancelled marks) := by
  intro n hn
  rw [length_lastCancelled] at hn
  exact lastCancelled_of_true (h n hn)

theorem Superseded.renewed {marks : List Bool} (h : Superseded marks) :
    Superseded (renewed marks) := by
  intro n hn
  rw [length_renewed] at hn
  have hlt : n < (Interpreter.lastCancelled marks).length := by
    rw [length_lastCancelled]
    omega
  unfold Interpreter.renewed
  rw [List.getElem?_append_left hlt]
  by_cases hlast : n = marks.length - 1
  · subst hlast
    exact lastCancelled_last (List.length_pos_iff.mp (by omega))
  · exact lastCancelled_of_true (h n (by omega))

/-- What may become of the marks: nothing, the current session is cancelled, or another one also
starts. -/
inductive Remarked (marks : List Bool) : List Bool → Prop where
  | same : Remarked marks marks
  | cancelled : Remarked marks (lastCancelled marks)
  | renewed : Remarked marks (renewed marks)

namespace Remarked

variable {marks marks' : List Bool}

theorem of_true (h : Remarked marks marks') {n : Nat} (hn : marks[n]? = some true) :
    marks'[n]? = some true := by
  cases h with
  | same => exact hn
  | cancelled => exact lastCancelled_of_true hn
  | renewed => exact renewed_of_true hn

theorem length_le (h : Remarked marks marks') : marks.length ≤ marks'.length := by
  cases h with
  | same => exact Nat.le_refl _
  | cancelled => exact Nat.le_of_eq (length_lastCancelled marks).symm
  | renewed =>
    rw [length_renewed]
    exact Nat.le_succ _

theorem superseded (h : Remarked marks marks') (hmarks : Superseded marks) :
    Superseded marks' := by
  cases h with
  | same => exact hmarks
  | cancelled => exact hmarks.lastCancelled
  | renewed => exact hmarks.renewed

end Remarked

theorem cancel_marks : interp.cancel.marks = lastCancelled interp.marks := by
  unfold lastCancelled
  rw [length_marks]
  apply List.ext_getElem?
  intro n
  simp only [marks, cancel, cancelSession, List.getElem?_map, List.getElem?_modify]
  cases interp.sessions[n]? with
  | none => rfl
  | some s =>
    by_cases h : interp.current - 1 = n
    · simp [h]
    · simp [h]

theorem renew_marks : interp.renew.marks = renewed interp.marks := by
  unfold renewed
  rw [← cancel_marks]
  simp only [renew, marks, note, List.map_append]
  rfl

end Interpreter

namespace Interpreting

variable {α β : Type}

/-- An operation runs its first part and, unless that failed, the rest from the interpreter that the
first part left. -/
theorem exec_bind (m : Interpreting α) (f : α → Interpreting β) (interp : Interpreter) :
    (m >>= f).exec interp =
      match m.exec interp with
      | none => none
      | some (.ok a, interp') => (f a).exec interp'
      | some (.error e, interp') => some (.error e, interp') := by
  unfold exec
  simp only [bind, ExceptT.bind, ExceptT.mk, ExceptT.run, StateT.run, StateT.bind]
  cases m interp with
  | none => rfl
  | some result =>
    obtain ⟨outcome, interp'⟩ := result
    cases outcome <;> rfl

theorem exec_tryCatch (m : Interpreting α) (handler : Error → Interpreting α)
    (interp : Interpreter) :
    (tryCatch m handler).exec interp =
      match m.exec interp with
      | none => none
      | some (.ok a, left) => some (.ok a, left)
      | some (.error e, left) => (handler e).exec left := by
  unfold exec
  simp only [tryCatch, tryCatchThe, MonadExceptOf.tryCatch, ExceptT.tryCatch, ExceptT.run,
    ExceptT.mk, StateT.run, bind, StateT.bind]
  cases m interp with
  | none => rfl
  | some result =>
    obtain ⟨outcome, left⟩ := result
    cases outcome <;> rfl

/-- The operation makes `f` of the marks of the sessions, whether it succeeds or fails. -/
def Marking (f : List Bool → List Bool) (m : Interpreting α) : Prop :=
  ∀ interp outcome interp', m.exec interp = some (outcome, interp') → interp'.marks = f interp.marks

namespace Marking

variable {f : List Bool → List Bool}

theorem pure (a : α) : Marking id (Pure.pure a : Interpreting α) := by
  intro interp outcome interp' h
  cases h
  rfl

theorem bind {m : Interpreting α} {g : α → Interpreting β} (hm : Marking f m)
    (hg : ∀ a, Marking id (g a)) : Marking f (m >>= g) := by
  intro interp outcome interp' h
  rw [exec_bind] at h
  split at h
  · cases h
  · rename_i a interp₁ hfirst
    rw [hg a _ _ _ h, id, hm _ _ _ hfirst]
  · rename_i e interp₁ hfirst
    cases h
    exact hm _ _ _ hfirst

end Marking

theorem read_exec (source : String) (interp : Interpreter) :
    (read source).exec interp = some (interp.read source, interp) := by
  show (lift (interp.read source)).exec interp = _
  cases interp.read source <;> rfl

theorem read_marking (source : String) : Marking id (read source) := by
  intro interp outcome interp' h
  rw [read_exec] at h
  cases h
  rfl

/-- An evaluation is the run of the program in the current session. -/
theorem evaluate_exec (budget : Nat) (program : Program) (interp : Interpreter) :
    (evaluate budget program).exec interp =
      (Redex.evaluate interp.macros budget program (interp.environment interp.current)).map
        fun run =>
          let left := interp.withEnvironment interp.current run.env
          match run.outcome with
          | .ok values => (.ok values, left.note (.settled run.steps))
          | .error e => (.error e, left) := by
  have hget : (get : Interpreting Interpreter).exec interp = some (.ok interp, interp) := rfl
  unfold evaluate
  rw [exec_bind, hget]
  simp only [exec_bind]
  cases Redex.evaluate interp.macros budget program (interp.environment interp.current) with
  | none => rfl
  | some run =>
    obtain ⟨outcome, env, steps⟩ := run
    cases outcome <;> rfl

theorem evaluate_marking (budget : Nat) (program : Program) :
    Marking id (evaluate budget program) := by
  intro interp outcome interp' h
  rw [evaluate_exec] at h
  obtain ⟨run, -, hrun⟩ := Option.map_eq_some_iff.mp h
  simp only at hrun
  split at hrun
  · cases hrun
    exact interp.withEnvironment_marks _ _
  · cases hrun
    exact interp.withEnvironment_marks _ _

/-- A report is made of what the operation left, and adds a notice at most. -/
theorem report_exec (notice : Error → Option Notice) (m : Interpreting α) (interp : Interpreter) :
    (report notice m).exec interp =
      (m.exec interp).map fun (outcome, left) =>
        match outcome with
        | .ok a => (.ok (.ok a), left)
        | .error e =>
          if e.isReported then (.ok (.error e), ((notice e).map Interpreter.note).getD id left)
          else (.error e, left) := by
  unfold report
  rw [exec_bind, exec_tryCatch, exec_bind]
  cases m.exec interp with
  | none => rfl
  | some result =>
    obtain ⟨outcome, left⟩ := result
    cases outcome with
    | ok a => rfl
    | error e =>
      by_cases hreported : e.isReported = true
      · simp only [Option.map_some, hreported, if_true]
        cases notice e with
        | none => rfl
        | some n => rfl
      · simp only [Option.map_some, hreported]
        rfl

theorem report_marking {f : List Bool → List Bool} {notice : Error → Option Notice}
    {m : Interpreting α} (h : Marking f m) : Marking f (report notice m) := by
  intro interp outcome interp' hexec
  rw [report_exec] at hexec
  obtain ⟨⟨result, left⟩, hm, hresult⟩ := Option.map_eq_some_iff.mp hexec
  rw [← h interp result left hm]
  match result with
  | .ok a =>
    cases hresult
    rfl
  | .error e =>
    by_cases hreported : e.isReported = true
    · simp only [hreported, if_true] at hresult
      cases hresult
      cases notice e with
      | none => rfl
      | some n => exact left.note_marks n
    · simp only [hreported] at hresult
      cases hresult
      rfl

theorem stepAll_exec (program : Program) (interp : Interpreter) :
    ∃ outcome, (stepAll program).exec interp = some (outcome, (interp.stepNoted program).2) := by
  have hget : (get : Interpreting Interpreter).exec interp = some (.ok interp, interp) := rfl
  unfold stepAll
  rw [exec_bind, hget]
  simp only [exec_bind]
  cases interp.stepNoted program with
  | mk outcome left =>
    cases outcome with
    | ok result => exact ⟨_, rfl⟩
    | error e =>
      by_cases h : e.isReported = true
      · exact ⟨.ok (.error e), by simp [h]; rfl⟩
      · exact ⟨.error e, by simp [h]; rfl⟩

theorem stepAll_marking (program : Program) : Marking id (stepAll program) := by
  intro interp outcome interp' h
  obtain ⟨outcome', hexec⟩ := stepAll_exec program interp
  rw [hexec] at h
  cases h
  exact interp.stepNoted_marks program

theorem evaluateAll_marking (budget : Nat) (program : Program) :
    Marking id (evaluateAll budget program) :=
  report_marking (evaluate_marking budget program)

theorem eval_marking (budget : Nat) (code : String) : Marking id (eval budget code) :=
  (read_marking code).bind fun program =>
    (evaluate_marking budget program).bind fun _ => .pure _

/-- A preparation cancels the current session and starts another, whether its definitions and its
expression can be read and run or not. -/
theorem prepare_marking (budget : Nat) (definitions expression : String) :
    Marking Interpreter.renewed (prepare budget definitions expression) := by
  have hrenew : Marking Interpreter.renewed (modify Interpreter.renew) := by
    intro interp outcome interp' h
    cases h
    exact interp.renew_marks
  unfold prepare
  apply hrenew.bind
  intro _
  split
  · exact (read_marking definitions).bind fun program =>
      (evaluate_marking budget program).bind fun _ => read_marking expression
  · exact read_marking expression

theorem run_marking (budget : Nat) (definitions expression : String) :
    Marking Interpreter.renewed (run budget definitions expression) := by
  unfold run
  apply (report_marking (prepare_marking budget definitions expression)).bind
  intro outcome
  cases outcome with
  | ok program => exact evaluateAll_marking budget program
  | error e => exact .pure _

end Interpreting

end Redex
