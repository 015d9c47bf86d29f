import Redex.Proofs.Reading
import Redex.Expr.Printer
import Redex.Interpreter.Basic

/-!
# The text of a program that does not step

A round that does not count as a step still takes symbols for the procedures that they name. Whether
the text of the program is the same afterwards depends on the names of these procedures alone.

* **`ShownAsNamed`** says that each procedure which a top-level symbol names shows as that symbol.
* **`oneLine_nameClass`** — no name in a run breaks a line, so a program can be read off its text
  form by form.
* **`stepProgram_text_iff`** — an unstepped program keeps its text if and only if its symbols are
  shown as named.
* **`Reachable`** is a program under way after a preparation, **`Reachable.sound`** the invariant of
  all such programs, and **`Reachable.carried`** hands them the properties that a step keeps.
-/

namespace Redex

/-! ## Lines -/

/-- A text without a line break. -/
def OneLine (s : String) : Prop :=
  '\n' ∉ s.toList

instance (s : String) : Decidable (OneLine s) :=
  inferInstanceAs (Decidable ('\n' ∉ s.toList))

theorem OneLine.append {s t : String} (hs : OneLine s) (ht : OneLine t) : OneLine (s ++ t) := by
  unfold OneLine at *
  rw [String.toList_append, List.mem_append]
  exact fun h => h.elim hs ht

theorem IsWord.oneLine {s : String} (h : IsWord s) : OneLine s := by
  intro hmem
  have hdelimiter := h '\n' hmem
  revert hdelimiter
  decide

theorem oneLine_nameClass : NameClass OneLine where
  anonymous := by decide
  builtin b := by
    have hall : ∀ b ∈ Builtin.all, '\n' ∉ b.name.toList := by decide +kernel
    exact hall b (Builtin.mem_all b)
  constructor tag h := OneLine.append (by decide) h
  predicate tag h := h.append (by decide)
  accessor tag field htag hfield := (htag.append (by decide)).append hfield

theorem Environment.fresh_oneLine : Environment.fresh.NamesIn OneLine := by
  have hcarries : Environment.fresh.Carries (Expr.NamesIn OneLine) :=
    Environment.fresh_carries fun b => .native (oneLine_nameClass.builtin b)
  exact ⟨hcarries.user, hcarries.builtins⟩

/-- A line break ends a line: what stands before the first break is the first line. -/
theorem OneLine.append_inj {s t s' t' : String} (hs : OneLine s) (ht : OneLine t)
    (h : s ++ "\n" ++ s' = t ++ "\n" ++ t') : s = t ∧ s' = t' := by
  -- along the characters of the first line; a break in one line alone would be a break in the other
  have hchars : ∀ (xs ys : List Char) {xs' ys' : List Char}, '\n' ∉ xs → '\n' ∉ ys →
      xs ++ '\n' :: xs' = ys ++ '\n' :: ys' → xs = ys ∧ xs' = ys' := by
    intro xs
    induction xs with
    | nil =>
      intro ys xs' ys' _ hys heq
      cases ys with
      | nil =>
        cases heq
        exact ⟨rfl, rfl⟩
      | cons y ys =>
        cases heq
        exact absurd List.mem_cons_self hys
    | cons x xs ih =>
      intro ys xs' ys' hxs hys heq
      cases ys with
      | nil =>
        cases heq
        exact absurd List.mem_cons_self hxs
      | cons y ys =>
        injection heq with hhead htail
        obtain ⟨rfl, rfl⟩ := ih ys (fun h => hxs (List.mem_cons_of_mem x h))
          (fun h => hys (List.mem_cons_of_mem y h)) htail
        exact ⟨by rw [hhead], rfl⟩
  have hlists := congrArg String.toList h
  simp only [String.toList_append] at hlists
  obtain ⟨hfirst, hrest⟩ := hchars s.toList t.toList hs ht (by simpa using hlists)
  exact ⟨String.toList_inj.mp hfirst, String.toList_inj.mp hrest⟩

/-! ## Texts -/

variable {env env' : Environment} {e f : Expr} {program program' : Program}

/-- The procedures that the top-level symbols of a program name are shown by these symbols. -/
def ShownAsNamed (env : Environment) (program : Program) : Prop :=
  ∀ name f, .symbol name ∈ program → env.get? name = some f → f.isFunction = true →
    f.surface = name

theorem surfaceAll_eq_map (items : List Expr) : Expr.surfaceAll items = items.map Expr.surface := by
  induction items with
  | nil => rfl
  | cons e items ih => rw [Expr.surfaceAll, ih, List.map_cons]

theorem oneLine_surface (hf : f.isFunction = true) (h : Expr.NamesIn OneLine f) :
    OneLine f.surface := by
  cases f with
  | native p =>
    cases h with
    | native h => exact h
  | closure params body name =>
    cases h with
    | closure h hbody => exact h
  | _ => cases hf

/-- Taking symbols for procedures keeps the text of the forms if and only if it keeps the text of
each form: only lines without a break change. -/
theorem surface_named_iff (henv : env.NamesIn OneLine) (forms : List Expr)
    (hforms : ∀ e ∈ forms, Expr.NamesIn OneLine e) :
    Program.surface (forms.map env.named) = Program.surface forms ↔
      ∀ e ∈ forms, (env.named e).surface = e.surface := by
  unfold Program.surface
  rw [surfaceAll_eq_map, surfaceAll_eq_map]
  induction forms with
  | nil => simp
  | cons e forms ih =>
    obtain ⟨he, hrest⟩ := List.forall_mem_cons.mp hforms
    cases forms with
    | nil => simp
    | cons e₁ forms =>
      have ih := ih hrest
      simp only [List.map_cons, String.intercalate_cons_cons] at ih ⊢
      rw [List.forall_mem_cons, ← ih]
      constructor
      -- a form that changes is a line of its own before and behind, so the texts split there
      · intro h
        rcases env.named_cases e with hnamed | ⟨name, f, rfl, hget, hf, hnamed⟩
        · rw [hnamed] at h ⊢
          exact ⟨rfl, String.append_right_inj _ |>.mp h⟩
        · rw [hnamed] at h ⊢
          exact OneLine.append_inj (oneLine_surface hf (henv.get? hget)) he.name h
      · rintro ⟨hhead, htail⟩
        rw [hhead, htail]

/-- A program that does not step keeps its text if and only if its symbols are shown as named. -/
theorem stepProgram_text_iff (henv : env.NamesIn OneLine)
    (hprogram : ∀ e ∈ program, Expr.NamesIn OneLine e ∧ e.isUndefined = false)
    (h : (stepProgram .standard program).exec env = (.ok (false, program'), env')) :
    program'.surface = program.surface ↔ ShownAsNamed env program := by
  obtain ⟨-, rfl, -⟩ := stepProgram_still h
  -- no form is the result of a definition, so none leaves the program
  have hrebuild : rebuild (program.map env.named) = program.map env.named := by
    refine List.filter_eq_self.mpr ?_
    intro x hx
    obtain ⟨e, he, rfl⟩ := List.mem_map.mp hx
    rcases env.named_cases e with hnamed | ⟨name, f, -, -, hf, hnamed⟩
    · rw [hnamed, (hprogram e he).2]
      rfl
    · rw [hnamed]
      cases f with
      | native p => rfl
      | closure params body name => rfl
      | _ => cases hf
  rw [hrebuild, surface_named_iff henv program fun e he => (hprogram e he).1]
  constructor
  · intro hall name f hmem hget hf
    have hname := hall _ hmem
    rw [Environment.named_of_function hget hf] at hname
    exact hname
  · intro hshown e he
    rcases env.named_cases e with hnamed | ⟨name, f, rfl, hget, hf, hnamed⟩
    · rw [hnamed]
    · rw [hnamed]
      exact hshown name f he hget hf

/-- The results of definitions leave a program with the step that made them. -/
theorem stepProgram_defined {stepped : Bool}
    (h : (stepProgram .standard program).exec env = (.ok (stepped, program'), env')) :
    ∀ e ∈ program', e.isUndefined = false := by
  have hrebuild : ∀ forms : List Expr, ∀ e ∈ rebuild forms, e.isUndefined = false := by
    intro forms e he
    simpa using (List.mem_filter.mp he).2
  rcases stepProgram_cases program env with
    ⟨err, hexec⟩ | ⟨-, hexec⟩ | ⟨before, e, after, e', env₁, -, -, -, hexec⟩
  · rw [hexec] at h
    cases h
  · rw [hexec] at h
    cases h
    exact hrebuild _
  · rw [hexec] at h
    cases h
    exact hrebuild _

/-! ## Interpreters -/

namespace Interpreter

@[simp] theorem current_withEnvironment (interp : Interpreter) (id : Nat) (env : Environment) :
    (interp.withEnvironment id env).current = interp.current := List.length_modify ..

/-- The environment that stepping in the current session left is the one that the session has. -/
theorem environment_withEnvironment {interp : Interpreter} (h : interp.sessions ≠ [])
    (env : Environment) :
    (interp.withEnvironment interp.current env).environment interp.current = env := by
  have hpos : 0 < interp.sessions.length := List.length_pos_iff.mpr h
  have hlt : interp.current - 1 < interp.sessions.length := by
    unfold current
    omega
  unfold environment session
  simp only [withEnvironment, List.getElem?_modify_eq, List.getElem?_eq_getElem hlt]
  rfl

theorem withEnvironment_sessions_ne {interp : Interpreter} (h : interp.sessions ≠ []) (id : Nat)
    (env : Environment) : (interp.withEnvironment id env).sessions ≠ [] := by
  have hlength : (interp.withEnvironment id env).sessions.length = interp.sessions.length :=
    List.length_modify ..
  rw [← List.length_pos_iff] at h ⊢
  rwa [hlength]

/-- What holds of an interpreter between its operations: it has the standard special forms and a
session, and no name bound in the session breaks a line. -/
structure Sound (interp : Interpreter) : Prop where
  standard : interp.macros = .standard
  sessions : interp.sessions ≠ []
  names : (interp.environment interp.current).NamesIn OneLine

theorem Sound.withEnvironment {interp : Interpreter} (h : interp.Sound) {env : Environment}
    (henv : env.NamesIn OneLine) : (interp.withEnvironment interp.current env).Sound := by
  refine ⟨h.standard, withEnvironment_sessions_ne h.sessions _ _, ?_⟩
  rw [current_withEnvironment, environment_withEnvironment h.sessions]
  exact henv

/-- A preparation starts with an empty user layer in front of the built-ins. -/
theorem renew_environment (interp : Interpreter) :
    interp.renew.environment interp.renew.current = ⟨Layer.empty, interp.builtins⟩ := by
  simp [renew, environment, session, current, note, cancel, cancelSession, Session.fresh]

theorem renew_sessions_ne (interp : Interpreter) : interp.renew.sessions ≠ [] := by
  simp [renew, note]

/-- One step of the current session: the step of the program in its environment. -/
theorem stepNoted_ok {interp interp' : Interpreter} {program : Program}
    {result : Bool × Program} (h : interp.stepNoted program = (.ok result, interp')) :
    ∃ env', (stepProgram interp.macros program).exec (interp.environment interp.current) =
      (.ok result, env') ∧ interp' = interp.withEnvironment interp.current env' := by
  unfold stepNoted stepIn at h
  cases hexec : (stepProgram interp.macros program).exec (interp.environment interp.current) with
  | mk outcome env' =>
    rw [hexec] at h
    cases outcome with
    | error err => cases h
    | ok stepped =>
      cases h
      exact ⟨env', rfl, rfl⟩

theorem stepNoted_of_exec {interp : Interpreter} {program : Program} {result : Bool × Program}
    {env' : Environment}
    (h : (stepProgram interp.macros program).exec (interp.environment interp.current) =
      (.ok result, env')) :
    interp.stepNoted program = (.ok result, interp.withEnvironment interp.current env') := by
  unfold stepNoted stepIn
  rw [h]

end Interpreter

/-! ## Preparations -/

namespace Interpreting

variable {α β : Type} {interp interp' : Interpreter}

/-- A computation that succeeds: its first part does, and the rest from what that left. -/
theorem exec_bind_ok {m : Interpreting α} {f : α → Interpreting β} {b : β}
    (h : (m >>= f).exec interp = some (.ok b, interp')) :
    ∃ a interp₁, m.exec interp = some (.ok a, interp₁) ∧
      (f a).exec interp₁ = some (.ok b, interp') := by
  unfold exec at h ⊢
  simp only [bind, ExceptT.bind, ExceptT.mk, ExceptT.run, StateT.run, StateT.bind] at h ⊢
  cases hm : m interp with
  | none =>
    rw [hm] at h
    cases h
  | some result =>
    obtain ⟨outcome, interp₁⟩ := result
    rw [hm] at h
    cases outcome with
    | error err => cases h
    | ok a => exact ⟨a, interp₁, rfl, h⟩

theorem read_ok {source : String} {program : Program}
    (h : (read source).exec interp = some (.ok program, interp')) :
    readProgram interp.strict source = .ok program ∧ interp' = interp := by
  have hexec : (read source).exec interp = some (interp.read source, interp) := by
    show (lift (interp.read source)).exec interp = _
    cases interp.read source <;> rfl
  rw [hexec] at h
  cases hread : interp.read source with
  | error err =>
    rw [hread] at h
    cases h
  | ok forms =>
    rw [hread] at h
    cases h
    exact ⟨hread, rfl⟩

/-- An evaluation that succeeds: the run of the program in the current session, and what it
leaves. -/
theorem evaluate_ok {budget : Nat} {program values : Program}
    (h : (evaluate budget program).exec interp = some (.ok values, interp')) :
    ∃ run, Redex.evaluate interp.macros budget program (interp.environment interp.current) =
        some run ∧ run.outcome = .ok values ∧
      interp' = (interp.withEnvironment interp.current run.env).note (.settled run.steps) := by
  obtain ⟨interp₀, interp₁, hget, h⟩ := exec_bind_ok h
  cases hget
  obtain ⟨run, interp₁, hrun, h⟩ := exec_bind_ok h
  cases heval : Redex.evaluate interp.macros budget program (interp.environment interp.current) with
  | none =>
    rw [heval] at hrun
    cases hrun
  | some run' =>
    rw [heval] at hrun
    cases hrun
    cases houtcome : run.outcome with
    | error err =>
      simp only [houtcome] at h
      cases h
    | ok results =>
      simp only [houtcome] at h
      cases h
      exact ⟨run, rfl, houtcome, rfl⟩

/-- A preparation that succeeds: the definitions are read and run from a fresh environment, and the
expression is read. -/
theorem prepare_ok {budget : Nat} {strict : Bool} {definitions expression : String}
    {program : Program}
    (h : (prepare budget definitions expression).exec (.initial strict) =
      some (.ok program, interp)) :
    interp.macros = .standard ∧ interp.sessions ≠ [] ∧
      (∃ forms n last, readProgram strict definitions = .ok forms ∧
        StepsTo n forms .fresh last (interp.environment interp.current)) ∧
      readProgram strict expression = .ok program := by
  unfold prepare at h
  obtain ⟨_, interp₁, hrenew, hbody⟩ := exec_bind_ok h
  cases hrenew
  have hfresh := Interpreter.renew_environment (.initial strict)
  have hsessions := Interpreter.renew_sessions_ne (.initial strict)
  split at hbody
  · obtain ⟨forms, interp₂, hread, hrest⟩ := exec_bind_ok hbody
    obtain ⟨values, interp₃, heval, hlast⟩ := exec_bind_ok hrest
    -- the definitions are run first, and the expression is read in what they left
    obtain ⟨hforms, rfl⟩ := read_ok hread
    obtain ⟨run, hrun, houtcome, rfl⟩ := evaluate_ok heval
    obtain ⟨hprogram, rfl⟩ := read_ok hlast
    rw [hfresh] at hrun
    obtain ⟨n, last, env, hsteps, -, ⟨err, herror, -⟩ | ⟨result, -, hend⟩⟩ := runFrom_cases hrun
    · rw [herror] at houtcome
      cases houtcome
    · obtain ⟨-, -, henv⟩ := stepProgram_still hend
      have hleft := Interpreter.environment_withEnvironment hsessions run.env
      rw [← henv, ← hleft] at hsteps
      exact ⟨rfl, Interpreter.withEnvironment_sessions_ne hsessions _ _,
        ⟨forms, n, last, hforms, hsteps⟩, hprogram⟩
  · rename_i hempty
    obtain ⟨hprogram, rfl⟩ := read_ok hbody
    -- no definitions are an empty program of them
    have hnone : definitions = "" := by simpa using hempty
    subst hnone
    have hread : readProgram strict "" = .ok [] := by cases strict <;> rfl
    refine ⟨rfl, hsessions, ⟨[], 0, [], hread, ?_⟩, hprogram⟩
    rw [hfresh]
    exact .refl _ _

theorem prepare_sound {budget : Nat} {strict : Bool} {definitions expression : String}
    {program : Program}
    (h : (prepare budget definitions expression).exec (.initial strict) =
      some (.ok program, interp)) :
    interp.Sound ∧ ∀ e ∈ program, Expr.NamesIn OneLine e ∧ e.isUndefined = false := by
  obtain ⟨hmacros, hsessions, ⟨forms, n, last, hforms, hsteps⟩, hprogram⟩ := prepare_ok h
  have hdefinitions := readProgram_namesIn (fun _ => IsWord.oneLine) hforms
  obtain ⟨-, henv⟩ := hsteps.namesIn oneLine_nameClass Environment.fresh_oneLine
    fun e he => (hdefinitions e he).1
  exact ⟨⟨hmacros, hsessions, henv⟩, readProgram_namesIn (fun _ => IsWord.oneLine) hprogram⟩

end Interpreting

/-! ## Programs under way -/

/-- A program under way, with the interpreter that it is stepped by: as it was prepared from texts,
or as a step has left it. -/
inductive Reachable (strict : Bool) (budget : Nat) (definitions expression : String) :
    Program → Interpreter → Prop where
  | prepared {program : Program} {interp : Interpreter}
      (h : (Interpreting.prepare budget definitions expression).exec (.initial strict) =
        some (.ok program, interp)) :
      Reachable strict budget definitions expression program interp
  | stepped {program next : Program} {interp interp' : Interpreter} {counted : Bool}
      (h : Reachable strict budget definitions expression program interp)
      (step : interp.stepNoted program = (.ok (counted, next), interp')) :
      Reachable strict budget definitions expression next interp'
  -- The notices of the interpreter are taken from it.
  | noticed {program : Program} {interp : Interpreter}
      (h : Reachable strict budget definitions expression program interp) :
      Reachable strict budget definitions expression program { interp with journal := [] }

variable {strict : Bool} {budget : Nat} {definitions expression : String}
variable {interp interp' : Interpreter}

/-- The invariant of programs under way: no name breaks a line, and no form is the result of a
definition. -/
theorem Reachable.sound (h : Reachable strict budget definitions expression program interp) :
    interp.Sound ∧ ∀ e ∈ program, Expr.NamesIn OneLine e ∧ e.isUndefined = false := by
  induction h with
  | prepared h => exact Interpreting.prepare_sound h
  | stepped h step ih =>
    obtain ⟨hsound, hprogram⟩ := ih
    obtain ⟨env', hexec, rfl⟩ := Interpreter.stepNoted_ok step
    rw [hsound.standard] at hexec
    obtain ⟨hnext, henv⟩ := stepProgram_namesIn oneLine_nameClass hsound.names
      (fun e he => (hprogram e he).1) hexec
    exact ⟨hsound.withEnvironment henv, fun e he => ⟨hnext e he, stepProgram_defined hexec e he⟩⟩
  | noticed h ih =>
    obtain ⟨hsound, hprogram⟩ := ih
    exact ⟨⟨hsound.standard, hsound.sessions, hsound.names⟩, hprogram⟩

/-- Properties that a step keeps are had by the items and the bindings of all programs under way, if
what is read has them, and unless a step loses a part. -/
theorem Reachable.carried {I R : Expr → Prop} (hR : Expr.Stepped I R)
    (admits : ∀ env env', Environment.Admits I env env')
    (builtin : ∀ b, I (.native (.builtin b))) (written : ∀ e, e.Written IsWord → I e)
    (defined : I .undefined ∨ ∀ forms, readProgram strict definitions = .ok forms →
      ∀ n program env, StepsTo n forms .fresh program env → ¬ program.LosesPart env)
    (kept : I .undefined ∨ ∀ program interp,
      Reachable strict budget definitions expression program interp →
        ¬ program.LosesPart (interp.environment interp.current))
    (h : Reachable strict budget definitions expression program interp) :
    (∀ e ∈ program, I e) ∧ (interp.environment interp.current).Carries I := by
  have hread : ∀ {text : String} {forms : Program}, readProgram strict text = .ok forms →
      ∀ e ∈ forms, I e :=
    fun hforms e he => written e (readProgram_written (fun _ h => h) hforms e he)
  induction h with
  | prepared h =>
    obtain ⟨-, -, ⟨forms, n, last, hforms, hsteps⟩, hprogram⟩ := Interpreting.prepare_ok h
    have hlost := defined.imp_right fun hdefined => hdefined forms hforms
    obtain ⟨-, henv⟩ := hsteps.carried hR admits hlost (Environment.fresh_carries builtin)
      (hread hforms)
    exact ⟨hread hprogram, henv⟩
  | @stepped program next interp interp' counted h step ih =>
    obtain ⟨hprogram, henv⟩ := ih
    obtain ⟨env', hexec, rfl⟩ := Interpreter.stepNoted_ok step
    have hsound := h.sound.1
    rw [hsound.standard] at hexec
    rw [Interpreter.current_withEnvironment,
      Interpreter.environment_withEnvironment hsound.sessions]
    exact stepProgram_carried hR (admits _ _) (kept.imp_right fun hkept => hkept program interp h)
      henv hprogram hexec
  | noticed h ih => exact ih

/-- A program under way that does not step keeps its text if and only if its symbols are shown as
named. -/
theorem Reachable.text_iff (h : Reachable strict budget definitions expression program interp)
    (hstep : interp.stepNoted program = (.ok (false, program'), interp')) :
    program'.surface = program.surface ↔
      ShownAsNamed (interp.environment interp.current) program := by
  obtain ⟨hsound, hprogram⟩ := h.sound
  obtain ⟨env', hexec, rfl⟩ := Interpreter.stepNoted_ok hstep
  rw [hsound.standard] at hexec
  exact stepProgram_text_iff hsound.names hprogram hexec

end Redex
