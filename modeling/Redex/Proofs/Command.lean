import Redex.CommandLine.Run
import Redex.Proofs.Display

/-!
# Tracing and evaluating from the command line

The command shows every program on the way when it is asked to, and the value alone otherwise. What
it shows last and what it shows alone are the program before and behind the same unstepped round.

* **`parse_step`** — a leading `--step` asks for a trace and changes nothing else.
* **`traceLoop_run`** — a trace shows the programs of the run that an evaluation goes through.
* **`runIn_trace`** — the last block of a trace is the program that the last round made the value of.
* **`unstepped_text_iff`** — that block is the text of the value if and only if the symbols of the
  last program are shown as named; and so for every program under way.
-/

namespace Redex.CommandLine

/-! ## Options -/

/-- The same progress, asked for a trace. -/
def Progress.tracing (p : Progress) : Progress :=
  { p with options := { p.options with step := true } }

theorem Progress.give_tracing (p : Progress) (s : Switch) (text : String) :
    p.tracing.give s text = (p.give s text).map Progress.tracing := by
  cases s with
  | maxSteps =>
    simp only [Progress.give]
    cases Given.ofText text with
    | value a => cases parseInt? text <;> rfl
    | _ => rfl
  | _ => rfl

theorem Progress.set_tracing (p : Progress) (s : Switch) :
    p.tracing.set s = (p.set s).map Progress.tracing := by
  cases s <;> rfl

theorem Progress.fill_tracing (p : Progress) (text : String) :
    p.tracing.fill text = (p.fill text).tracing := by
  have hfilled : p.tracing.filled = p.filled := rfl
  unfold Progress.fill
  rw [hfilled]
  split <;> rfl

/-- An option that stands without a value is taken before the rest. -/
theorem takeAll_flag {s : Switch} (h : ¬ s.takesValue = true) (args : List Argument)
    (p : Progress) : takeAll (.switch s none :: args) p = p.set s >>= takeAll args := by
  rw [takeAll.eq_def]
  simp only [h]
  rfl

/-- Taking arguments goes the same way whether a trace was asked for before or not. -/
theorem takeAll_tracing (args : List Argument) (p : Progress) :
    takeAll args p.tracing = (takeAll args p).map Progress.tracing := by
  -- an argument may end the taking; if it does, it does so in either progress
  have hbind : ∀ (taken : Except Stop Progress) (args : List Argument),
      (∀ q : Progress, takeAll args q.tracing = (takeAll args q).map Progress.tracing) →
      (taken.map Progress.tracing >>= takeAll args) =
        (taken >>= takeAll args).map Progress.tracing := by
    intro taken args ih
    cases taken with
    | error stop => rfl
    | ok q => exact ih q
  induction args, p using takeAll.induct with
  | case1 p => rfl
  | case2 text args p hfilled ih =>
    rw [takeAll, takeAll, if_pos hfilled, if_pos (show p.tracing.filled = true from hfilled)]
    exact ih
  | case3 text args p hfilled ih =>
    rw [takeAll, takeAll, if_neg hfilled, if_neg (show ¬ p.tracing.filled = true from hfilled),
      Progress.fill_tracing]
    exact ih
  | case4 text args p hnext ih =>
    rw [takeAll, takeAll, Progress.fill_tracing]
    · exact ih
    all_goals exact hnext
  | case5 args p hfilled ih =>
    rw [takeAll, takeAll, if_pos hfilled, if_pos (show p.tracing.filled = true from hfilled)]
    exact ih
  | case6 args p hfilled ih =>
    rw [takeAll, takeAll, if_neg hfilled, if_neg (show ¬ p.tracing.filled = true from hfilled)]
    exact ih
  | case7 s value args p ih =>
    rw [takeAll, takeAll, Progress.give_tracing]
    exact hbind _ _ ih
  | case8 s p hvalue value args ih =>
    rw [takeAll, takeAll, if_pos hvalue, if_pos hvalue]
    simp only [Progress.give_tracing]
    exact hbind _ _ ih
  | case9 s args p hvalue hnext =>
    rw [takeAll, takeAll, if_pos hvalue, if_pos hvalue]
    · rfl
    all_goals exact hnext
  | case10 s args p hvalue ih =>
    rw [takeAll_flag hvalue, takeAll_flag hvalue, Progress.set_tracing]
    exact hbind _ _ ih
  | case11 letters tail p => rfl
  | case12 text args p ih => exact ih

/-- A leading `--step` asks for a trace and changes nothing else. -/
theorem parse_step {args : List String} {options : Options} (h : parse args = .ok options) :
    parse ("--step" :: args) = .ok { options with step := true } := by
  unfold parse at h ⊢
  cases hargs : classifyAll args with
  | error e =>
    rw [hargs] at h
    cases h
  | ok arguments =>
    have hstep : classifyAll ("--step" :: args) = .ok (.switch .step none :: arguments) := by
      have hclassify : classify "--step" = .ok (.switch .step none) := rfl
      rw [classifyAll, if_neg (by decide), hclassify, hargs]
      rfl
    have htake : takeAll (.switch .step none :: arguments) Progress.initial =
        (takeAll arguments Progress.initial).map Progress.tracing := by
      rw [takeAll_flag (by decide)]
      exact takeAll_tracing arguments Progress.initial
    rw [hargs] at h
    rw [hstep]
    simp only [htake]
    cases htaken : takeAll arguments Progress.initial with
    | error stop =>
      simp only [htaken] at h
      cases h
    | ok p =>
      simp only [htaken] at h
      have hextras : p.tracing.extras = p.extras := rfl
      cases hempty : p.extras.isEmpty with
      | false =>
        simp only [bind, Except.bind, hempty] at h
        cases h
      | true =>
        simp only [bind, Except.bind, hempty] at h
        cases h
        simp only [bind, Except.bind, Except.map, hextras, hempty]
        rfl

/-! ## Transcripts -/

variable {world : World} {t : Transcript} {interp interp' : Interpreter} {program values : Program}

/-- Showing notices writes nothing to the standard output. -/
theorem showNotices_run (world : World) (level : Nat) (interp : Interpreter) (t : Transcript) :
    ∃ err, (showNotices (transcriptConsole world) level interp).run t =
      ({ interp with journal := [] }, { t with err := err }) := by
  have hlines : ∀ (notices : List Notice) (t : Transcript), ∃ err,
      ((notices.forM fun notice =>
        (transcriptConsole world).errorLine notice.message).run t) = ((), { t with err := err }) := by
    intro notices
    induction notices with
    | nil => exact fun t => ⟨t.err, rfl⟩
    | cons notice notices ih =>
      intro t
      obtain ⟨err, herr⟩ := ih { t with err := t.err ++ (notice.message ++ "\n") }
      exact ⟨err, herr⟩
  unfold showNotices
  split
  · obtain ⟨err, herr⟩ := hlines interp.journal.reverse t
    refine ⟨err, ?_⟩
    rw [StateT.run_bind, herr]
    rfl
  · exact ⟨t.err, rfl⟩

/-- Shows a program of a trace behind the one before it. -/
def showNext (world : World) (p : Program) : StateM Transcript Unit := do
  (transcriptConsole world).line stepSeparator
  (transcriptConsole world).line p.surface

/-- The text of the programs of a trace but the last, each with the separator behind it. -/
def shownBefore (shown : List Program) : String :=
  String.join (shown.map fun p => p.surface ++ "\n" ++ (stepSeparator ++ "\n"))

variable {strict : Bool} {limit : Nat} {definitions expression : String}

/-- A trace shows the programs of the run that an evaluation goes through. -/
theorem traceLoop_run (world : World) {budget steps : Nat} {run : Run Program}
    (h : Reachable strict limit definitions expression program interp)
    (hrun : runFrom (stepProgram .standard) budget steps program
      (interp.environment interp.current) = some run)
    (hok : run.outcome = .ok values) (t : Transcript) :
    ∃ shown last interp₁ interp', Reachable strict limit definitions expression last interp₁ ∧
      interp₁.stepNoted last = (.ok (false, values), interp') ∧
      (do
        (transcriptConsole world).line program.surface
        traceSteps (showNext world) budget program interp : StateM Transcript _).run t =
        ((.fixpoint values, interp'),
          { t with out := t.out ++ shownBefore shown ++ (last.surface ++ "\n") }) := by
  induction budget generalizing steps program interp t with
  | zero => cases hrun
  | succ budget ih =>
    have hsound := h.sound.1
    rw [runFrom] at hrun
    split at hrun
    · cases hrun
      cases hok
    · rename_i next env' hexec
      rw [← hsound.standard] at hexec
      have hstep := Interpreter.stepNoted_of_exec hexec
      have hnext := h.stepped hstep
      -- the trace steps an interpreter, the run an environment: the session of the one holds the other
      have henv : (interp.withEnvironment interp.current env').environment
          (interp.withEnvironment interp.current env').current = env' := by
        rw [Interpreter.current_withEnvironment,
          Interpreter.environment_withEnvironment hsound.sessions]
      rw [← henv] at hrun
      obtain ⟨shown, last, interp₁, interp', hlast, hend, htrace⟩ := ih hnext hrun
        { t with out := t.out ++ (program.surface ++ "\n") ++ (stepSeparator ++ "\n") }
      refine ⟨program :: shown, last, interp₁, interp', hlast, hend, ?_⟩
      -- one round of the trace: the program, the separator, and the trace of the next program
      have hloop : (do
          (transcriptConsole world).line program.surface
          traceSteps (showNext world) (budget + 1) program interp : StateM Transcript _).run t =
          (do
            (transcriptConsole world).line next.surface
            traceSteps (showNext world) budget next
              (interp.withEnvironment interp.current env') : StateM Transcript _).run
            { t with out := t.out ++ (program.surface ++ "\n") ++ (stepSeparator ++ "\n") } := by
        rw [traceSteps, hstep]
        rfl
      rw [hloop, htrace]
      simp only [shownBefore, List.map_cons, String.join_cons, String.append_assoc]
    -- the round that ends the run is the one that makes the value of the program shown last
    · rename_i result env' hexec
      cases hrun
      cases hok
      rw [← hsound.standard] at hexec
      have hstep := Interpreter.stepNoted_of_exec hexec
      refine ⟨[], program, interp, _, h, hstep, ?_⟩
      rw [traceSteps, hstep]
      simp only [shownBefore, List.map_nil, String.join_nil, String.append_empty]
      rfl

/-! ## Endings -/

theorem endFailed_run (err : Error) (t : Transcript) :
    ((endFailed (transcriptConsole world) err).run t).1 ≠ .exit 0 := by
  unfold endFailed
  split
  · nofun
  · nofun

/-- An evaluation that is reported as a success succeeded. -/
theorem evaluateAll_ok {budget : Nat}
    (h : (Interpreting.evaluateAll budget program).exec interp = some (.ok (.ok values), interp')) :
    (Interpreting.evaluate budget program).exec interp = some (.ok values, interp') := by
  unfold Interpreting.evaluateAll Interpreting.report at h
  generalize Interpreting.evaluate budget program = m at h ⊢
  simp only [Interpreting.exec, tryCatch, tryCatchThe, MonadExceptOf.tryCatch, ExceptT.tryCatch,
    ExceptT.run, ExceptT.mk, StateT.run, bind, ExceptT.bind, StateT.bind] at h ⊢
  cases hm : m interp with
  | none =>
    rw [hm] at h
    cases h
  | some result =>
    obtain ⟨outcome, interp₁⟩ := result
    rw [hm] at h
    cases outcome with
    | ok a =>
      cases h
      rfl
    | error e =>
      have hpure : ∀ {α : Type} (a : α), (pure a : StateT Interpreter Option α) interp₁ =
          some (a, interp₁) := fun _ => rfl
      simp only [Option.bind_some, ExceptT.bindCont, hpure] at h
      split at h
      · cases h
      · cases h

/-- The command that shows the value alone: the run that it goes through. -/
theorem evaluateCommand_run {level budget : Nat} {t' : Transcript}
    (h : (evaluateCommand (transcriptConsole world) level budget program interp).run t =
      (.exit 0, t')) :
    ∃ values run, evaluate interp.macros budget program (interp.environment interp.current) =
      some run ∧ run.outcome = .ok values ∧ t'.out = t.out ++ (values.surface ++ "\n") := by
  unfold evaluateCommand at h
  split at h
  · cases h
  · rename_i outcome interp' hexec
    obtain ⟨err, hnotices⟩ := showNotices_run world level interp' t
    rw [StateT.run_bind, hnotices] at h
    match outcome, hexec with
    -- both kinds of failure end with another code
    | .error e, _ => exact absurd (congrArg Prod.fst h) (endFailed_run e _)
    | .ok (.error e), _ => exact absurd (congrArg Prod.fst h) (endFailed_run e _)
    | .ok (.ok values), hexec =>
      cases h
      obtain ⟨run, hrun, hok, -⟩ := Interpreting.evaluate_ok (evaluateAll_ok hexec)
      exact ⟨values, run, hrun, hok, rfl⟩

/-- The settings that the variables of a world make. -/
def World.settings (world : World) : Settings :=
  Settings.ofVariables fun name =>
    if name == Settings.levelVariable then world.vars.lookup Settings.levelVariable
    else if name == Settings.strictVariable then world.vars.lookup Settings.strictVariable
    else if name == Settings.definitionsVariable then
      world.vars.lookup Settings.definitionsVariable
    else none

/-- The expression that the options ask for in a world. -/
def World.source (world : World) (options : Options) : String :=
  if options.expression == "-" then world.input else options.expression

/-- What the options ask for, once the world has been asked. -/
theorem perform_run (options : Options) (budget : Nat) (t : Transcript) :
    (perform (transcriptConsole world) options budget).run t =
      (match options.defs, world.settings.definitions with
        | .blank, _ => pure (Ending.unusable .defs)
        | .value path, _ => loadCommand (transcriptConsole world) (plainPath path.toList)
            fun definitions => prepareCommand (transcriptConsole world) world.settings options budget
              definitions (world.source options)
        | .absent, some path => loadCommand (transcriptConsole world) path
            fun definitions => prepareCommand (transcriptConsole world) world.settings options budget
              definitions (world.source options)
        | .absent, none => prepareCommand (transcriptConsole world) world.settings options budget ""
            (world.source options)).run t := by
  unfold perform World.source
  by_cases hinput : (options.expression == "-") = true
  · simp only [hinput, if_true]
    rfl
  · simp only [hinput]
    rfl

/-- What a command that loads definitions goes on with, if it ends well. -/
theorem loadCommand_run {path : String} {next : String → StateM Transcript Ending}
    {t' : Transcript} (h : (loadCommand (transcriptConsole world) path next).run t =
      (.exit 0, t')) :
    ∃ text, ∀ next : String → StateM Transcript Ending,
      (loadCommand (transcriptConsole world) path next).run t = (next text).run t := by
  have hfile : ((transcriptConsole world).file? path).run t = (world.files.lookup path, t) := rfl
  cases hlookup : world.files.lookup path with
  | none =>
    unfold loadCommand at h
    rw [StateT.run_bind, hfile, hlookup] at h
    cases h
  | some text =>
    refine ⟨String.ofList (plainLines text.toList), ?_⟩
    intro next
    unfold loadCommand
    rw [StateT.run_bind, hfile, hlookup]
    rfl

/-- A command that ends well prepares a source and goes on, and does so whether or not a trace is
asked for. -/
theorem perform_prepares {options : Options} {budget : Nat} {t' : Transcript}
    (h : (perform (transcriptConsole world) options budget).run t = (.exit 0, t')) :
    ∃ definitions, ∀ step, (perform (transcriptConsole world) { options with step } budget).run t =
      (prepareCommand (transcriptConsole world) world.settings { options with step } budget
        definitions (world.source options)).run t := by
  rw [perform_run] at h
  cases hdefs : options.defs with
  | blank =>
    rw [hdefs] at h
    cases h
  | value path =>
    simp only [hdefs] at h
    obtain ⟨text, htext⟩ := loadCommand_run h
    refine ⟨text, fun step => ?_⟩
    rw [perform_run]
    exact htext _
  | absent =>
    simp only [hdefs] at h
    cases hpath : world.settings.definitions with
    | none =>
      refine ⟨"", fun step => ?_⟩
      rw [perform_run]
      simp only [hpath]
      rfl
    | some path =>
      simp only [hpath] at h
      obtain ⟨text, htext⟩ := loadCommand_run h
      refine ⟨text, fun step => ?_⟩
      rw [perform_run]
      simp only [hpath]
      exact htext _

/-- Tracing a run shows its programs and ends well. -/
theorem traceCommand_run {level budget : Nat} {interp₁ : Interpreter} {t' : Transcript}
    (h : (do
      (transcriptConsole world).line program.surface
      traceSteps (showNext world) budget program interp : StateM Transcript _).run t =
        ((.fixpoint values, interp₁), t')) :
    ∃ err, (traceCommand (transcriptConsole world) level budget .absent program interp).run t =
      (.exit 0, { t' with err := err }) := by
  obtain ⟨err, hnotices⟩ := showNotices_run world level interp₁ t'
  refine ⟨err, ?_⟩
  have hupTo : (traceUpTo (transcriptConsole world) level budget program interp).run t =
      (.fixpoint values, { t' with err := err }) := by
    have hsteps : (traceSteps (showNext world) budget program interp).run
        { t with out := t.out ++ (program.surface ++ "\n") } =
        ((.fixpoint values, interp₁), t') := h
    show ((traceSteps (showNext world) budget program interp).run
      { t with out := t.out ++ (program.surface ++ "\n") } >>= fun p =>
        (do
          let _ ← showNotices (transcriptConsole world) level p.1.2
          return p.1.1 : StateM Transcript TraceEnd).run p.2) = _
    rw [hsteps]
    show ((do
      let _ ← showNotices (transcriptConsole world) level interp₁
      return .fixpoint values : StateM Transcript TraceEnd).run t') = _
    rw [StateT.run_bind, hnotices]
    rfl
  unfold traceCommand
  rw [StateT.run_bind, hupTo]
  rfl

/-- A preparation whose value is shown well can be traced: the last program of the trace is the one
that the last round makes the value of. -/
theorem prepareCommand_trace {settings : Settings} {options : Options} {budget : Nat}
    {source : String} {plain : Transcript} (hmax : options.maxSteps = .absent)
    (h : (prepareCommand (transcriptConsole world) settings { options with step := false } budget
      definitions source).run t = (.exit 0, plain)) :
    ∃ shown last values interp interp' traced,
      Reachable settings.strict budget definitions source last interp ∧
      interp.stepNoted last = (.ok (false, values), interp') ∧
      plain.out = t.out ++ (values.surface ++ "\n") ∧
      (prepareCommand (transcriptConsole world) settings { options with step := true } budget
        definitions source).run t = (.exit 0, traced) ∧
      traced.out = t.out ++ shownBefore shown ++ (last.surface ++ "\n") := by
  unfold prepareCommand at h ⊢
  cases hprepare : (Interpreting.prepare budget definitions source).exec
      (.initial settings.strict) with
  | none =>
    rw [hprepare] at h
    cases h
  | some result =>
    obtain ⟨outcome, interp⟩ := result
    obtain ⟨err, hnotices⟩ := showNotices_run world settings.level interp t
    rw [hprepare] at h
    simp only at h ⊢
    rw [StateT.run_bind, hnotices] at h
    rw [StateT.run_bind, hnotices]
    cases outcome with
    | error e => exact absurd (congrArg Prod.fst h) (endFailed_run e _)
    | ok program =>
      obtain ⟨values, run, hrun, hok, hout⟩ := evaluateCommand_run h
      have hreachable := (Reachable.prepared hprepare).noticed
      rw [hreachable.sound.1.standard] at hrun
      obtain ⟨shown, last, interp₁, interp', hlast, hend, htrace⟩ :=
        traceLoop_run world hreachable hrun hok { t with err := err }
      obtain ⟨err', htraced⟩ := traceCommand_run htrace
      rw [← hmax] at htraced
      exact ⟨shown, last, values, interp₁, interp', _, hlast, hend, hout, htraced, rfl⟩

/-- A command that shows a value well shows a trace with a leading `--step`, whose last block is the
program that the last round made the value of. -/
theorem runIn_trace {budget : Nat} {args : List String} {options : Options} {plain : Transcript}
    (hparse : parse args = .ok options) (hstep : options.step = false)
    (hmax : options.maxSteps = .absent) (h : runIn world budget args = (.exit 0, plain)) :
    ∃ strict definitions expression shown last values interp interp' traced,
      Reachable strict budget definitions expression last interp ∧
      interp.stepNoted last = (.ok (false, values), interp') ∧
      plain.out = values.surface ++ "\n" ∧
      runIn world budget ("--step" :: args) = (.exit 0, traced) ∧
      traced.out = shownBefore shown ++ (last.surface ++ "\n") := by
  have hplain : (perform (transcriptConsole world) options budget).run ⟨"", ""⟩ =
      (.exit 0, plain) := by
    unfold runIn run at h
    rw [hparse] at h
    exact h
  obtain ⟨definitions, hprepares⟩ := perform_prepares hplain
  have hoptions : { options with step := false } = options := by
    rw [← hstep]
  have hvalue := hprepares false
  rw [hoptions, hplain] at hvalue
  rw [← hoptions] at hvalue
  obtain ⟨shown, last, values, interp, interp', traced, hlast, hend, hout, htraced, htrace⟩ :=
    prepareCommand_trace hmax hvalue.symm
  refine ⟨_, definitions, _, shown, last, values, interp, interp', traced, hlast, hend, ?_, ?_, ?_⟩
  · rw [hout, String.empty_append]
  · unfold runIn run
    rw [parse_step hparse]
    exact (hprepares true).trans htraced
  · rw [htrace, String.empty_append]

/-! ## Unstepped programs -/

/-- The texts before and behind the first round of a prepared program, if the round is no step. -/
def firstRound (budget : Nat) (definitions expression : String) : Option (String × String) :=
  match (Interpreting.prepare budget definitions expression).exec (.initial false) with
  | some (.ok program, interp) =>
    match interp.stepNoted program with
    | (.ok (false, program'), _) => some (program.surface, program'.surface)
    | _ => none
  | _ => none

theorem firstRound_reachable {budget : Nat} {before behind : String}
    (h : firstRound budget definitions expression = some (before, behind)) :
    ∃ program program' interp interp',
      Reachable false budget definitions expression program interp ∧
      interp.stepNoted program = (.ok (false, program'), interp') ∧
      program.surface = before ∧ program'.surface = behind := by
  unfold firstRound at h
  split at h
  · rename_i program interp hprepare
    split at h
    · rename_i program' interp' hstep
      cases h
      exact ⟨program, program', interp, interp', .prepared hprepare, hstep, rfl, rfl⟩
    · cases h
  · cases h

/-- The code that a command exits with. -/
def Ending.code? : Ending → Option Nat
  | .exit code => some code
  | _ => none

theorem Ending.eq_exit {ending : Ending} {code : Nat} (h : ending.code? = some code) :
    ending = .exit code := by
  cases ending with
  | exit code' =>
    cases h
    rfl
  | _ => cases h

/-- A program under way that does not step keeps its text if and only if its symbols are shown as
named. So, too, the last block of a trace is what the command shows without one if and only if the
symbols of the last program are shown as named. -/
theorem unstepped_text_iff (budget : Nat) :
    (∀ (strict : Bool) (definitions expression : String) (program program' : Program)
      (interp interp' : Interpreter),
      Reachable strict budget definitions expression program interp →
      interp.stepNoted program = (.ok (false, program'), interp') →
      (program'.surface = program.surface ↔
        ShownAsNamed (interp.environment interp.current) program)) ∧
    ∀ (world : World) (args : List String) (options : Options) (plain : Transcript),
      parse args = .ok options → options.step = false → options.maxSteps = .absent →
      runIn world budget args = (.exit 0, plain) →
      ∃ strict definitions expression shown last interp traced,
        Reachable strict budget definitions expression last interp ∧
        runIn world budget ("--step" :: args) = (.exit 0, traced) ∧
        traced.out = shownBefore shown ++ (last.surface ++ "\n") ∧
        (last.surface ++ "\n" = plain.out ↔
          ShownAsNamed (interp.environment interp.current) last) := by
  constructor
  · intro strict definitions expression program program' interp interp' h hstep
    exact h.text_iff hstep
  · intro world args options plain hparse hstep hmax h
    obtain ⟨strict, definitions, expression, shown, last, values, interp, interp', traced, hlast,
      hend, hout, htraced, htrace⟩ := runIn_trace hparse hstep hmax h
    refine ⟨strict, definitions, expression, shown, last, interp, traced, hlast, htraced, htrace, ?_⟩
    rw [hout, String.append_left_inj, ← hlast.text_iff hend]
    exact eq_comm

/-- A built-in shows as named: both conditions hold of the program `+` and of its command. -/
theorem unstepped_text_plus :
    (∃ program program' interp interp',
      Reachable false 9 "" "+" program interp ∧
      interp.stepNoted program = (.ok (false, program'), interp') ∧
      program.surface = "+" ∧ ShownAsNamed (interp.environment interp.current) program) ∧
    ∃ plain shown last traced, runIn ⟨"", [], []⟩ 9 ["+"] = (.exit 0, plain) ∧
      runIn ⟨"", [], []⟩ 9 ["--step", "+"] = (.exit 0, traced) ∧
      traced.out = shownBefore shown ++ (Program.surface last ++ "\n") := by
  constructor
  · have hround : firstRound 9 "" "+" = some ("+", "+") := by decide +kernel
    obtain ⟨program, program', interp, interp', hreachable, hstep, hbefore, hbehind⟩ :=
      firstRound_reachable hround
    have hshown := (unstepped_text_iff 9).1 _ _ _ _ _ _ _ hreachable hstep
    exact ⟨program, program', interp, interp', hreachable, hstep, hbefore,
      hshown.mp (hbehind.trans hbefore.symm)⟩
  · have hcode : (runIn ⟨"", [], []⟩ 9 ["+"]).1.code? = some 0 := by decide +kernel
    have hplain : runIn ⟨"", [], []⟩ 9 ["+"] = (.exit 0, (runIn ⟨"", [], []⟩ 9 ["+"]).2) :=
      Prod.ext (Ending.eq_exit hcode) rfl
    obtain ⟨strict, definitions, expression, shown, last, interp, traced, -, htraced, hout, -⟩ :=
      (unstepped_text_iff 9).2 ⟨"", [], []⟩ ["+"] ⟨"+", .absent, false, .absent⟩ _ rfl rfl rfl hplain
    exact ⟨_, shown, last, traced, hplain, htraced, hout⟩

/-- The procedure `+` bound as `f` by an applied closure keeps its name: `f` does not step, and
shows as `+` behind the round. So the last block of the trace is not the text of the value. -/
theorem unstepped_text_changes :
    (∃ program program' interp interp',
      Reachable false 9 "((lambda (g) (define f g)) +)" "f" program interp ∧
      interp.stepNoted program = (.ok (false, program'), interp') ∧
      program.surface = "f" ∧ program'.surface = "+") ∧
    (runIn ⟨"", [], []⟩ 9 ["((lambda (g) (define f g)) +) f"]).2.out = "+\n" ∧
    (runIn ⟨"", [], []⟩ 9 ["--step", "((lambda (g) (define f g)) +) f"]).2.out =
      "((lambda (g) (define f g)) +)\nf\n----\n(define f +)\nf\n----\nf\n" := by
  refine ⟨firstRound_reachable ?_, ?_, ?_⟩
  · decide +kernel
  · decide +kernel
  · decide +kernel

end Redex.CommandLine
