import Mathlib.Data.List.Nodup
import Redex.Proofs.Accessors
import Redex.Proofs.Calls

/-!
# Struct procedures as a tagged record

A struct definition binds procedures that know nothing of each other but the tag and the names of
the fields. Together they are a record type: the constructor fills the fields in order, the predicate
recognises exactly the structs of the tag, and each accessor gives back what the constructor was
given for its field.

* **`structNames`** are the names that a struct definition binds, and **`structNames_nodup`** says
  when no procedure takes the name of another.
* **`Environment.Calls`** — what comes of calling the procedure that a name is bound to, and
  **`Environment.Calls.step`** — such a call is one step.
* **`TaggedRecord`** is the record type, and **`defineStruct_record`** — a struct definition
  implements it.
* **`TaggedRecord.reads_back`** — making a record and reading a field of it takes two steps, and
  comes to what the constructor was given for the field.
-/

namespace Redex

variable {env env' : Environment} {tag field name : String} {fields : List String}
variable {args values : List Expr} {outcome : Except Error Expr}

/-! ## Calls by name -/

/-- Calling what the name is bound to, a procedure, on the arguments comes to the outcome. -/
def Environment.Calls (env : Environment) (name : String) (args : List Expr)
    (outcome : Except Error Expr) : Prop :=
  ∃ f, env.get? name = some f ∧ f.isFunction = true ∧ applyCall f args = outcome

/-- A call by a name that is the head of no special form is one step, once its arguments are done. -/
theorem Environment.Calls.step (h : env.Calls name values outcome)
    (plain : MacroTable.standard.rule? (.symbol name) = none)
    (still : List.Forall₂ (SettlesAs env) args values) (defined : ∀ a ∈ args, a ≠ .undefined) :
    (Redex.step .standard (.sequence (.symbol name :: args))).exec env =
      (outcome.map fun result => ⟨true, result⟩, env) := by
  obtain ⟨f, hbound, callable, rfl⟩ := h
  exact step_named_call plain hbound callable still defined

/-! ## The names of the procedures -/

/-- The names that a struct definition binds. -/
def structNames (tag : String) (fields : List String) : List String :=
  ("make-" ++ tag) :: (tag ++ "?") :: fields.map fun field => tag ++ "-" ++ field

/-- The procedures that a struct definition binds. -/
def structNatives (tag : String) (fields : List String) : List Native :=
  .constructor tag fields :: .predicate tag :: fields.map (.accessor tag)

theorem structNatives_names (tag : String) (fields : List String) :
    Assoc.names ((structNatives tag fields).map fun p => (p.name, Expr.native p)) =
      structNames tag fields := by
  simp [structNatives, structNames, Assoc.names, Native.name]

theorem mem_names_structProcedures :
    name ∈ Assoc.names (structProcedures tag fields) ↔ name ∈ structNames tag fields := by
  rw [← structNatives_names]
  exact Assoc.mem_names_ofList

/-- An accessor has a name of its own, unless it is called as the constructor is. -/
theorem structNames_nodup (distinct : fields.Nodup)
    (apart : ∀ field ∈ fields, tag ++ "-" ++ field ≠ "make-" ++ tag) :
    (structNames tag fields).Nodup := by
  have hmake : "make-" ++ tag ≠ tag ++ "?" := by
    intro heq
    have hlength := congrArg String.length heq
    rw [String.length_append, String.length_append] at hlength
    have hfive : "make-".length = 5 := rfl
    have hone : "?".length = 1 := rfl
    omega
  have htest : ∀ field, tag ++ "-" ++ field ≠ tag ++ "?" := by
    intro field heq
    rw [String.append_assoc] at heq
    have hchars := congrArg String.toList ((String.append_right_inj tag).mp heq)
    rw [String.toList_append] at hchars
    cases hchars
  have hinjective : Function.Injective fun field => tag ++ "-" ++ field :=
    fun _ _ heq => (String.append_right_inj _).mp heq
  refine List.nodup_cons.mpr ⟨?_, List.nodup_cons.mpr ⟨?_, List.Nodup.map hinjective distinct⟩⟩
  · intro hmem
    rcases List.mem_cons.mp hmem with heq | hmem
    · exact hmake heq
    · obtain ⟨field, hfield, heq⟩ := List.mem_map.mp hmem
      exact apart field hfield heq
  · intro hmem
    obtain ⟨field, -, heq⟩ := List.mem_map.mp hmem
    exact htest field heq

/-- Each procedure is found under its name. -/
theorem get?_structNative (distinct : (structNames tag fields).Nodup) {p : Native}
    (hp : p ∈ structNatives tag fields) :
    (env.bindAll (structProcedures tag fields)).get? p.name = some (.native p) := by
  have hpairs : structProcedures tag fields =
      (structNatives tag fields).map fun p => (p.name, Expr.native p) := by
    rw [← structNatives_names] at distinct
    exact Assoc.ofList_of_nodup distinct
  refine Environment.get?_structProcedures ?_
  rw [hpairs]
  exact List.mem_map_of_mem hp

theorem calls_structNative (distinct : (structNames tag fields).Nodup) {p : Native}
    (hp : p ∈ structNatives tag fields) (args : List Expr) :
    (env.bindAll (structProcedures tag fields)).Calls p.name args (p.call args) :=
  ⟨.native p, get?_structNative distinct hp, rfl, rfl⟩

/-! ## The record -/

/-- The struct with the given tag and fields, in order. Each field has the value in its position, or
`#f` where there is none; values without a field are dropped. -/
def record (tag : String) (fields : List String) (args : List Expr) : Expr :=
  .struct tag (fields.mapIdx fun i field => (field, args.getD i (.boolean false)))

theorem pairArguments_eq_mapIdx (fields : List String) (args : List Expr) :
    pairArguments fields args =
      fields.mapIdx fun i field => (field, args.getD i (.boolean false)) := by
  induction fields generalizing args with
  | nil => rfl
  | cons field fields ih =>
    cases args with
    | nil => simp [pairArguments, ih]
    | cons arg args => simp [pairArguments, ih]

theorem pairArguments_nodup (distinct : fields.Nodup) (args : List Expr) :
    (Assoc.names (pairArguments fields args)).Nodup := by
  rwa [pairArguments_names]

theorem constructor_call (distinct : fields.Nodup) (args : List Expr) :
    (Native.constructor tag fields).call args = .ok (record tag fields args) := by
  rw [Native.call, Assoc.ofList_of_nodup (pairArguments_nodup distinct args),
    pairArguments_eq_mapIdx, record]

theorem predicate_call_struct (values : List (String × Expr)) (rest : List Expr) :
    (Native.predicate tag).call (.struct tag values :: rest) = .ok (.boolean true) := by
  simp [Native.call, Native.isStruct]

theorem predicate_call_other (h : ∀ values rest, args ≠ .struct tag values :: rest) :
    (Native.predicate tag).call args = .ok (.boolean false) := by
  cases args with
  | nil => rfl
  | cons v rest =>
    cases v with
    | struct other values =>
      have hother : other ≠ tag := by
        rintro rfl
        exact h values rest rfl
      simp [Native.call, Native.isStruct, hother]
    | _ => rfl

/-- An accessor looks at its first argument alone, which is the value that is none if it is missing. -/
theorem accessor_call_eq (tag field : String) (args : List Expr) :
    (Native.accessor tag field).call args =
      (Native.accessor tag field).call [args.head?.getD .undefined] := rfl

theorem accessor_call_record (distinct : fields.Nodup) {i : Nat} (hi : i < fields.length)
    (args rest : List Expr) :
    (Native.accessor tag fields[i]).call (record tag fields args :: rest) =
      .ok (args.getD i (.boolean false)) := by
  have hmem : (fields[i], args.getD i (.boolean false)) ∈ pairArguments fields args := by
    rw [pairArguments_eq_mapIdx]
    exact List.mem_mapIdx.mpr ⟨i, hi, rfl⟩
  have hfound := Assoc.lookup_of_mem (pairArguments_nodup distinct args) hmem
  rw [pairArguments_eq_mapIdx] at hfound
  exact Native.access_struct hfound

theorem accessor_call_other (h : ∀ values rest, args ≠ .struct tag values :: rest) :
    (Native.accessor tag field).call args =
      .error (.notStruct tag field (args.head?.getD .undefined)) := by
  rw [accessor_call_eq]
  refine Native.access_other ?_
  intro values heq
  cases args with
  | nil => cases heq
  | cons v rest => exact h values rest (congrArg (· :: rest) heq)

/-- The procedures of a struct definition, found in the second environment, implement records with
the given tag and fields, and nothing else has changed since the first. -/
structure TaggedRecord (tag : String) (fields : List String) (env env' : Environment) : Prop where
  construct : ∀ args, env'.Calls ("make-" ++ tag) args (.ok (record tag fields args))
  -- The predicate recognises every struct of the tag, and nothing else.
  holds : ∀ values rest, env'.Calls (tag ++ "?") (.struct tag values :: rest) (.ok (.boolean true))
  fails : ∀ args, (∀ values rest, args ≠ .struct tag values :: rest) →
    env'.Calls (tag ++ "?") args (.ok (.boolean false))
  access : ∀ i (h : i < fields.length) args rest,
    env'.Calls (tag ++ "-" ++ fields[i]) (record tag fields args :: rest)
      (.ok (args.getD i (.boolean false)))
  -- Without an argument an accessor is given the value that is none.
  refuse : ∀ field ∈ fields, ∀ args, (∀ values rest, args ≠ .struct tag values :: rest) →
    ∃ err, env'.Calls (tag ++ "-" ++ field) args (.error err) ∧ err.kind = .mismatch ∧
      err.mismatch? = some (tag, args.head?.getD .undefined)
  untouched : ∀ name, name ∉ structNames tag fields → env'.user.get? name = env.user.get? name
  builtins : env'.builtins = env.builtins

/-- What a struct definition binds is a record type, if no procedure takes the name of another. -/
theorem bindAll_structProcedures_record (distinct : fields.Nodup)
    (names : (structNames tag fields).Nodup) :
    TaggedRecord tag fields env (env.bindAll (structProcedures tag fields)) where
  construct args := by
    rw [← constructor_call distinct]
    exact calls_structNative names (p := .constructor tag fields) (by simp [structNatives]) args
  holds values rest := by
    rw [← predicate_call_struct values rest]
    exact calls_structNative names (p := .predicate tag) (by simp [structNatives]) _
  fails args h := by
    rw [← predicate_call_other h]
    exact calls_structNative names (p := .predicate tag) (by simp [structNatives]) args
  access i h args rest := by
    rw [← accessor_call_record distinct h args rest]
    exact calls_structNative names (p := .accessor tag fields[i]) (by simp [structNatives]) _
  refuse field hfield args h := by
    refine ⟨.notStruct tag field (args.head?.getD .undefined), ?_, rfl, rfl⟩
    rw [← accessor_call_other h]
    exact calls_structNative names (p := .accessor tag field) (by simp [structNatives, hfield]) args
  untouched name h := Assoc.lookup_insertAll_of_not_mem (mt mem_names_structProcedures.mp h)
  builtins := rfl

/-! ## The definition -/

/-- The fields of a struct definition are written one after the other or in one sequence. -/
theorem structDefinition_fields (tag : String) (fields : List String) :
    SpecialForm.structDefinition (.symbol tag :: fields.map .symbol) = .ok (tag, fields) ∧
      SpecialForm.structDefinition [.symbol tag, .sequence (fields.map .symbol)] =
        .ok (tag, fields) := by
  have hnames := symbolNames_map .structField fields
  constructor
  · match fields with
    | [] => rfl
    | [field] => rfl
    | _ :: _ :: _ =>
      simp only [List.map_cons] at hnames ⊢
      simp only [SpecialForm.structDefinition, hnames]
      rfl
  · simp only [SpecialForm.structDefinition, hnames]
    rfl

/-- A struct definition is one step, which leaves no value behind and binds procedures that implement
records with the given tag and fields. The names of the fields have to be distinct, and no accessor
may be called as the constructor is. -/
theorem defineStruct_record (env : Environment) {tag : String} {fields : List String}
    {items : List Expr}
    (spelled : items = fields.map .symbol ∨ items = [.sequence (fields.map .symbol)])
    (free : env.user.frozen = false) (distinct : fields.Nodup)
    (apart : ∀ field ∈ fields, tag ++ "-" ++ field ≠ "make-" ++ tag) :
    ∃ env', (step .standard (.sequence (.symbol "define-struct" :: .symbol tag :: items))).exec env =
        (.ok ⟨true, .undefined⟩, env') ∧ TaggedRecord tag fields env env' := by
  have hparts : SpecialForm.structDefinition (.symbol tag :: items) = .ok (tag, fields) := by
    rcases spelled with rfl | rfl
    · exact (structDefinition_fields tag fields).1
    · exact (structDefinition_fields tag fields).2
  exact ⟨_, (Defines.defineStruct hparts).step_eq free,
    bindAll_structProcedures_record distinct (structNames_nodup distinct apart)⟩

/-- `(define-struct make (maker x))` implements records, although its first accessor is called almost
as its constructor is. -/
theorem defineStruct_record_maker :
    ∃ env', (step .standard (.sequence [.symbol "define-struct", .symbol "make",
        .sequence [.symbol "maker", .symbol "x"]])).exec .fresh = (.ok ⟨true, .undefined⟩, env') ∧
      TaggedRecord "make" ["maker", "x"] .fresh env' :=
  defineStruct_record .fresh (.inr rfl) rfl (by decide) (by decide)

/-- A field that is called as the struct is: in the layer that `(define-struct make (make))` leaves, the
constructor is gone, and its name calls the accessor. -/
example :
    let env := Environment.fresh.bindAll (structProcedures "make" ["make"])
    env.get? "make-make" = some (.native (.accessor "make" "make")) := rfl

/-! ## Reading back -/

/-- No special form is called as a constructor is. -/
theorem rule?_constructor (tag : String) :
    MacroTable.standard.rule? (.symbol ("make-" ++ tag)) = none := by
  have hletter : ∀ key ∈ Assoc.names MacroTable.standard, key.toList.head? ≠ some 'm' := by decide
  exact MacroTable.rule?_eq_none_of_not_mem _ fun hmem => hletter _ hmem (by simp)

/-- One special form is called as an accessor may be. -/
theorem rule?_accessor (h : tag ++ "-" ++ field ≠ "define-struct") :
    MacroTable.standard.rule? (.symbol (tag ++ "-" ++ field)) = none := by
  have hdash : ∀ key ∈ Assoc.names MacroTable.standard,
      '-' ∈ key.toList → key = "define-struct" := by decide
  exact MacroTable.rule?_eq_none_of_not_mem _ fun hmem => h (hdash _ hmem (by simp))

/-- A call of an accessor on a call of the constructor takes two steps, once the arguments are done:
the record is made, and then it gives back what stands for the argument of the field. The name of
the accessor must not be that of a special form. -/
theorem TaggedRecord.reads_back (h : TaggedRecord tag fields env env') {i : Nat}
    (hi : i < fields.length) (plain : tag ++ "-" ++ fields[i] ≠ "define-struct")
    (still : List.Forall₂ (SettlesAs env') args values) (defined : ∀ a ∈ args, a ≠ .undefined) :
    Rounds Expr.round 2
      (.sequence [.symbol (tag ++ "-" ++ fields[i]), .sequence (.symbol ("make-" ++ tag) :: args)])
      env' (values.getD i (.boolean false)) env' := by
  have hmake := rule?_constructor tag
  have hplain := MacroTable.isMacroCall_eq_false hmake args
  have hname : (expand .standard (.symbol ("make-" ++ tag))).exec env' = (.ok .unchanged, env') :=
    expand_leaf (fun _ => Expr.noConfusion) env'
  have hunchanged := expand_sequence_unchanged hplain (List.forall_mem_cons.mpr
    ⟨hname, fun a ha => (SettlesAs.mem_inert still a ha).1⟩)
  -- nothing is left to the first pass, so the step of the constructor is one of the second
  have hmade := (h.construct values).step hmake still defined
  rw [step_of_unchanged hunchanged] at hmade
  obtain ⟨f, hbound, callable, hfield⟩ := h.access i hi values []
  have first := step_named_argument (rule?_accessor plain) hbound callable hunchanged
    (congrArg Prod.fst hmade) nofun
  have hsettles : SettlesAs env' (record tag fields values) (record tag fields values) := rfl
  have last := step_function_call callable (.cons hsettles .nil)
    (List.forall_mem_singleton.mpr nofun)
  rw [hfield] at last
  exact .step (Expr.round_ok_iff.mpr first) (.step (Expr.round_ok_iff.mpr last) (.refl _ _))

end Redex
