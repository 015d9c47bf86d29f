import Redex.Proofs.Transaction

/-!
# The errors of a step

Which errors a step can come to, and what each of them is about. The layers of a session are open to
definitions and hold no procedures but the built-ins, those of structs and closures, so that little
is left: a special form that is malformed, an accessor that is given something else than it expects,
and a logarithm to the base one.

* **`Malformed`** — a special form that its rule rejects.
* **`Escapes`** lists the errors, each with the form or the call that it is about, and **`Meets`**
  says how a step gets there.
* **`Builtin.call_total`** — the built-ins give a value, whatever they are given, but for the
  logarithm. **`MathFunction.Refuses`** lists reasons for which the library refuses arguments, and
  **`MathFunction.Refuses.eval`** says that the value is `nan` then.
* **`expand_raises`** and **`reduce_raises`** — what the passes fail with, and
  **`stepProgram_escapes`** — so what a program fails with.
-/

namespace Redex

/-! ## Malformed special forms -/

/-- A special form that its rule rejects, with the error. -/
inductive Malformed : Expr → Error → Prop where
  | define {args : List Expr} {err : Error} (h : SpecialForm.definition args = .error err) :
      Malformed (.sequence (.symbol "define" :: args)) err
  | lambda {args : List Expr} {err : Error} (h : SpecialForm.lambda args = .failed err) :
      Malformed (.sequence (.symbol "lambda" :: args)) err
  | conditional {args : List Expr} (h : args.length < 2) :
      Malformed (.sequence (.symbol "if" :: args)) .ifParts
  | defineStruct {args : List Expr} {err : Error} (h : SpecialForm.structDefinition args = .error err) :
      Malformed (.sequence (.symbol "define-struct" :: args)) err

variable {env env' : Environment} {e r f : Expr} {items args : List Expr} {err : Error}

theorem symbolNames_error {wrong : Expr → Error} (h : symbolNames wrong items = .error err) :
    ∃ x, err = wrong x := by
  induction items with
  | nil => cases h
  | cons x items ih =>
    cases x with
    | symbol name =>
      cases hrest : symbolNames wrong items with
      | error err' =>
        simp only [symbolNames, hrest] at h
        cases h
        exact ih hrest
      | ok names =>
        simp only [symbolNames, hrest] at h
        cases h
    | _ =>
      cases h
      exact ⟨_, rfl⟩

theorem Params.ofItems_error (h : Params.ofItems items = .error err) : err.kind = .malformed := by
  unfold Params.ofItems at h
  split at h
  · split at h
    · split at h
      · cases h
      · cases h
        rfl
    · cases h
      rfl
  · cases hnames : symbolNames .paramNotSymbol items with
    | error err' =>
      rw [hnames] at h
      cases h
      obtain ⟨x, rfl⟩ := symbolNames_error hnames
      rfl
    | ok names =>
      rw [hnames] at h
      cases h

theorem definition_error (h : SpecialForm.definition args = .error err) :
    err.kind = .malformed := by
  unfold SpecialForm.definition at h
  split at h
  · rename_i name params value rest
    cases hparams : Params.ofItems params with
    | error err' =>
      rw [hparams] at h
      cases h
      exact Params.ofItems_error hparams
    | ok params =>
      rw [hparams] at h
      cases h
  · cases h
    rfl
  · cases h
  · cases h
    rfl
  · cases h
    rfl

theorem lambda_error (h : SpecialForm.lambda args = .failed err) : err.kind = .malformed := by
  cases args with
  | nil =>
    cases h
    rfl
  | cons spec rest =>
    cases hspec : Params.ofSpec spec with
    | ok params =>
      simp only [SpecialForm.lambda, hspec] at h
      cases h
    | error err' =>
      simp only [SpecialForm.lambda, hspec] at h
      cases h
      unfold Params.ofSpec at hspec
      split at hspec
      · cases hspec
      · exact Params.ofItems_error hspec
      · cases hspec
        rfl

theorem structDefinition_error (h : SpecialForm.structDefinition args = .error err) :
    err.kind = .malformed := by
  -- both ways of writing the fields are read by the same function
  have hfields : ∀ {tag : String} {fields : List Expr},
      (do return (tag, ← symbolNames .structField fields) : Except Error (String × List String)) =
        .error err → err.kind = .malformed := by
    intro tag fields h
    cases hnames : symbolNames .structField fields with
    | error err' =>
      rw [hnames] at h
      cases h
      obtain ⟨x, rfl⟩ := symbolNames_error hnames
      rfl
    | ok names =>
      rw [hnames] at h
      cases h
  unfold SpecialForm.structDefinition at h
  split at h
  · exact hfields h
  · exact hfields h
  · cases h
    rfl

/-- A special form that its rule rejects is reported as malformed. -/
theorem Malformed.kind (h : Malformed e err) : err.kind = .malformed := by
  cases h with
  | define h => exact definition_error h
  | lambda h => exact lambda_error h
  | conditional h => rfl
  | defineStruct h => exact structDefinition_error h

/-! ## Calls that fail -/

/-- The errors that a step can come to, each with the form or the call that it is about. -/
inductive Escapes : Expr → Error → Prop where
  | malformed {form : Expr} {err : Error} (h : Malformed form err) : Escapes form err
  -- An accessor is given nothing, or something else than a struct of its tag.
  | notStruct {tag field : String} {args : List Expr}
      (h : Native.isStruct tag (args.head?.getD .undefined) = false) :
      Escapes (.sequence (.native (.accessor tag field) :: args))
        (.notStruct tag field (args.head?.getD .undefined))
  -- A struct of the accessor's tag was made with other fields.
  | missingField {tag field : String} {fields : List (String × Expr)} {rest : List Expr}
      (h : fields.lookup field = none) :
      Escapes (.sequence (.native (.accessor tag field) :: .struct tag fields :: rest))
        (.missingField field)
  | zeroLogarithm {x base : Expr} (h : (Number.dropZeroSign base.toNumber).log == 0.0) :
      Escapes (.sequence [.native (.builtin (.math .log)), x, base]) .zeroLogarithm

/-- A function of the library fails only as a logarithm to a base whose own logarithm is zero. -/
theorem MathFunction.eval_total (f : MathFunction) (xs : List Float) :
    (∃ v, f.eval xs = .ok v) ∨
      f = .log ∧ ∃ x base, xs = [x, base] ∧ (base.log == 0.0) = true ∧
        f.eval xs = .error .zeroLogarithm := by
  cases f with
  | log =>
    match xs with
    | [] => exact Or.inl ⟨_, rfl⟩
    | [x] => exact Or.inl ⟨_, rfl⟩
    | [x, base] =>
      simp only [MathFunction.eval, MathFunction.logTo]
      split
      · exact Or.inl ⟨_, rfl⟩
      · split
        · rename_i hzero
          exact Or.inr ⟨trivial, x, base, rfl, hzero, rfl⟩
        · exact Or.inl ⟨_, rfl⟩
    | _ :: _ :: _ :: _ => exact Or.inl ⟨_, rfl⟩
  | perm =>
    simp only [MathFunction.eval]
    split <;> exact Or.inl ⟨_, rfl⟩
  | _ => exact Or.inl ⟨_, rfl⟩

/-- A built-in gives a value for any arguments, unless it is the logarithm of something to a base
whose own logarithm is zero. -/
theorem Builtin.call_total (b : Builtin) (args : List Expr) :
    (∃ v, b.call args = .ok v) ∨
      b = .math .log ∧ ∃ x base, args = [x, base] ∧
        ((Number.dropZeroSign base.toNumber).log == 0.0) = true ∧
        b.call args = .error .zeroLogarithm := by
  cases b with
  | math f =>
    rcases f.eval_total (args.map fun e => Number.dropZeroSign e.toNumber) with
      hvalue | ⟨rfl, x, base, hargs, hzero, herror⟩
    · exact Or.inl hvalue
    · right
      match args with
      | [x', base'] =>
        obtain ⟨rfl, rfl⟩ : Number.dropZeroSign x'.toNumber = x ∧
            Number.dropZeroSign base'.toNumber = base := by simpa using hargs
        exact ⟨rfl, x', base', rfl, hzero, herror⟩
  | _ => exact Or.inl ⟨_, rfl⟩

/-! ### Arguments that the library refuses -/

namespace MathFunction

/-- The number of arguments without which a function has no value. -/
def required : MathFunction → Nat
  | gcd | hypot | lcm => 0
  | atan2 | comb | copysign | dist | fmod | isclose | ldexp | nextafter | pow | remainder => 2
  | _ => 1

/-- The arguments of a function that have to be integers. -/
def integers : MathFunction → List Float → List Float
  | factorial | isqrt => List.take 1
  | comb | perm => List.take 2
  | ldexp => fun xs => (xs.drop 1).take 1
  | gcd | lcm => id
  | _ => fun _ => []

/-- The integers among the arguments of a function that must not be negative. -/
def naturals : MathFunction → List Float → List Float
  | factorial | isqrt => List.take 1
  | comb | perm => List.take 2
  | _ => fun _ => []

/-- The integer that a function rounds its argument to. -/
def rounding? : MathFunction → Option (Float → Option Int)
  | ceil => some Number.ceilInt?
  | floor => some Number.floorInt?
  | trunc => some Number.truncInt?
  | _ => none

/-- The real function that a function of the library gives the values of, where they are finite. -/
def bounded? : MathFunction → Option (Float → Float)
  | acos => some Float.acos
  | acosh => some Float.acosh
  | asin => some Float.asin
  | asinh => some Float.asinh
  | atan => some Float.atan
  | atanh => some Float.atanh
  | cbrt => some Float.cbrt
  | cos => some Float.cos
  | cosh => some Float.cosh
  | exp => some Float.exp
  | exp2 => some Float.exp2
  | expm1 => some Number.expLessOne
  | sin => some Float.sin
  | sinh => some Float.sinh
  | sqrt => some Float.sqrt
  | tan => some Float.tan
  | tanh => some Float.tanh
  | _ => none

/-- Why a function of the library refuses its arguments: their number or their kind, an argument
outside of its domain, or a result out of range. The list leaves out products of more factors than
can be counted, and what the gamma functions refuse apart from their poles. -/
inductive Refuses : MathFunction → List Float → Prop where
  | missing {f : MathFunction} {xs : List Float} (h : xs.length < f.required) : Refuses f xs
  | surplus {xs : List Float} (h : 2 < xs.length) : Refuses log xs
  -- These take lists of numbers, and no argument is one.
  | number {f : MathFunction} {xs : List Float} (h : f ∈ [dist, fsum, prod]) : Refuses f xs
  | fraction {f : MathFunction} {xs : List Float} {x : Float} (h : x ∈ f.integers xs)
      (hx : Number.toInt? x = none) : Refuses f xs
  | negative {f : MathFunction} {xs : List Float} {x : Float} {n : Int} (h : x ∈ f.naturals xs)
      (hx : Number.toInt? x = some n) (hn : n < 0) : Refuses f xs
  -- An infinity and `nan` are rounded to no integer.
  | unrounded {f : MathFunction} {g : Float → Option Int} {x : Float} {xs : List Float}
      (h : f.rounding? = some g) (hx : g x = none) : Refuses f (x :: xs)
  | logarithm {f : MathFunction} {x : Float} {xs : List Float} (h : f ∈ [log, log10, log2])
      (hx : x ≤ 0.0) : Refuses f (x :: xs)
  | base {x base : Float} (h : base ≤ 0.0) : Refuses log [x, base]
  | oneMore {x : Float} {xs : List Float} (hx : x ≤ -1.0) : Refuses log1p (x :: xs)
  | pole {f : MathFunction} {x : Float} {xs : List Float} {n : Int} (h : f ∈ [gamma, lgamma])
      (hx : Number.toInt? x = some n) (hn : n ≤ 0) : Refuses f (x :: xs)
  | dividend {f : MathFunction} {x y : Float} {xs : List Float} {negative : Bool}
      (h : f ∈ [fmod, remainder]) (hx : Number.parts x = .infinite negative) :
      Refuses f (x :: y :: xs)
  | divisor {f : MathFunction} {x y : Float} {xs : List Float} {negative : Bool} {exponent : Int}
      (h : f ∈ [fmod, remainder]) (hy : Number.parts y = .finite negative 0 exponent) :
      Refuses f (x :: y :: xs)
  | domain {f : MathFunction} {g : Float → Float} {x : Float} {xs : List Float}
      (h : f.bounded? = some g) (number : x.isNaN = false) (undefined : (g x).isNaN = true) :
      Refuses f (x :: xs)
  | range {f : MathFunction} {g : Float → Float} {x : Float} {xs : List Float}
      (h : f.bounded? = some g) (finite : x.isFinite = true) (infinite : (g x).isInf = true) :
      Refuses f (x :: xs)
  | power {x y : Float} {xs : List Float} (hx : x.isFinite = true) (hy : y.isFinite = true)
      (h : (x.pow y).isFinite = false) : Refuses pow (x :: y :: xs)
  | scaled {x y : Float} {xs : List Float} {negative : Bool} {mantissa : Nat} {exponent n : Int}
      (hx : Number.parts x = .finite negative mantissa exponent) (hy : Number.toInt? y = some n)
      (h : (Number.ofScaled negative mantissa (exponent + n)).isInf = true) :
      Refuses ldexp (x :: y :: xs)

variable {f : MathFunction} {xs : List Float}

theorem required_le (f : MathFunction) : f.required ≤ 2 := by
  cases f <;> decide

theorem eval_missing (h : xs.length < f.required) : f.eval xs = .ok (.number Number.nan) := by
  match xs with
  | [] => cases f <;> first | rfl | cases h
  | [x] => cases f <;> first | rfl | (simp [required] at h)
  | _ :: _ :: _ =>
    have htwo := f.required_le
    simp only [List.length_cons] at h
    omega

/-- A function of one integer refuses an argument that is none, or at which it has no value. -/
theorem unaryInt_refused {g : Int → Float} {x : Float} (h : x ∈ xs.take 1)
    (hx : ∀ n, Number.toInt? x = some n → g n = Number.nan) :
    unaryInt g xs = .number Number.nan := by
  match xs with
  | y :: _ =>
    obtain rfl : x = y := by simpa using h
    cases hn : Number.toInt? x with
    | none => simp [unaryInt, hn, value]
    | some n => simp [unaryInt, hn, hx n hn, value]

/-- A function of two integers refuses an argument that is none, or at which it has no value
whatever the other one is. -/
theorem binaryInt_refused {g : Int → Int → Float} {x : Float} (h : x ∈ xs.take 2)
    (hx : ∀ n, Number.toInt? x = some n → ∀ k, g n k = Number.nan ∧ g k n = Number.nan) :
    binaryInt g xs = .number Number.nan := by
  match xs with
  | [_] => rfl
  | y :: z :: _ =>
    have hmem : x = y ∨ x = z := by simpa using h
    cases hn : Number.toInt? x with
    | none => rcases hmem with rfl | rfl <;> simp [binaryInt, hn, value]
    | some n =>
      have hvalue := hx n hn
      rcases hmem with rfl | rfl
      · cases hk : Number.toInt? z <;> simp [binaryInt, hn, hk, hvalue, value]
      · cases hk : Number.toInt? y <;> simp [binaryInt, hn, hk, hvalue, value]

theorem anyInts_fraction (g : List Int → Float) {x : Float} (h : x ∈ xs)
    (hx : Number.toInt? x = none) : anyInts g xs = .number Number.nan := by
  have hnone : xs.mapM Number.toInt? = none := by
    induction xs with
    | nil => cases h
    | cons y ys ih =>
      rcases List.mem_cons.mp h with rfl | h
      · simp [hx]
      · simp [ih h]
  simp [anyInts, hnone, value]

theorem eval_fraction {x : Float} (h : x ∈ f.integers xs) (hx : Number.toInt? x = none) :
    f.eval xs = .ok (.number Number.nan) := by
  cases f with
  | factorial | isqrt => exact congrArg _ (unaryInt_refused h (by simp [hx]))
  | comb => exact congrArg _ (binaryInt_refused h (by simp [hx]))
  | gcd | lcm => exact congrArg _ (anyInts_fraction _ h hx)
  | perm =>
    simp only [MathFunction.eval]
    split
    · exact congrArg _ (unaryInt_refused h (by simp [hx]))
    · exact congrArg _ (binaryInt_refused h (by simp [hx]))
  | ldexp =>
    match xs with
    | [_] => cases h
    | y :: z :: _ =>
      obtain rfl : x = z := by simpa [integers] using h
      simp [MathFunction.eval, binary, hx, value]
  | _ => cases h

theorem eval_negative {x : Float} {n : Int} (h : x ∈ f.naturals xs)
    (hx : Number.toInt? x = some n) (hn : n < 0) : f.eval xs = .ok (.number Number.nan) := by
  have hfactorial : ∀ m, Number.toInt? x = some m → Number.factorial m = Number.nan := by
    intro m hm
    cases hx.symm.trans hm
    simp [Number.factorial, hn]
  cases f with
  | factorial => exact congrArg _ (unaryInt_refused h hfactorial)
  | isqrt =>
    refine congrArg _ (unaryInt_refused h fun m hm => ?_)
    cases hx.symm.trans hm
    exact if_pos hn
  | comb =>
    refine congrArg _ (binaryInt_refused h fun m hm k => ?_)
    cases hx.symm.trans hm
    simp [Number.combinations, hn]
  | perm =>
    simp only [MathFunction.eval]
    split
    · exact congrArg _ (unaryInt_refused h hfactorial)
    · refine congrArg _ (binaryInt_refused h fun m hm k => ?_)
      cases hx.symm.trans hm
      simp [Number.permutations, hn]
  | _ => cases h

theorem eval_logarithm {x : Float} (h : f ∈ [log, log10, log2]) (hx : x ≤ 0.0) :
    f.eval (x :: xs) = .ok (.number Number.nan) := by
  have hnone : ∀ g, Number.logarithm g x = Number.nan := fun g => if_pos hx
  simp only [List.mem_cons, List.not_mem_nil, or_false] at h
  rcases h with rfl | rfl | rfl
  · match xs with
    | [] => simp [MathFunction.eval, logTo, value, hnone]
    | [base] => simp [MathFunction.eval, logTo, value, hx]
    | _ :: _ :: _ => rfl
  · simp [MathFunction.eval, unary, value, hnone]
  · simp [MathFunction.eval, unary, value, hnone]

theorem eval_bounded {g : Float → Float} (h : f.bounded? = some g) (x : Float) (xs : List Float) :
    f.eval (x :: xs) = .ok (value (Number.within g x)) := by
  cases f <;> cases h <;> rfl

theorem eval_rounding {g : Float → Option Int} (h : f.rounding? = some g) (x : Float)
    (xs : List Float) : f.eval (x :: xs) = .ok (value (Number.ofInt? (g x))) := by
  cases f <;> cases h <;> rfl

theorem eval_pole {x : Float} {n : Int} (h : f ∈ [gamma, lgamma]) (hx : Number.toInt? x = some n)
    (hn : n ≤ 0) : f.eval (x :: xs) = .ok (.number Number.nan) := by
  simp only [List.mem_cons, List.not_mem_nil, or_false] at h
  rcases h with rfl | rfl
  · simp [MathFunction.eval, unary, value, Number.gamma, hx, hn]
  · simp [MathFunction.eval, unary, value, Number.logGamma, hx, hn]

/-- There is no remainder of an infinity, and none of a division by zero. -/
theorem eval_remainder {x y : Float} (h : f ∈ [fmod, remainder])
    (hparts : (∃ negative, Number.parts x = .infinite negative) ∨
      ∃ negative exponent, Number.parts y = .finite negative 0 exponent) :
    f.eval (x :: y :: xs) = .ok (.number Number.nan) := by
  have hnone : Number.truncatedRemainder x y = Number.nan ∧
      Number.nearestRemainder x y = Number.nan := by
    unfold Number.truncatedRemainder Number.nearestRemainder
    rcases hparts with ⟨negative, hx⟩ | ⟨negative, exponent, hy⟩
    · simp [hx]
    · rw [hy]
      cases Number.parts x <;> simp
  simp only [List.mem_cons, List.not_mem_nil, or_false] at h
  rcases h with rfl | rfl
  · simp [MathFunction.eval, binary, value, hnone.1]
  · simp [MathFunction.eval, binary, value, hnone.2]

/-- What the library refuses for one of these reasons is `nan`. -/
theorem Refuses.eval (h : f.Refuses xs) : f.eval xs = .ok (.number Number.nan) := by
  cases h with
  | missing h => exact eval_missing h
  | surplus h =>
    match xs with
    | _ :: _ :: _ :: _ => rfl
  | number h =>
    simp only [List.mem_cons, List.not_mem_nil, or_false] at h
    rcases h with rfl | rfl | rfl <;> rfl
  | fraction h hx => exact eval_fraction h hx
  | negative h hx hn => exact eval_negative h hx hn
  | unrounded h hx =>
    rw [eval_rounding h, hx]
    rfl
  | logarithm h hx => exact eval_logarithm h hx
  | base h => simp [MathFunction.eval, logTo, value, h]
  | oneMore hx => simp [MathFunction.eval, unary, value, Number.logOneMore, hx]
  | pole h hx hn => exact eval_pole h hx hn
  | dividend h hx => exact eval_remainder h (.inl ⟨_, hx⟩)
  | divisor h hy => exact eval_remainder h (.inr ⟨_, _, hy⟩)
  | @domain _ g x xs h number undefined =>
    have hnan : Number.within g x = Number.nan := by
      simp only [Number.within, number, undefined, Bool.not_false, Bool.and_self, Bool.or_true,
        if_true]
    rw [eval_bounded h, hnan]
    rfl
  | @range _ g x xs h finite infinite =>
    have hnan : Number.within g x = Number.nan := by
      simp only [Number.within, infinite, finite, Bool.and_self, Bool.true_or, if_true]
    rw [eval_bounded h, hnan]
    rfl
  | power hx hy h => simp [MathFunction.eval, binary, value, Number.power, hx, hy, h]
  | scaled hx hy h => simp [MathFunction.eval, binary, value, Number.scaleByPower, hx, hy, h]

end MathFunction

/-! ### Applications -/

theorem Native.access_escapes {tag field : String}
    (h : Native.access tag field (args.head?.getD .undefined) = .error err) :
    Escapes (.sequence (.native (.accessor tag field) :: args)) err := by
  unfold Native.access at h
  split at h
  · rename_i other fields hstruct
    split at h
    · rename_i htag
      obtain rfl : other = tag := by simpa using htag
      split at h
      · cases h
      · rename_i hlookup
        cases h
        cases args with
        | nil => cases hstruct
        | cons first rest =>
          obtain rfl : first = .struct other fields := hstruct
          exact .missingField hlookup
    · rename_i htag
      cases h
      refine .notStruct ?_
      rw [hstruct]
      simpa [Native.isStruct] using htag
  · rename_i hother
    cases h
    refine .notStruct ?_
    generalize args.head?.getD Expr.undefined = actual at hother ⊢
    cases actual with
    | struct tag' fields => exact absurd rfl (hother tag' fields)
    | _ => rfl

/-- What the application of a procedure fails with. -/
theorem applyCall_escapes (callable : f.isFunction = true) (h : applyCall f args = .error err) :
    Escapes (.sequence (f :: args)) err := by
  cases f with
  | closure params body name => cases h
  | native p =>
    cases p with
    | builtin b =>
      have hcall : b.call args = .error err := h
      rcases b.call_total args with ⟨v, hvalue⟩ | ⟨rfl, x, base, rfl, hzero, herror⟩
      · rw [hvalue] at hcall
        cases hcall
      · rw [herror] at hcall
        cases hcall
        exact .zeroLogarithm hzero
    | constructor tag fields => cases h
    | predicate tag => cases h
    | accessor tag field => exact Native.access_escapes h
  | _ => cases callable

/-! ## Where a step fails -/

/-- A step meets a form or a call: what leads its first pass, a call of its second, or what the step
of a part of a special form meets. -/
inductive Meets (env : Environment) (r : Expr) : Expr → Prop where
  | form {e : Expr} (leads : Leads env r e) : Meets env r e
  | call {e : Expr} {C : Context} {built : Bool} (silent : Silent env built e (C.fill r))
      (way : C.Open r) : Meets env r e
  | inside {e form part : Expr} (leads : Leads env form e) (isPart : PartOf part form)
      (inner : Meets env r part) : Meets env r e

/-- A step of an expression meets something that the error is about. -/
def Raises (env : Environment) (err : Error) (e : Expr) : Prop :=
  ∃ r, Meets env r e ∧ Escapes r err

/-- The first pass fails at a special form: it is malformed, or the step of a part of it fails. -/
def FailsAt (env : Environment) (err : Error) (form : Expr) : Prop :=
  Malformed form err ∨ ∃ part, PartOf part form ∧ Raises env err part

theorem Leads.item {x : Expr} {before after : List Expr} (h : Leads env r x)
    (plain : MacroTable.standard.isMacroCall (before ++ x :: after) = false)
    (quiet : ∀ b ∈ before, Quiet .expansion env b) :
    Leads env r (.sequence (before ++ x :: after)) := by
  obtain ⟨D, rfl, hopen, hleft⟩ := h
  exact ⟨.item before D after, rfl, ⟨plain, hopen⟩, List.forall_mem_append.mpr ⟨quiet, hleft⟩⟩

theorem Leads.raises (h : Leads env r e) (hr : FailsAt env err r) : Raises env err e := by
  rcases hr with hmalformed | ⟨part, hpart, culprit, hreaches, hescapes⟩
  · exact ⟨r, .form h, .malformed hmalformed⟩
  · exact ⟨culprit, .inside h hpart hreaches, hescapes⟩

/-! ## The second pass -/

theorem reduceItems_error (h : reduceItems .standard env items = .error err) :
    ∃ before x after, items = before ++ x :: after ∧ reduce .standard env x = .error err := by
  induction items with
  | nil => cases h
  | cons item rest ih =>
    rw [reduceItems] at h
    cases hitem : reduce .standard env item with
    | error err' =>
      rw [hitem] at h
      cases h
      exact ⟨[], item, rest, rfl, hitem⟩
    | ok first =>
      obtain ⟨stepped, first⟩ := first
      rw [hitem] at h
      cases stepped with
      | true => cases h
      | false =>
        cases hrest : reduceItems .standard env rest with
        | error err' =>
          simp only [bind, Except.bind, hrest] at h
          cases h
          obtain ⟨before, x, after, rfl, hx⟩ := ih hrest
          exact ⟨item :: before, x, after, rfl, hx⟩
        | ok found =>
          simp only [bind, Except.bind, hrest] at h
          cases h

/-- The second pass fails in the application of a procedure. -/
theorem reduce_raises (h : reduce .standard env e = .error err) :
    ∃ (C : Context) (f : Expr) (args : List Expr), Silent env false e (C.fill (.sequence (f :: args))) ∧
      C.Open (.sequence (f :: args)) ∧ Escapes (.sequence (f :: args)) err := by
  induction e using Expr.sequence_induction with
  | leaf e hleaf =>
    cases e with
    | symbol name =>
      rw [reduce] at h
      split at h <;> cases h
    | sequence items => exact absurd rfl (hleaf items)
    | _ => cases h
  | sequence items ih =>
    cases plain : MacroTable.standard.isMacroCall items with
    | true =>
      rw [reduce_special plain] at h
      cases h
    | false =>
      rw [reduce_items plain] at h
      split at h
      -- the failure of an item is one of the sequence
      · rename_i err' hitems
        cases h
        obtain ⟨before, x, after, rfl, hx⟩ := reduceItems_error hitems
        obtain ⟨C, f, args, hsilent, hopen, hescapes⟩ := ih x (by simp) hx
        have hplain := MacroTable.isMacroCall_replace _ before after plain hsilent.rule?_eq_none
        exact ⟨.item before C after, f, args, hsilent.item before after plain, ⟨hplain, hopen⟩,
          hescapes⟩
      · cases h
      · rename_i results hstill
        obtain ⟨rfl, -⟩ := reduceItems_still hstill
        split at h
        · cases h
        · rename_i f args hcall
          split at h
          · rename_i callable
            cases happly : applyCall f args with
            | ok r =>
              rw [happly] at h
              cases h
            | error err' =>
              rw [happly] at h
              cases h
              have hsilent := (SilentItems.named env items).rebuilt plain
              rw [hcall] at hsilent
              exact ⟨.hole, f, args, hsilent, trivial, applyCall_escapes callable happly⟩
          · cases h

/-! ## The first pass -/

theorem expandItems_error (h : (expandItems .standard items).exec env = (.error err, env')) :
    ∃ before x after, items = before ++ x :: after ∧
      (∀ b ∈ before, Quiet .expansion env b) ∧
      (expand .standard x).exec env = (.error err, env') := by
  induction items with
  | nil =>
    rw [expandItems] at h
    cases h
  | cons x xs ih =>
    -- behind a quiet item the failure is one of the rest
    have hnext : ∀ {change : Change Expr}, (expand .standard x).exec env = (.ok change, env) →
        change.endsPass = false → Quiet .expansion env x →
        ∃ before y after, x :: xs = before ++ y :: after ∧
          (∀ b ∈ before, Quiet .expansion env b) ∧
          (expand .standard y).exec env = (.error err, env') := by
      intro change hx goesOn quiet
      rw [expandItems_cons hx goesOn, Stepping.exec_bind] at h
      cases hrest : (expandItems .standard xs).exec env with
      | mk result env₁ =>
        rw [hrest] at h
        cases result with
        | ok others => cases h
        | error err' =>
          cases h
          obtain ⟨before, y, after, rfl, hbefore, hy⟩ := ih hrest
          exact ⟨x :: before, y, after, rfl, List.forall_mem_cons.mpr ⟨quiet, hbefore⟩, hy⟩
    have hspec := expand_spec x env
    cases hx : (expand .standard x).exec env with
    | mk result env₁ =>
      rw [hx] at hspec
      cases hspec with
      | failed err' =>
        rw [expandItems, consPass, Stepping.exec_bind_of_error hx] at h
        cases h
        exact ⟨[], x, xs, rfl, List.forall_mem_nil _, hx⟩
      | unchanged quiet => exact hnext hx rfl quiet
      | silent silent quiet => exact hnext hx rfl quiet
      | visible silent way rule first =>
        rw [expandItems, consPass, Stepping.exec_bind_of_ok hx] at h
        cases h

/-- Where a rule applies, the first pass does not fail. -/
theorem Rule.no_error {r' : Expr} {env₁ : Environment}
    (h : Rule (fun _ _ => True) (fun _ _ _ _ => True) .expansion env r r' env₁) :
    (expand .standard r).exec env ≠ (.error err, env') := by
  rw [h.expand_eq]
  nofun

theorem expand_define_error (free : env.user.frozen = false)
    (h : (expand .standard (.sequence (.symbol "define" :: args))).exec env = (.error err, env')) :
    Malformed (.sequence (.symbol "define" :: args)) err := by
  cases hparts : SpecialForm.definition args with
  | ok bound => exact absurd h (Rule.no_error (.definition (.define hparts) free))
  | error err' =>
    cases h.symm.trans (SpecialForm.expand_malformed rfl (SpecialForm.define_exec_malformed hparts))
    exact .define hparts

theorem expand_defineStruct_error (free : env.user.frozen = false)
    (h : (expand .standard (.sequence (.symbol "define-struct" :: args))).exec env =
      (.error err, env')) :
    Malformed (.sequence (.symbol "define-struct" :: args)) err := by
  cases hparts : SpecialForm.structDefinition args with
  | ok bound => exact absurd h (Rule.no_error (.definition (.defineStruct hparts) free))
  | error err' =>
    cases h.symm.trans
      (SpecialForm.expand_malformed rfl (SpecialForm.defineStruct_exec_malformed hparts))
    exact .defineStruct hparts

theorem expand_lambda_error
    (h : (expand .standard (.sequence (.symbol "lambda" :: args))).exec env = (.error err, env')) :
    Malformed (.sequence (.symbol "lambda" :: args)) err := by
  have hrule : MacroTable.standard.rule? (.symbol "lambda") = some .lambda := rfl
  rw [expand_special hrule] at h
  change (SpecialForm.conclude _ (SpecialForm.lambda args)).exec env = _ at h
  cases hclosure : SpecialForm.lambda args with
  | becomes e =>
    rw [hclosure] at h
    cases h
  | deferred =>
    rw [hclosure] at h
    cases h
  | failed err' =>
    rw [hclosure] at h
    cases h
    exact .lambda hclosure

/-- An `if` fails if it has too few parts, and with its test. -/
theorem expand_if_error
    (h : (expand .standard (.sequence (.symbol "if" :: args))).exec env = (.error err, env')) :
    Malformed (.sequence (.symbol "if" :: args)) err ∨
      ∃ part, PartOf part (.sequence (.symbol "if" :: args)) ∧ part ∈ args ∧
        (step .standard part).exec env = (.error err, env') := by
  match args with
  | [] =>
    cases h
    exact Or.inl (.conditional (by simp))
  | [_] =>
    cases h
    exact Or.inl (.conditional (by simp))
  | test :: thenBranch :: rest =>
    by_cases hfalse : test.isFalse = true
    · exact absurd h (Rule.no_error (.ifFalse hfalse))
    by_cases htrue : test = .boolean true
    · subst htrue
      exact absurd h (Rule.no_error .ifTrue)
    have undecided : test.isFalse = false := by simpa using hfalse
    cases hbound : mentionsUnbound env .standard [] test with
    | true =>
      have hwaits : (expand .standard (.sequence (.symbol "if" :: test :: thenBranch :: rest))).exec
          env = (.ok .unchanged, env) := by
        refine SpecialForm.expand_deferred rfl ?_
        simp only [SpecialForm.run]
        rw [SpecialForm.conditional_undecided undecided htrue, hbound]
        rfl
      rw [hwaits] at h
      cases h
    | false =>
      have hframed := step_framed test env
      cases hstep : (step .standard test).exec env with
      | mk result env₁ =>
        rw [hstep] at hframed
        cases hframed with
        | still e => exact absurd h (Rule.no_error (.ifSettled undecided htrue hbound hstep))
        | moved e _ => exact absurd h (Rule.no_error (.ifTest undecided htrue hbound hstep trivial))
        | failed err' =>
          have hfails : (expand .standard (.sequence (.symbol "if" :: test :: thenBranch :: rest))).exec
              env = (.error err', env) := by
            refine SpecialForm.expand_failed rfl ?_
            simp only [SpecialForm.run]
            rw [SpecialForm.conditional_undecided undecided htrue, hbound, stepFirst_cons, hstep]
            rfl
          rw [hfails] at h
          cases h
          exact Or.inr ⟨test, .test, by simp, hstep⟩

/-- An `apply` fails with its function or with its last argument. -/
theorem expand_apply_error
    (h : (expand .standard (.sequence (.symbol "apply" :: args))).exec env = (.error err, env')) :
    ∃ part, PartOf part (.sequence (.symbol "apply" :: args)) ∧ part ∈ args ∧
      (step .standard part).exec env = (.error err, env') := by
  match args with
  | [] => cases h
  | [_] => cases h
  | function :: arg :: more =>
    obtain ⟨lead, last, hargs⟩ : ∃ lead last, arg :: more = lead ++ [last] :=
      ⟨_, _, (List.dropLast_concat_getLast (List.cons_ne_nil arg more)).symm⟩
    rw [hargs] at h ⊢
    have hframed := step_framed function env
    cases hstep : (step .standard function).exec env with
    | mk result env₁ =>
      rw [hstep] at hframed
      have hfirst := hstep
      rw [← stepFirst_cons .standard function (lead ++ [last])] at hfirst
      cases hframed with
      | failed err' =>
        cases h.symm.trans (SpecialForm.expand_failed rfl (SpecialForm.spread_failed hfirst))
        exact ⟨function, .function, by simp, hstep⟩
      | moved f _ => exact absurd h (Rule.no_error (.applyFunction hstep trivial))
      | still f =>
        cases hcallable : f.isFunction with
        | false =>
          cases h.symm.trans
            (SpecialForm.expand_deferred rfl (SpecialForm.spread_deferred hfirst hcallable))
        | true =>
          -- the function did not step, so the last argument meets the same layers
          have hframed := step_framed last env
          cases hfinal : (step .standard last).exec env with
          | mk result env₂ =>
            rw [hfinal] at hframed
            have hlast := hfinal
            rw [← stepLast_concat .standard (function :: lead) last] at hlast
            cases hframed with
            | failed err' =>
              cases h.symm.trans (SpecialForm.expand_failed rfl
                (SpecialForm.spread_failed_last hfirst hcallable hlast))
              exact ⟨last, .last, by simp, hfinal⟩
            | moved e _ =>
              exact absurd h (Rule.no_error (.applyLast hstep hcallable hfinal trivial))
            | still e =>
              cases e with
              | sequence items =>
                exact absurd h (Rule.no_error (.applyCall hstep hcallable hfinal))
              | _ =>
                cases h.symm.trans (SpecialForm.expand_deferred rfl
                  (SpecialForm.spread_deferred_last hfirst hcallable hlast nofun))

/-- What the first pass fails at leads it: a special form that is malformed, or whose part fails. -/
theorem expand_special_error {head : Expr} {rule : MacroRule} (free : env.user.frozen = false)
    (hrule : MacroTable.standard.rule? head = some rule)
    (hparts : ∀ a ∈ args, (step .standard a).exec env = (.error err, env') → Raises env err a)
    (h : (expand .standard (.sequence (head :: args))).exec env = (.error err, env')) :
    FailsAt env err (.sequence (head :: args)) := by
  rcases MacroTable.rule?_standard hrule with
    ⟨rfl, -⟩ | ⟨rfl, -⟩ | ⟨rfl, -⟩ | ⟨rfl, -⟩ | ⟨rfl, -⟩ | ⟨rfl, -⟩
  · exact Or.inl (expand_define_error free h)
  · exact Or.inl (expand_lambda_error h)
  · rcases expand_if_error h with hmalformed | ⟨part, hpart, hmem, hstep⟩
    · exact Or.inl hmalformed
    · exact Or.inr ⟨part, hpart, hparts part hmem hstep⟩
  · obtain ⟨part, hpart, hmem, hstep⟩ := expand_apply_error h
    exact Or.inr ⟨part, hpart, hparts part hmem hstep⟩
  · exact absurd h (Rule.no_error .list)
  · exact Or.inl (expand_defineStruct_error free h)

/-- A step fails where one of its passes does. -/
theorem step_raises_of
    (hexpand : ∀ {err env'}, (expand .standard e).exec env = (.error err, env') →
      ∃ r, Leads env r e ∧ FailsAt env err r)
    (h : (step .standard e).exec env = (.error err, env')) : Raises env err e := by
  have hspec := expand_spec e env
  cases hfirst : (expand .standard e).exec env with
  | mk result env₁ =>
    rw [hfirst] at hspec
    cases hspec with
    | failed err' =>
      rw [step_of_failed hfirst] at h
      cases h
      obtain ⟨r, hleads, hfails⟩ := hexpand hfirst
      exact hleads.raises hfails
    | unchanged quiet =>
      rw [step_of_unchanged hfirst] at h
      cases hsecond : reduce .standard env e with
      | ok s =>
        rw [hsecond] at h
        cases h
      | error err' =>
        rw [hsecond] at h
        cases h
        obtain ⟨C, f, args, hsilent, hopen, hescapes⟩ := reduce_raises hsecond
        exact ⟨_, .call hsilent hopen, hescapes⟩
    | @silent e₁ silent quiet =>
      rw [step_of_silent hfirst] at h
      cases hsecond : reduce .standard env e₁ with
      | ok s =>
        rw [hsecond] at h
        cases h
      | error err' =>
        rw [hsecond] at h
        cases h
        obtain ⟨C, f, args, hsilent, hopen, hescapes⟩ := reduce_raises hsecond
        exact ⟨_, .call (silent.trans hsilent) hopen, hescapes⟩
    | visible silent way rule first =>
      rw [step_of_visible hfirst] at h
      cases h

/-- The first pass fails at the special form that leads it. -/
theorem expand_raises (free : env.user.frozen = false)
    (h : (expand .standard e).exec env = (.error err, env')) :
    ∃ r, Leads env r e ∧ FailsAt env err r := by
  induction e using Expr.sequence_induction generalizing err env' with
  | leaf e hleaf =>
    rw [expand_leaf hleaf] at h
    cases h
  | sequence items ih =>
    cases hmacro : MacroTable.standard.isMacroCall items with
    | true =>
      cases items with
      | nil => cases hmacro
      | cons head args =>
        obtain ⟨rule, hrule⟩ := Option.isSome_iff_exists.mp hmacro
        have hparts : ∀ a ∈ args, (step .standard a).exec env = (.error err, env') →
            Raises env err a :=
          fun a ha => step_raises_of fun h => ih a (List.mem_cons_of_mem head ha) h
        exact ⟨_, ⟨.hole, rfl, trivial, List.forall_mem_nil _⟩,
          expand_special_error free hrule hparts h⟩
    | false =>
      rw [expand_items hmacro, Stepping.exec_bind] at h
      cases hitems : (expandItems .standard items).exec env with
      | mk result env₁ =>
        rw [hitems] at h
        cases result with
        | ok change => cases h
        | error err' =>
          cases h
          obtain ⟨before, x, after, rfl, hbefore, hx⟩ := expandItems_error hitems
          obtain ⟨r, hleads, hfails⟩ := ih x (by simp) hx
          exact ⟨r, hleads.item hmacro hbefore, hfails⟩

/-! ## Steps of programs -/

theorem step_raises (free : env.user.frozen = false)
    (h : (step .standard e).exec env = (.error err, env')) : Raises env err e :=
  step_raises_of (fun h => expand_raises free h) h

/-- The forms before the one that fails do not step, so it meets the layers as they were. -/
theorem stepForms_raises {forms : List Expr} (free : env.user.frozen = false)
    (h : (stepForms .standard forms).exec env = (.error err, env')) :
    ∃ top ∈ forms, Raises env err top := by
  induction forms with
  | nil => cases h
  | cons form rest ih =>
    have hframed := step_framed form env
    rw [stepForms, Stepping.exec_bind] at h
    cases hstep : (step .standard form).exec env with
    | mk result env₁ =>
      rw [hstep] at hframed h
      cases hframed with
      | failed err' =>
        cases h
        exact ⟨form, List.mem_cons_self, step_raises free hstep⟩
      | moved e _ => cases h
      | still e =>
        simp only [Bool.false_eq_true, if_false] at h
        rw [Stepping.exec_bind] at h
        cases hrest : (stepForms .standard rest).exec env with
        | mk result env₂ =>
          rw [hrest] at h
          cases result with
          | ok found => cases h
          | error err' =>
            cases h
            obtain ⟨top, htop, hraises⟩ := ih hrest
            exact ⟨top, List.mem_cons_of_mem form htop, hraises⟩

theorem stepProgram_raises {program : Program} (free : env.user.frozen = false)
    (h : (stepProgram .standard program).exec env = (.error err, env')) :
    ∃ top ∈ program, Raises env err top := by
  unfold stepProgram at h
  rw [Stepping.exec_bind] at h
  cases hforms : (stepForms .standard program).exec env with
  | mk result env₁ =>
    rw [hforms] at h
    cases result with
    | ok found => cases h
    | error err' =>
      cases h
      exact stepForms_raises free hforms

/-- No application meets anything but a procedure, and no definition a frozen layer. -/
theorem Escapes.ne (h : Escapes r err) :
    (∀ head, err ≠ .notFunction head) ∧ ∀ name, err ≠ .frozen name := by
  cases h with
  | malformed h =>
    -- the two are reported under other labels
    have hkind := h.kind
    refine ⟨?_, ?_⟩
    · rintro head rfl
      cases hkind
    · rintro name rfl
      cases hkind
  | _ => exact ⟨nofun, nofun⟩

theorem Escapes.of_notBindable {target : Expr} (h : Escapes r (.notBindable target)) :
    Malformed r (.notBindable target) := by
  cases h with
  | malformed h => exact h

/-- All that can escape from a step of a program, in a session whose layer is open. A malformed
special form fails as such; an accessor that is given nothing or no struct of its tag names the tag
and what it was given; one that is given a struct of its tag without its field names the field; and a
logarithm to a base whose own logarithm is zero fails. No application meets something that is no
procedure, no definition a frozen layer, and what cannot be bound is rejected before the layer is
asked. All other calls of built-ins give a value, which is `nan` for each reason in `Refuses`. -/
theorem stepProgram_escapes (free : env.user.frozen = false) :
    (∀ program err env', (stepProgram .standard program).exec env = (.error err, env') →
      (∃ top ∈ program, ∃ r, Meets env r top ∧ Escapes r err) ∧
      (∀ r, Malformed r err → err.kind = .malformed) ∧
      (∀ head, err ≠ .notFunction head) ∧ (∀ name, err ≠ .frozen name) ∧
      ∀ target, err = .notBindable target →
        ∃ top ∈ program, ∃ r, Meets env r top ∧ Malformed r err) ∧
    (∀ name value, ∃ layer, env.user.define name value = .ok layer) ∧
    (∀ (b : Builtin) args, (∃ v, b.call args = .ok v) ∨
      b = .math .log ∧ ∃ x base, args = [x, base] ∧
        ((Number.dropZeroSign base.toNumber).log == 0.0) = true ∧
        b.call args = .error .zeroLogarithm) ∧
    (∀ (f : MathFunction) xs, f.Refuses xs → f.eval xs = .ok (.number Number.nan)) := by
  refine ⟨?_, ?_, Builtin.call_total, fun f xs h => h.eval⟩
  · intro program err env' h
    obtain ⟨top, htop, r, hreaches, hescapes⟩ := stepProgram_raises free h
    refine ⟨⟨top, htop, r, hreaches, hescapes⟩, fun _ h => h.kind, hescapes.ne.1, hescapes.ne.2, ?_⟩
    rintro target rfl
    exact ⟨top, htop, r, hreaches, hescapes.of_notBindable⟩
  · intro name value
    exact ⟨_, if_neg (by simp [free])⟩

/-- An accessor without an argument says that it was given nothing. -/
theorem stepProgram_escapes_missing :
    ∃ top ∈ [Expr.sequence [.symbol "p-a"]],
      ∃ r, Meets (Environment.fresh.bindAll (structProcedures "p" ["a"])) r top ∧
        Escapes r (.notStruct "p" "a" .undefined) := by
  have hstep : (stepProgram .standard [.sequence [.symbol "p-a"]]).exec
      (Environment.fresh.bindAll (structProcedures "p" ["a"])) =
      (.error (.notStruct "p" "a" .undefined),
        Environment.fresh.bindAll (structProcedures "p" ["a"])) := rfl
  have hfree : (Environment.fresh.bindAll (structProcedures "p" ["a"])).user.frozen = false := rfl
  obtain ⟨hfails, -⟩ := stepProgram_escapes hfree
  exact (hfails _ _ _ hstep).1

end Redex
