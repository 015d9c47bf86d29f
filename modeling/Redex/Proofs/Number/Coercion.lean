import Redex.Builtin.Operators
import Redex.Proofs.Number.Rounded
import Redex.Reader.Token

/-!
# Coercing texts to numbers

A text is coerced to the number that it starts with. What a number looks like in a text is said by a
grammar here; the scanner takes the longest start that the grammar derives, and the reader takes for a
number what the grammar derives as a whole.

* **`Denotes`** — the characters are a sign and then the word for infinity or a decimal; with the
  number that they stand for.
* **`Digits.span_append`**, **`Significand.scan`**, **`Exponent.scan`** and **`Decimal.scan`** — a scan
  never stops within what the grammar derives, and where it takes no more, it takes the same value.
* **`spanDigits_digits`**, **`scanDigits?_significand`**, **`scanExponent_exponent`** and
  **`scanUnsigned?_decimal`** — what a scan takes is derived by the grammar.
* **`numericStart?_longest`** — so a scan takes the longest start that the grammar derives.
* **`toNumber_longest`** — the coercion of a text, and that it agrees with the reader.
-/

namespace Redex.NumericText

open Text (digitValue? isBlank ofDigits spanDigits trimStart)
open Number (IsRounded infinityWord signed)
open Numeral (scanDigits? scanExponent scanExponentDigits? scanSign scanUnsigned?)

/-! ## The grammar -/

/-- The characters are decimal digits, of any script, with the given values. -/
def Digits (cs : List Char) (ds : List ℕ) : Prop :=
  List.Forall₂ (fun c d => digitValue? c = some d) cs ds

/-- An optional sign, and whether it is a minus. -/
inductive Sign : List Char → Bool → Prop where
  | none : Sign [] false
  | plus : Sign ['+'] false
  | minus : Sign ['-'] true

/-- The digits of a decimal before and after its point, at least one of them. -/
inductive Significand : List Char → List ℕ → List ℕ → Prop where
  | whole {cs : List Char} {ds : List ℕ} (digits : Digits cs ds) (hne : ds ≠ []) :
      Significand cs ds []
  -- Digits need not stand on both sides of the point.
  | point {cs cs' : List Char} {ds ds' : List ℕ} (digits : Digits cs ds) (hne : ds ≠ [])
      (fraction : Digits cs' ds') : Significand (cs ++ '.' :: cs') ds ds'
  | fraction {cs : List Char} {ds : List ℕ} (digits : Digits cs ds) (hne : ds ≠ []) :
      Significand ('.' :: cs) [] ds

/-- An optional exponent and its value. -/
inductive Exponent : List Char → ℤ → Prop where
  | none : Exponent [] 0
  | marked {mark : Char} {sign cs : List Char} {negative : Bool} {ds : List ℕ}
      (hmark : mark = 'e' ∨ mark = 'E') (hsign : Sign sign negative) (digits : Digits cs ds)
      (hne : ds ≠ []) : Exponent (mark :: (sign ++ cs)) (signed negative (ofDigits ds))

/-- A decimal without its sign, and its value. -/
inductive Decimal : List Char → ℚ → Prop where
  | intro {cs es : List Char} {whole fraction : List ℕ} {k : ℤ}
      (significand : Significand cs whole fraction) (exponent : Exponent es k) :
      Decimal (cs ++ es) (ofDigits (whole ++ fraction) * 10 ^ (k - fraction.length))

/-- The characters stand for the number: an infinity, or what their value is rounded to. -/
inductive Denotes : List Char → Float → Prop where
  | infinity {sign : List Char} {negative : Bool} (hsign : Sign sign negative) :
      Denotes (sign ++ infinityWord) (Number.infinity negative)
  | decimal {sign cs : List Char} {negative : Bool} {v : ℚ} {x : Float}
      (hsign : Sign sign negative) (h : Decimal cs v) (rounded : IsRounded negative v x) :
      Denotes (sign ++ cs) x

variable {c : Char} {cs front rest sign : List Char} {ds whole fraction : List ℕ} {k : ℤ} {v : ℚ}
  {negative : Bool} {x y : Float} {n : Numeral}

/-! ## Digits and signs -/

/-- A run of digits goes on with the digits that stand behind it. -/
theorem Digits.span_append (h : Digits front ds) (rest : List Char) :
    spanDigits (front ++ rest) = (ds ++ (spanDigits rest).1, (spanDigits rest).2) := by
  induction h with
  | nil => rfl
  | cons hd hds ih => simp [spanDigits, hd, ih]

theorem spanDigits_digits (cs : List Char) :
    ∃ front, cs = front ++ (spanDigits cs).2 ∧ Digits front (spanDigits cs).1 := by
  induction cs with
  | nil => exact ⟨[], rfl, .nil⟩
  | cons c cs ih =>
    obtain ⟨front, hcs, hdigits⟩ := ih
    rw [spanDigits]
    cases hc : digitValue? c with
    | none => exact ⟨[], rfl, .nil⟩
    | some d => exact ⟨c :: front, congrArg (c :: ·) hcs, .cons hc hdigits⟩

/-- A run of digits leaves no more than there was, and if it leaves as much, there was no digit. -/
theorem length_spanDigits (cs : List Char) : (spanDigits cs).2.length ≤ cs.length ∧
    ((spanDigits cs).2.length = cs.length → (spanDigits cs).1 = []) := by
  obtain ⟨front, hcs, hdigits⟩ := spanDigits_digits cs
  have hlength : cs.length = front.length + (spanDigits cs).2.length := by
    conv_lhs => rw [hcs, List.length_append]
  refine ⟨by omega, ?_⟩
  intro hsame
  have hfront : front = [] := List.length_eq_zero_iff.mp (by omega)
  rw [hfront] at hdigits
  exact List.forall₂_nil_left_iff.mp hdigits

/-- The characters that open a decimal. -/
def Opens (c : Char) : Prop :=
  c = '.' ∨ (digitValue? c).isSome

instance (c : Char) : Decidable (Opens c) :=
  inferInstanceAs (Decidable (c = '.' ∨ (digitValue? c).isSome))

theorem Opens.ne_of (h : Opens c) {d : Char} (hpoint : d ≠ '.') (hdigit : digitValue? d = none) :
    c ≠ d := by
  rintro rfl
  rcases h with rfl | h
  · exact hpoint rfl
  · rw [hdigit] at h
    cases h

/-- No digit is a blank. -/
theorem Opens.not_isBlank (h : Opens c) : isBlank c = false := by
  rcases h with rfl | h
  · decide
  · -- the rows of digits and the ranges of blanks lie apart
    have hapart : ∀ z ∈ Text.digitZeros, ∀ r ∈ Text.blankRanges, z + 9 < r.1 ∨ r.2 < z := by
      decide +kernel
    rw [digitValue?, Option.isSome_map, Option.isSome_iff_exists] at h
    obtain ⟨z, hz⟩ := h
    have hrow := List.find?_some hz
    simp only [Bool.and_eq_true, decide_eq_true_eq] at hrow
    rw [Text.isBlank, Text.inRanges, List.any_eq_false]
    intro r hr
    have hr' := hapart z (List.mem_of_find?_eq_some hz) r hr
    simp only [Bool.and_eq_true, decide_eq_true_eq, not_and]
    omega

theorem Digits.opens (h : Digits cs ds) (hne : ds ≠ []) : ∃ c cs', cs = c :: cs' ∧ Opens c := by
  cases h with
  | nil => exact absurd rfl hne
  | @cons c d cs ds hd _ => exact ⟨c, cs, rfl, Or.inr (by rw [hd]; rfl)⟩

theorem Significand.opens (h : Significand cs whole fraction) :
    ∃ c cs', cs = c :: cs' ∧ Opens c := by
  cases h with
  | whole digits hne => exact digits.opens hne
  | point digits hne _ =>
    obtain ⟨c, cs, rfl, hc⟩ := digits.opens hne
    exact ⟨c, _, rfl, hc⟩
  | fraction _ _ => exact ⟨'.', _, rfl, Or.inl rfl⟩

theorem Decimal.opens (h : Decimal cs v) : ∃ c cs', cs = c :: cs' ∧ Opens c := by
  cases h with
  | intro significand _ =>
    obtain ⟨c, cs, rfl, hc⟩ := significand.opens
    exact ⟨c, _, rfl, hc⟩

/-- A sign is taken, and nothing behind it that is no sign. -/
theorem Sign.scan (h : Sign sign negative) (hplus : c ≠ '+') (hminus : c ≠ '-')
    (cs : List Char) : scanSign (sign ++ c :: cs) = (negative, c :: cs) := by
  cases h with
  | none =>
    rw [List.nil_append, scanSign]
    · rintro _ ⟨rfl, -⟩
      exact hminus rfl
    · rintro _ ⟨rfl, -⟩
      exact hplus rfl
  | plus => rfl
  | minus => rfl

theorem scanSign_sign (cs : List Char) :
    ∃ sign, cs = sign ++ (scanSign cs).2 ∧ Sign sign (scanSign cs).1 := by
  unfold scanSign
  split
  · exact ⟨['-'], rfl, .minus⟩
  · exact ⟨['+'], rfl, .plus⟩
  · exact ⟨[], rfl, .none⟩

/-- Where no digit stands, none is taken. -/
theorem spanDigits_of_not_opens (h : ∀ c ∈ rest.head?, ¬ Opens c) :
    spanDigits rest = ([], rest) := by
  cases rest with
  | nil => rfl
  | cons c rest =>
    have hc : digitValue? c = none := by
      cases hd : digitValue? c with
      | none => rfl
      | some d => exact absurd (Or.inr (by rw [hd]; rfl)) (h c rfl)
    simp [spanDigits, hc]

/-! ## Digits with a point -/

theorem scanDigits?_point (h : spanDigits cs = (ds, '.' :: rest)) (hne : ds ≠ []) :
    scanDigits? cs = some (ds, (spanDigits rest).1, (spanDigits rest).2) := by
  obtain ⟨d, ds, rfl⟩ := List.exists_cons_of_ne_nil hne
  simp only [scanDigits?, h]

theorem scanDigits?_whole (h : spanDigits cs = (ds, rest)) (hne : ds ≠ [])
    (hpoint : rest.head? ≠ some '.') : scanDigits? cs = some (ds, [], rest) := by
  obtain ⟨d, ds, rfl⟩ := List.exists_cons_of_ne_nil hne
  rw [scanDigits?, h]
  split
  · rename_i heq
    cases heq
  · rename_i heq
    cases heq
  · rename_i heq
    cases heq
    exact absurd rfl hpoint
  · rename_i heq
    cases heq
    rfl

theorem scanDigits?_fraction (h : spanDigits cs = (ds, rest)) (hne : ds ≠ []) :
    scanDigits? ('.' :: cs) = some ([], ds, rest) := by
  have hpoint : spanDigits ('.' :: cs) = ([], '.' :: cs) := rfl
  obtain ⟨d, ds, rfl⟩ := List.exists_cons_of_ne_nil hne
  simp only [scanDigits?, hpoint, h]

/-- The scan takes the digits and what goes on with them, but nothing that does not. -/
theorem Significand.scan (h : Significand front whole fraction) (rest : List Char) :
    ∃ whole' fraction' rest', scanDigits? (front ++ rest) = some (whole', fraction', rest') ∧
      rest'.length ≤ rest.length ∧
      (rest'.length = rest.length → whole' = whole ∧ fraction' = fraction) ∧
      ((∀ c ∈ rest.head?, ¬ Opens c) → rest' = rest) := by
  obtain ⟨hle, hnone⟩ := length_spanDigits rest
  cases h with
  | whole digits hne =>
    have hspan := digits.span_append rest
    have hne' : whole ++ (spanDigits rest).1 ≠ [] := by simp [hne]
    by_cases hpoint : (spanDigits rest).2.head? = some '.'
    · -- the point stands behind the digits, so more is taken
      obtain ⟨tail, htail⟩ := List.head?_eq_some_iff.mp hpoint
      rw [htail] at hspan hle
      have hshorter := (length_spanDigits tail).1
      rw [List.length_cons] at hle
      refine ⟨_, _, _, scanDigits?_point hspan hne', by omega, by omega, ?_⟩
      intro hopens
      rw [spanDigits_of_not_opens hopens] at htail
      subst htail
      exact absurd (Or.inl rfl) (hopens '.' rfl)
    · refine ⟨_, _, _, scanDigits?_whole hspan hne' hpoint, hle, ?_, ?_⟩
      · intro hsame
        rw [hnone hsame, List.append_nil]
        exact ⟨rfl, rfl⟩
      · intro hopens
        rw [spanDigits_of_not_opens hopens]
  | @point cs cs' _ _ digits hne hfraction =>
    have hspan := digits.span_append ('.' :: (cs' ++ rest))
    have hstop : spanDigits ('.' :: (cs' ++ rest)) = ([], '.' :: (cs' ++ rest)) := rfl
    rw [hstop, List.append_nil] at hspan
    have hscan := scanDigits?_point hspan hne
    rw [hfraction.span_append rest] at hscan
    refine ⟨_, _, _, by rw [List.append_assoc, List.cons_append]; exact hscan, hle, ?_, ?_⟩
    · intro hsame
      rw [hnone hsame, List.append_nil]
      exact ⟨rfl, rfl⟩
    · intro hopens
      rw [spanDigits_of_not_opens hopens]
  | @fraction cs _ digits hne =>
    have hne' : fraction ++ (spanDigits rest).1 ≠ [] := by simp [hne]
    refine ⟨_, _, _, scanDigits?_fraction (digits.span_append rest) hne', hle, ?_, ?_⟩
    · intro hsame
      rw [hnone hsame, List.append_nil]
      exact ⟨rfl, rfl⟩
    · intro hopens
      rw [spanDigits_of_not_opens hopens]

theorem scanDigits?_significand (h : scanDigits? cs = some (whole, fraction, rest)) :
    ∃ front, cs = front ++ rest ∧ Significand front whole fraction := by
  obtain ⟨front, hcs, hdigits⟩ := spanDigits_digits cs
  unfold scanDigits? at h
  split at h
  · rename_i tail hspan
    obtain ⟨behind, htail, hbehind⟩ := spanDigits_digits tail
    rw [hspan] at hcs hdigits
    have hfront : front = [] := List.forall₂_nil_right_iff.mp hdigits
    split at h
    · cases h
    · rename_i hne htailSpan
      cases h
      rw [htailSpan] at htail hbehind
      exact ⟨'.' :: behind, by rw [hcs, hfront, htail]; rfl, .fraction hbehind hne⟩
  · cases h
  · rename_i tail hne hspan
    obtain ⟨behind, htail, hbehind⟩ := spanDigits_digits tail
    rw [hspan] at hcs hdigits
    cases h
    refine ⟨front ++ '.' :: behind, ?_, .point hdigits hne hbehind⟩
    rw [List.append_assoc, List.cons_append, ← htail]
    exact hcs
  · rename_i hne _ hspan
    rw [hspan] at hcs hdigits
    cases h
    exact ⟨front, hcs, .whole hdigits hne⟩

/-! ## Exponents -/

theorem scanExponentDigits?_eq_some (h : scanExponentDigits? cs = some (k, rest)) :
    ∃ sign front negative ds, cs = sign ++ (front ++ rest) ∧ Sign sign negative ∧
      Digits front ds ∧ ds ≠ [] ∧ k = signed negative (ofDigits ds) := by
  obtain ⟨sign, hcs, hsign⟩ := scanSign_sign cs
  obtain ⟨front, htail, hdigits⟩ := spanDigits_digits (scanSign cs).2
  unfold scanExponentDigits? at h
  split at h
  · cases h
  · rename_i hne hspan
    cases h
    rw [hspan] at htail hdigits
    exact ⟨sign, front, _, _, by rw [← htail]; exact hcs, hsign, hdigits, hne, rfl⟩

theorem scanExponent_exponent (cs : List Char) :
    ∃ front, cs = front ++ (scanExponent cs).2 ∧ Exponent front (scanExponent cs).1 := by
  have hmarked : ∀ mark cs, mark = 'e' ∨ mark = 'E' →
      ∃ front, mark :: cs = front ++ ((scanExponentDigits? cs).getD (0, mark :: cs)).2 ∧
        Exponent front ((scanExponentDigits? cs).getD (0, mark :: cs)).1 := by
    intro mark cs hmark
    cases hscan : scanExponentDigits? cs with
    | none => exact ⟨[], rfl, .none⟩
    | some result =>
      obtain ⟨k, rest⟩ := result
      obtain ⟨sign, front, negative, ds, rfl, hsign, hdigits, hne, rfl⟩ :=
        scanExponentDigits?_eq_some hscan
      exact ⟨mark :: (sign ++ front), by simp, .marked hmark hsign hdigits hne⟩
  unfold scanExponent
  split
  · exact hmarked 'e' _ (Or.inl rfl)
  · exact hmarked 'E' _ (Or.inr rfl)
  · exact ⟨[], rfl, .none⟩

/-- The scan takes the exponent and the digits that go on with it. -/
theorem Exponent.scan (h : Exponent front k) (rest : List Char) :
    (scanExponent (front ++ rest)).2.length ≤ rest.length ∧
      ((scanExponent (front ++ rest)).2.length = rest.length →
        (scanExponent (front ++ rest)).1 = k) := by
  cases h with
  | none =>
    obtain ⟨front, hrest, hexponent⟩ := scanExponent_exponent rest
    have hlength : rest.length = front.length + (scanExponent rest).2.length := by
      conv_lhs => rw [hrest, List.length_append]
    rw [List.nil_append]
    refine ⟨by omega, ?_⟩
    intro hsame
    have hfront : front = [] := List.length_eq_zero_iff.mp (by omega)
    generalize (scanExponent rest).1 = k at hexponent ⊢
    cases hexponent with
    | none => rfl
    | marked => cases hfront
  | @marked mark sign cs negative ds hmark hsign digits hne =>
    obtain ⟨hle, hnone⟩ := length_spanDigits rest
    obtain ⟨c, cs', rfl, hc⟩ := digits.opens hne
    have hsigned : scanSign (sign ++ (c :: cs' ++ rest)) = (negative, c :: cs' ++ rest) :=
      hsign.scan (hc.ne_of (by decide) (by decide)) (hc.ne_of (by decide) (by decide)) _
    have hscan : scanExponentDigits? (sign ++ (c :: cs' ++ rest)) =
        some (signed negative (ofDigits (ds ++ (spanDigits rest).1)), (spanDigits rest).2) := by
      obtain ⟨d, ds, rfl⟩ := List.exists_cons_of_ne_nil hne
      rw [scanExponentDigits?, hsigned]
      simp only [digits.span_append rest]
      rfl
    have hexponent : scanExponent (mark :: (sign ++ c :: cs') ++ rest) =
        (signed negative (ofDigits (ds ++ (spanDigits rest).1)), (spanDigits rest).2) := by
      rw [List.cons_append, List.append_assoc]
      rcases hmark with rfl | rfl
      · rw [scanExponent, hscan]
        rfl
      · rw [scanExponent, hscan]
        rfl
    rw [hexponent]
    refine ⟨hle, ?_⟩
    intro hsame
    rw [hnone hsame, List.append_nil]

/-! ## Decimals -/

/-- The scan of a decimal is the scan of its two parts. -/
theorem scanUnsigned?_eq_some_iff : scanUnsigned? negative cs = some (n, rest) ↔
    ∃ whole fraction tail, scanDigits? cs = some (whole, fraction, tail) ∧
      n = ⟨negative, ofDigits (whole ++ fraction), (scanExponent tail).1 - fraction.length⟩ ∧
      rest = (scanExponent tail).2 := by
  unfold scanUnsigned?
  constructor
  · intro h
    obtain ⟨⟨whole, fraction, tail⟩, hdigits, hresult⟩ := Option.map_eq_some_iff.mp h
    cases hresult
    exact ⟨whole, fraction, tail, hdigits, rfl, rfl⟩
  · rintro ⟨whole, fraction, tail, hdigits, rfl, rfl⟩
    rw [hdigits]
    rfl

theorem scanUnsigned?_decimal (h : scanUnsigned? negative cs = some (n, rest)) :
    n.negative = negative ∧ ∃ front, cs = front ++ rest ∧ Decimal front n.value := by
  obtain ⟨whole, fraction, tail, hdigits, rfl, rfl⟩ := scanUnsigned?_eq_some_iff.mp h
  obtain ⟨front, rfl, hsignificand⟩ := scanDigits?_significand hdigits
  obtain ⟨es, htail, hexponent⟩ := scanExponent_exponent tail
  refine ⟨rfl, front ++ es, ?_, .intro hsignificand hexponent⟩
  rw [List.append_assoc, ← htail]

/-- The scan takes a decimal and what goes on with it. -/
theorem Decimal.scan (h : Decimal front v) (negative : Bool) (rest : List Char) :
    ∃ n rest', scanUnsigned? negative (front ++ rest) = some (n, rest') ∧
      rest'.length ≤ rest.length ∧ (rest'.length = rest.length → n.value = v) := by
  cases h with
  | @intro cs es whole fraction k significand exponent =>
    obtain ⟨whole', fraction', tail, hdigits, hle, hsame, hstop⟩ := significand.scan (es ++ rest)
    rw [← List.append_assoc] at hdigits
    refine ⟨_, _, scanUnsigned?_eq_some_iff.mpr ⟨whole', fraction', tail, hdigits, rfl, rfl⟩, ?_⟩
    cases exponent with
    | none =>
      -- more digits may follow, and an exponent behind them
      obtain ⟨hexponentLe, hexponent⟩ := Exponent.none.scan tail
      rw [List.nil_append] at hle hsame hexponentLe hexponent
      refine ⟨by omega, ?_⟩
      intro hlength
      obtain ⟨rfl, rfl⟩ := hsame (by omega)
      rw [Numeral.value, hexponent (by omega)]
    | @marked mark sign ds negative' values hmark hsign digits hne =>
      -- no digit stands at the mark of the exponent
      have hmarkStops : ∀ c ∈ (mark :: (sign ++ ds) ++ rest).head?, ¬ Opens c := by
        rintro c ⟨⟩
        rcases hmark with rfl | rfl <;> decide
      have hmarked := Exponent.marked hmark hsign digits hne
      obtain ⟨hexponentLe, hexponent⟩ := hmarked.scan rest
      have htail := hstop hmarkStops
      subst htail
      obtain ⟨rfl, rfl⟩ := hsame rfl
      refine ⟨hexponentLe, ?_⟩
      intro hlength
      rw [Numeral.value, hexponent hlength]

/-! ## Numeric starts -/

/-- The number that characters start with, and what follows it. -/
def numericStart? (cs : List Char) : Option (Float × List Char) :=
  if infinityWord.isPrefixOf (scanSign cs).2 then
    some (Number.infinity (scanSign cs).1, (scanSign cs).2.drop infinityWord.length)
  else
    (scanUnsigned? (scanSign cs).1 (scanSign cs).2).map fun (n, rest) => (n.toNumber, rest)

theorem ofTextStart_eq (cs : List Char) :
    Number.ofTextStart cs = ((numericStart? (trimStart cs)).map Prod.fst).getD Number.nan := by
  unfold Number.ofTextStart numericStart?
  dsimp only
  split
  · rfl
  · cases scanUnsigned? (scanSign (trimStart cs)).1 (scanSign (trimStart cs)).2 with
    | none => rfl
    | some result => rfl

theorem numericStart?_denotes (h : numericStart? cs = some (x, rest)) :
    ∃ front, cs = front ++ rest ∧ Denotes front x := by
  obtain ⟨sign, hcs, hsign⟩ := scanSign_sign cs
  unfold numericStart? at h
  split at h
  · rename_i hinfinity
    cases h
    refine ⟨sign ++ infinityWord, ?_, .infinity hsign⟩
    obtain ⟨rest, hrest⟩ := List.isPrefixOf_iff_prefix.mp hinfinity
    rw [← hrest] at hcs ⊢
    rw [List.append_assoc, List.drop_left]
    exact hcs
  · obtain ⟨⟨n, tail⟩, hscan, hresult⟩ := Option.map_eq_some_iff.mp h
    cases hresult
    obtain ⟨hnegative, front, htail, hdecimal⟩ := scanUnsigned?_decimal hscan
    refine ⟨sign ++ front, ?_, ?_⟩
    · rw [List.append_assoc, ← htail]
      exact hcs
    · rw [← hnegative] at hsign
      exact .decimal hsign hdecimal n.toNumber_isRounded

/-- The scan takes what denotes a number, and what goes on with it. -/
theorem Denotes.scan (h : Denotes front y) (rest : List Char) :
    ∃ x rest', numericStart? (front ++ rest) = some (x, rest') ∧ rest'.length ≤ rest.length ∧
      (rest'.length = rest.length → x = y) := by
  cases h with
  | @infinity sign negative hsign =>
    have hscan : scanSign (sign ++ infinityWord ++ rest) = (negative, infinityWord ++ rest) := by
      rw [List.append_assoc]
      exact hsign.scan (by decide) (by decide) _
    have hword : infinityWord.isPrefixOf (infinityWord ++ rest) = true :=
      List.isPrefixOf_iff_prefix.mpr (List.prefix_append _ _)
    refine ⟨Number.infinity negative, rest, ?_, le_rfl, fun _ => rfl⟩
    rw [numericStart?, hscan, if_pos hword, List.drop_left]
  | @decimal sign cs negative v _ hsign hdecimal hrounded =>
    obtain ⟨c, cs', rfl, hc⟩ := hdecimal.opens
    have hscan : scanSign (sign ++ c :: cs' ++ rest) = (negative, c :: cs' ++ rest) := by
      rw [List.append_assoc]
      exact hsign.scan (hc.ne_of (by decide) (by decide)) (hc.ne_of (by decide) (by decide)) _
    have hword : ¬ infinityWord.isPrefixOf (c :: cs' ++ rest) = true := by
      intro hprefix
      obtain ⟨tail, htail⟩ := List.isPrefixOf_iff_prefix.mp hprefix
      have hhead : 'I' = c := congrArg (fun cs => cs.headD c) htail
      exact hc.ne_of (d := 'I') (by decide) (by decide) hhead.symm
    obtain ⟨n, rest', hunsigned, hle, hsame⟩ := hdecimal.scan negative rest
    refine ⟨n.toNumber, rest', ?_, hle, ?_⟩
    · rw [numericStart?, hscan, if_neg hword, hunsigned]
      rfl
    · intro hlength
      have hread := n.toNumber_isRounded
      rw [(scanUnsigned?_decimal hunsigned).1, hsame hlength] at hread
      exact hread.unique hrounded

/-- `start` is the longest start of the characters that denotes a number. -/
structure IsLongest (start cs : List Char) : Prop where
  starts : start <+: cs
  longest {other : List Char} {y : Float} (h : other <+: cs) (denotes : Denotes other y) :
    other.length ≤ start.length

/-- What is scanned is the longest start that denotes a number, and it denotes no other number. -/
theorem numericStart?_longest (h : numericStart? cs = some (x, rest)) :
    ∃ start, IsLongest start cs ∧ ∀ y, Denotes start y ↔ x = y := by
  obtain ⟨front, rfl, hdenotes⟩ := numericStart?_denotes h
  refine ⟨front, ⟨List.prefix_append _ _, ?_⟩, ?_⟩
  · rintro other y ⟨tail, htail⟩ hother
    obtain ⟨x', rest', hscan, hle, -⟩ := hother.scan tail
    rw [htail, h] at hscan
    cases hscan
    have hlength := congrArg List.length htail
    simp only [List.length_append] at hlength
    omega
  · intro y
    constructor
    · intro hy
      obtain ⟨x', rest', hscan, -, hsame⟩ := hy.scan rest
      rw [h] at hscan
      cases hscan
      exact hsame rfl
    · rintro rfl
      exact hdenotes

theorem numericStart?_eq_none (h : numericStart? cs = none) {start : List Char}
    (hstart : start <+: cs) (y : Float) : ¬ Denotes start y := by
  intro hy
  obtain ⟨tail, rfl⟩ := hstart
  obtain ⟨x, rest', hscan, -⟩ := hy.scan tail
  rw [h] at hscan
  cases hscan

/-! ## Agreement with the reader -/

/-- A token that the reader takes for a number denotes that number as a whole. -/
theorem denotes_of_bake {text : String} (h : Token.bake text = .number x) :
    Denotes text.toList x := by
  unfold Token.bake at h
  split at h
  · cases h
  · split at h
    · rename_i n hn
      cases h
      unfold Numeral.ofChars? at hn
      split at hn
      · rename_i hscan
        cases hn
        obtain ⟨sign, hcs, hsign⟩ := scanSign_sign text.toList
        obtain ⟨hnegative, front, htail, hdecimal⟩ := scanUnsigned?_decimal hscan
        rw [List.append_nil] at htail
        rw [← hnegative] at hsign
        rw [hcs, htail]
        exact .decimal hsign hdecimal n.toNumber_isRounded
      · cases hn
    · split at h
      · cases h
      · cases h

/-- No blank stands before a number. -/
theorem Denotes.trimStart_eq (h : Denotes cs x) : trimStart cs = cs := by
  have hfirst : ∃ c cs', cs = c :: cs' ∧ Text.isBlank c = false := by
    cases h with
    | infinity hsign =>
      cases hsign with
      | none => exact ⟨'I', _, rfl, by decide⟩
      | plus => exact ⟨'+', _, rfl, by decide⟩
      | minus => exact ⟨'-', _, rfl, by decide⟩
    | decimal hsign hdecimal _ =>
      obtain ⟨c, cs', rfl, hc⟩ := hdecimal.opens
      cases hsign with
      | none => exact ⟨c, _, rfl, hc.not_isBlank⟩
      | plus => exact ⟨'+', _, rfl, by decide⟩
      | minus => exact ⟨'-', _, rfl, by decide⟩
  obtain ⟨c, cs', rfl, hc⟩ := hfirst
  simp [trimStart, hc]

/-- A text that denotes a number as a whole is coerced to it. -/
theorem ofTextStart_of_denotes (h : Denotes cs x) : Number.ofTextStart cs = x := by
  obtain ⟨y, rest, hscan, hle, hsame⟩ := h.scan []
  rw [List.append_nil] at hscan
  rw [ofTextStart_eq, h.trimStart_eq, hscan]
  exact hsame (Nat.le_zero.mp hle)

end Redex.NumericText

namespace Redex

open NumericText (Denotes IsLongest)
open Text (trimStart)

/-- A text is coerced to the number that its longest numeric start denotes, the blanks before it
skipped, and to `nan` if no start denotes a number. What the reader takes for a number is coerced to
the same number. -/
theorem toNumber_longest (s : String) :
    ((∃ start, IsLongest start (trimStart s.toList) ∧
        ∀ x, Denotes start x ↔ Expr.toNumber (.text s) = x) ∨
      (∀ start, start <+: trimStart s.toList → ∀ x, ¬ Denotes start x) ∧
        Expr.toNumber (.text s) = Number.nan) ∧
    ∀ x, Token.bake s = .number x → Expr.toNumber (.text s) = x := by
  have hcoerced : Expr.toNumber (.text s) = Number.ofTextStart s.toList := rfl
  rw [hcoerced]
  refine ⟨?_, fun x hx => NumericText.ofTextStart_of_denotes (NumericText.denotes_of_bake hx)⟩
  rw [NumericText.ofTextStart_eq]
  cases hscan : NumericText.numericStart? (trimStart s.toList) with
  | none =>
    right
    exact ⟨fun start hstart x => NumericText.numericStart?_eq_none hscan hstart x, rfl⟩
  | some result =>
    left
    exact NumericText.numericStart?_longest hscan

/-- A point needs no digit before it, and an exponent needs one behind its mark. -/
theorem toNumber_longest_point :
    (∃ x, Token.bake "+.5e1" = .number x ∧ Expr.toNumber (.text "+.5e1") = x) ∧
    Expr.toNumber (.text " 12e+") = Expr.toNumber (.text "12") :=
  ⟨⟨_, rfl, (toNumber_longest "+.5e1").2 _ rfl⟩, rfl⟩

end Redex
