import Redex.Number.Format
import Redex.Proofs.Number.Nearest
import Redex.Reader.Token

/-!
# Numbers read back

The surface text of a finite number is a numeral, and reading it gives the number again. The negative
zero is the exception: it shows without its sign.

* **`spanDigits_append`** — a run of digits ends where no digit follows.
* **`IsNumeral`** — characters that are a numeral without a sign, of a given value;
  **`isNumeral_point`** and **`isNumeral_whole`** for the two ways of writing one.
* **`layout_isNumeral`** — a decimal that is laid out keeps its value, in whichever of its shapes.
* **`shortestDecimal_reads`** — the shortest decimal reads back.
* **`ReadsAs`** — characters that stand for a number in a source, and **`surfaceChars_reads`** — the
  surface text of a finite number stands for it.
-/

namespace Redex.Number

open Text

variable {c : Char} {cs ds whole fraction tail digits : List Char} {k : ℤ} {v : ℚ}

/-! ## Digits -/

def AreDigits (cs : List Char) : Prop :=
  ∀ c ∈ cs, c.isDigit = true

/-- Characters that do not go on with a digit. -/
def NoDigit (cs : List Char) : Prop :=
  ∀ c ∈ cs.head?, digitValue? c = none

theorem toNat_of_isDigit (h : c.isDigit = true) : 48 ≤ c.toNat ∧ c.toNat ≤ 57 := by
  simpa [Char.isDigit, UInt32.le_iff_toNat_le] using h

theorem digitValue?_of_isDigit (h : c.isDigit = true) : digitValue? c = some (c.toNat - 48) := by
  obtain ⟨hlower, hupper⟩ := toNat_of_isDigit h
  simp [digitValue?, digitZeros, hlower, hupper]

theorem spanDigits_append (hds : AreDigits ds) (htail : NoDigit tail) :
    spanDigits (ds ++ tail) = (ds.map fun c => c.toNat - 48, tail) := by
  induction ds with
  | nil =>
    cases tail with
    | nil => rfl
    | cons c tail =>
      have hc : digitValue? c = none := htail c rfl
      simp [spanDigits, hc]
  | cons d ds ih =>
    obtain ⟨hd, hds⟩ := List.forall_mem_cons.mp hds
    simp [spanDigits, digitValue?_of_isDigit hd, ih hds]

theorem ofDigits_map (ds : List Char) :
    ofDigits (ds.map fun c => c.toNat - 48) = Nat.ofDigitChars 10 ds 0 := by
  rw [ofDigits, List.foldl_map, Nat.ofDigitChars_eq_foldl]
  rfl

theorem areDigits_natDigits (n : ℕ) : AreDigits (natDigits n) :=
  fun _ hc => Nat.isDigit_of_mem_toDigits (by decide) (by decide) hc

theorem areDigits_append (hcs : AreDigits cs) (hds : AreDigits ds) : AreDigits (cs ++ ds) :=
  List.forall_mem_append.mpr ⟨hcs, hds⟩

theorem areDigits_replicate (n : ℕ) : AreDigits (List.replicate n '0') := by
  intro c hc
  rw [List.eq_of_mem_replicate hc]
  rfl

theorem ofDigitChars_zeros (n : ℕ) (ds : List Char) :
    Nat.ofDigitChars 10 (List.replicate n '0' ++ ds) 0 = Nat.ofDigitChars 10 ds 0 := by
  rw [Nat.ofDigitChars_append, Nat.ofDigitChars_replicate_zero, Nat.mul_zero]

/-! ## Numerals without a sign -/

/-- The characters that numbers are written with. -/
def IsNumeric (c : Char) : Prop :=
  c.isDigit = true ∨ c ∈ ['.', 'e', '+', '-']

instance (c : Char) : Decidable (IsNumeric c) :=
  inferInstanceAs (Decidable (c.isDigit = true ∨ c ∈ ['.', 'e', '+', '-']))

theorem numeric_digits (h : AreDigits cs) : ∀ c ∈ cs, IsNumeric c :=
  fun c hc => Or.inl (h c hc)

/-- No number is cut by the lexer. -/
theorem IsNumeric.isDelimiter (h : IsNumeric c) : Token.isDelimiter c = false := by
  rcases h with hdigit | hmark
  · have hcodes : ∀ n < 58, 48 ≤ n → Token.isDelimiter (Char.ofNat n) = false := by
      decide +kernel
    obtain ⟨hlower, hupper⟩ := toNat_of_isDigit hdigit
    rw [← Char.ofNat_toNat c]
    exact hcodes _ (by omega) hlower
  · simp only [List.mem_cons, List.not_mem_nil, or_false] at hmark
    rcases hmark with rfl | rfl | rfl | rfl <;> decide

/-- The characters are a numeral without a sign, of the given value. -/
structure IsNumeral (cs : List Char) (v : ℚ) : Prop where
  numeric : ∀ c ∈ cs, IsNumeric c
  opens : ∃ c rest, cs = c :: rest ∧ c.isDigit = true
  scanned (negative : Bool) : ∃ n : Numeral, Numeral.scanUnsigned? negative cs = some (n, []) ∧
    n.negative = negative ∧ n.value = v

/-- The characters are what may follow the digits of a numeral: nothing, or an exponent. -/
structure IsExponent (tail : List Char) (k : ℤ) : Prop where
  numeric : ∀ c ∈ tail, IsNumeric c
  noDigit : NoDigit tail
  noPoint : tail.head? ≠ some '.'
  scanned : Numeral.scanExponent tail = (k, [])

theorem isExponent_nil : IsExponent [] 0 :=
  ⟨nofun, nofun, nofun, rfl⟩

theorem opens_append (hcs : AreDigits cs) (hne : cs ≠ []) (rest : List Char) :
    ∃ c rest', cs ++ rest = c :: rest' ∧ c.isDigit = true := by
  obtain ⟨c, cs, rfl⟩ := List.exists_cons_of_ne_nil hne
  exact ⟨c, cs ++ rest, rfl, hcs c List.mem_cons_self⟩

/-- Digits, a point, and more digits. -/
theorem isNumeral_point (hwhole : AreDigits whole) (hne : whole ≠ [])
    (hfraction : AreDigits fraction) (htail : IsExponent tail k) :
    IsNumeral (whole ++ '.' :: (fraction ++ tail))
      (Nat.ofDigitChars 10 (whole ++ fraction) 0 * 10 ^ (k - fraction.length)) := by
  have hnumeric : ∀ c ∈ whole ++ '.' :: (fraction ++ tail), IsNumeric c := by
    refine List.forall_mem_append.mpr ⟨numeric_digits hwhole, ?_⟩
    refine List.forall_mem_cons.mpr ⟨Or.inr (by decide), ?_⟩
    exact List.forall_mem_append.mpr ⟨numeric_digits hfraction, htail.numeric⟩
  refine ⟨hnumeric, opens_append hwhole hne _, ?_⟩
  intro negative
  have hpoint : NoDigit ('.' :: (fraction ++ tail)) := by
    rintro c ⟨⟩
    decide
  have hspan := spanDigits_append hwhole hpoint
  have hrest := spanDigits_append hfraction htail.noDigit
  obtain ⟨c, whole, rfl⟩ := List.exists_cons_of_ne_nil hne
  have hdigits : Numeral.scanDigits? (c :: whole ++ '.' :: (fraction ++ tail)) =
      some ((c :: whole).map fun c => c.toNat - 48, fraction.map fun c => c.toNat - 48, tail) := by
    simp only [Numeral.scanDigits?, hspan, List.map_cons, hrest]
  refine ⟨⟨negative, ofDigits ((c :: whole).map (fun c => c.toNat - 48) ++
    fraction.map fun c => c.toNat - 48), k - (fraction.map fun c => c.toNat - 48).length⟩, ?_, rfl, ?_⟩
  · rw [Numeral.scanUnsigned?, hdigits, Option.map_some]
    dsimp only
    rw [htail.scanned]
  · rw [Numeral.value, ← List.map_append, ofDigits_map, List.length_map]

/-- Digits without a point. -/
theorem isNumeral_whole (hwhole : AreDigits whole) (hne : whole ≠ []) (htail : IsExponent tail k) :
    IsNumeral (whole ++ tail) (Nat.ofDigitChars 10 whole 0 * 10 ^ k) := by
  have hnumeric : ∀ c ∈ whole ++ tail, IsNumeric c :=
    List.forall_mem_append.mpr ⟨numeric_digits hwhole, htail.numeric⟩
  refine ⟨hnumeric, opens_append hwhole hne _, ?_⟩
  intro negative
  have hspan := spanDigits_append hwhole htail.noDigit
  obtain ⟨c, whole, rfl⟩ := List.exists_cons_of_ne_nil hne
  have hdigits : Numeral.scanDigits? (c :: whole ++ tail) =
      some ((c :: whole).map fun c => c.toNat - 48, [], tail) := by
    simp only [Numeral.scanDigits?, hspan, List.map_cons]
    cases tail with
    | nil => rfl
    | cons d tail =>
      split
      · rename_i heq
        cases heq
      · rename_i heq
        cases heq
      · rename_i heq
        cases heq
        exact absurd rfl htail.noPoint
      · rename_i heq
        cases heq
        rfl
  refine ⟨⟨negative, ofDigits ((c :: whole).map (fun c => c.toNat - 48) ++ []), k - 0⟩, ?_, rfl, ?_⟩
  · rw [Numeral.scanUnsigned?, hdigits, Option.map_some]
    dsimp only
    rw [htail.scanned]
    rfl
  · rw [Numeral.value, List.append_nil, ofDigits_map, sub_zero]

/-- A numeral with its sign in front. -/
theorem IsNumeral.withSign (h : IsNumeral cs v) (negative : Bool) :
    ∃ n, Numeral.ofChars? (withSign negative cs) = some n ∧ n.negative = negative ∧ n.value = v := by
  obtain ⟨c, rest, rfl, hc⟩ := h.opens
  obtain ⟨n, hscan, hnegative, hvalue⟩ := h.scanned negative
  have hsign : Numeral.scanSign (Number.withSign negative (c :: rest)) = (negative, c :: rest) := by
    cases negative with
    | true => rfl
    | false =>
      rw [Number.withSign, if_neg Bool.false_ne_true]
      unfold Numeral.scanSign
      split
      · rename_i heq
        cases heq
        cases hc
      · rename_i heq
        cases heq
        cases hc
      · rfl
  refine ⟨n, ?_, hnegative, hvalue⟩
  rw [Numeral.ofChars?, Numeral.scan?, hsign]
  dsimp only
  rw [hscan]

theorem IsNumeral.withSign_numeric (h : IsNumeral cs v) (negative : Bool) :
    ∀ c ∈ Number.withSign negative cs, IsNumeric c := by
  cases negative with
  | true => exact List.forall_mem_cons.mpr ⟨Or.inr (by decide), h.numeric⟩
  | false => exact h.numeric

/-! ## Laid out decimals -/

theorem exists_trailing_zeros (cs : List Char) :
    ∃ z, cs = (cs.reverse.dropWhile (· == '0')).reverse ++ List.replicate z '0' := by
  have hsplit := List.takeWhile_append_dropWhile (p := (· == '0')) (l := cs.reverse)
  have hzeros : cs.reverse.takeWhile (· == '0') =
      List.replicate (cs.reverse.takeWhile (· == '0')).length '0' :=
    List.eq_replicate_of_mem fun c hc => by simpa using List.mem_takeWhile_imp hc
  refine ⟨(cs.reverse.takeWhile (· == '0')).length, ?_⟩
  rw [← List.reverse_replicate, ← hzeros, ← List.reverse_append, hsplit, List.reverse_reverse]

theorem ofDigitChars_append_zeros (ds : List Char) (n : ℕ) :
    Nat.ofDigitChars 10 (ds ++ List.replicate n '0') 0 = 10 ^ n * Nat.ofDigitChars 10 ds 0 := by
  rw [Nat.ofDigitChars_append, Nat.ofDigitChars_replicate_zero]

/-- The digits stand for the same wherever the point is put. -/
theorem positional_isNumeral (hdigits : AreDigits digits) (hne : digits ≠ []) (k : ℤ) :
    IsNumeral (positional digits k)
      (Nat.ofDigitChars 10 digits 0 * 10 ^ (k + 1 - digits.length)) := by
  have hlength : 0 < digits.length := List.length_pos_of_ne_nil hne
  unfold positional
  split
  -- zeros stand between the point and the digits
  · rename_i hk
    have hnumeral := isNumeral_point (areDigits_replicate 1) (List.cons_ne_nil _ _)
      (areDigits_append (areDigits_replicate (-k - 1).toNat) hdigits) isExponent_nil
    have hvalue : Nat.ofDigitChars 10
        (List.replicate 1 '0' ++ (List.replicate (-k - 1).toNat '0' ++ digits)) 0 =
        Nat.ofDigitChars 10 digits 0 := by rw [ofDigitChars_zeros, ofDigitChars_zeros]
    have hexponent : (0 : ℤ) - (List.replicate (-k - 1).toNat '0' ++ digits).length =
        k + 1 - digits.length := by
      simp only [List.length_append, List.length_replicate]
      omega
    rw [hvalue, hexponent] at hnumeral
    simpa using hnumeral
  · rename_i hk
    dsimp only
    split
    -- zeros stand between the digits and the point
    · rename_i hshort
      have hnumeral := isNumeral_point
        (areDigits_append hdigits (areDigits_replicate ((k + 1).toNat - digits.length)))
        (by simp [hne]) (areDigits_replicate 1) isExponent_nil
      have hvalue : (Nat.ofDigitChars 10 (digits ++
            List.replicate ((k + 1).toNat - digits.length) '0' ++ List.replicate 1 '0') 0 : ℚ) *
            10 ^ ((0 : ℤ) - (List.replicate 1 '0').length) =
          Nat.ofDigitChars 10 digits 0 * 10 ^ (k + 1 - digits.length) := by
        have hexponent : k + 1 - digits.length = ((k + 1).toNat - digits.length : ℕ) := by omega
        rw [ofDigitChars_append_zeros, ofDigitChars_append_zeros, hexponent, zpow_natCast]
        push_cast
        norm_num
        ring
      rw [hvalue] at hnumeral
      simpa using hnumeral
    -- the point stands among the digits
    · rename_i hlong
      have htake : digits.take (k + 1).toNat ≠ [] := by
        rw [ne_eq, List.take_eq_nil_iff]
        push Not
        exact ⟨by omega, hne⟩
      have hfront : AreDigits (digits.take (k + 1).toNat) :=
        fun c hc => hdigits c (List.mem_of_mem_take hc)
      have hback : AreDigits (digits.drop (k + 1).toNat) :=
        fun c hc => hdigits c (List.mem_of_mem_drop hc)
      have hnumeral := isNumeral_point hfront htake hback isExponent_nil
      have hexponent : (0 : ℤ) - (digits.drop (k + 1).toNat).length = k + 1 - digits.length := by
        rw [List.length_drop]
        omega
      rw [List.take_append_drop, hexponent, List.append_nil] at hnumeral
      exact hnumeral

theorem exponent_isExponent (width : ℕ) (k : ℤ) :
    IsExponent ('e' :: (if k < 0 then '-' else '+') ::
      (List.replicate (width - (natDigits k.natAbs).length) '0' ++ natDigits k.natAbs)) k := by
  set ds := List.replicate (width - (natDigits k.natAbs).length) '0' ++ natDigits k.natAbs with hds
  have hdigits : AreDigits ds := areDigits_append (areDigits_replicate _) (areDigits_natDigits _)
  have hspan : spanDigits ds = (ds.map fun c => c.toNat - 48, []) := by
    simpa using spanDigits_append hdigits (show NoDigit [] from nofun)
  have hvalue : ofDigits (ds.map fun c => c.toNat - 48) = k.natAbs := by
    rw [ofDigits_map, hds, ofDigitChars_zeros]
    exact Nat.ofDigitChars_toDigits (by decide) (by decide)
  have hne : ds ≠ [] := by simp [hds, natDigits]
  refine ⟨?_, ?_, nofun, ?_⟩
  · refine List.forall_mem_cons.mpr ⟨Or.inr (by decide), ?_⟩
    refine List.forall_mem_cons.mpr ⟨Or.inr ?_, numeric_digits hdigits⟩
    split <;> decide
  · rintro c ⟨⟩
    decide
  · have hsign : Numeral.scanSign ((if k < 0 then '-' else '+') :: ds) = (decide (k < 0), ds) := by
      split
      · rename_i hk
        simp [Numeral.scanSign, hk]
      · rename_i hk
        simp [Numeral.scanSign, hk]
    have hscan : Numeral.scanExponentDigits? ((if k < 0 then '-' else '+') :: ds) = some (k, []) := by
      rw [Numeral.scanExponentDigits?, hsign]
      dsimp only
      rw [hspan]
      cases hmap : ds.map fun c => c.toNat - 48 with
      | nil => exact absurd (List.map_eq_nil_iff.mp hmap) hne
      | cons d rest =>
        rw [hmap] at hvalue
        dsimp only
        rw [hvalue, signed]
        simp only [decide_eq_true_eq]
        split <;> congr 2 <;> omega
    rw [Numeral.scanExponent, hscan]
    rfl

theorem scientific_isNumeral (style : LiteralStyle) (hdigits : AreDigits digits) (hne : digits ≠ [])
    (k : ℤ) : IsNumeral (scientific style digits k)
      (Nat.ofDigitChars 10 digits 0 * 10 ^ (k + 1 - digits.length)) := by
  have hexponent := exponent_isExponent style.exponentWidth k
  obtain ⟨first, rest, rfl⟩ := List.exists_cons_of_ne_nil hne
  obtain ⟨hfirst, hrest⟩ := List.forall_mem_cons.mp hdigits
  have hlead : AreDigits [first] := List.forall_mem_singleton.mpr hfirst
  unfold scientific
  dsimp only
  cases rest with
  | nil => simpa using isNumeral_whole hlead (List.cons_ne_nil _ _) hexponent
  | cons second rest =>
    have hnumeral := isNumeral_point hlead (List.cons_ne_nil _ _) hrest hexponent
    have hplaces : k - (second :: rest).length = k + 1 - (first :: second :: rest).length := by
      simp only [List.length_cons]
      omega
    rw [hplaces] at hnumeral
    simpa using hnumeral

/-- A decimal that is laid out keeps its value. -/
theorem layout_isNumeral (style : LiteralStyle) {n : Numeral} (hn : n.digits ≠ 0) :
    IsNumeral (layout style n) n.value := by
  obtain ⟨z, hz⟩ := exists_trailing_zeros (natDigits n.digits)
  set digits := ((natDigits n.digits).reverse.dropWhile (· == '0')).reverse with hdigits
  have hdigitsOf : AreDigits digits := by
    intro c hc
    refine areDigits_natDigits n.digits c ?_
    rw [hz]
    exact List.mem_append_left _ hc
  have hread : n.digits = 10 ^ z * Nat.ofDigitChars 10 digits 0 := by
    rw [← ofDigitChars_append_zeros, ← hz]
    exact (Nat.ofDigitChars_toDigits (by decide) (by decide)).symm
  have hne : digits ≠ [] := by
    intro hnil
    rw [hnil] at hread
    exact hn (by simpa using hread)
  have hvalue : n.value = Nat.ofDigitChars 10 digits 0 *
      10 ^ (n.exponent + (natDigits n.digits).length - 1 + 1 - digits.length) := by
    have hlength : (natDigits n.digits).length = digits.length + z := by
      conv_lhs => rw [hz]
      rw [List.length_append, List.length_replicate]
    have hplaces : n.exponent + (natDigits n.digits).length - 1 + 1 - digits.length =
        n.exponent + z := by omega
    rw [hplaces, zpow_add₀ (by norm_num), Numeral.value]
    conv_lhs => rw [hread]
    push_cast
    rw [zpow_natCast]
    ring
  unfold layout
  dsimp only
  rw [← hdigits, hvalue]
  split
  · exact positional_isNumeral hdigitsOf hne _
  · exact scientific_isNumeral style hdigitsOf hne _

/-! ## Shortest decimals -/

variable {x : Float} {num den m count : ℕ} {e : ℤ} {n : Numeral} {negative : Bool}

/-- What was tried as a decimal was read back before it was taken. -/
theorem decimalOfDigits?_reads (h : decimalOfDigits? x num den k count = some n) :
    n.negative = false ∧ n.toNumber = x := by
  unfold decimalOfDigits? at h
  dsimp only at h
  split at h
  all_goals
    dsimp only at h
    split at h
    · rename_i hread
      cases h
      exact ⟨rfl, hread⟩
    · split at h
      · rename_i hread
        cases h
        exact ⟨rfl, hread⟩
      · cases h

theorem exactDecimal_value (m : ℕ) (e : ℤ) : (exactDecimal m e).value = m * 2 ^ e := by
  unfold exactDecimal Numeral.value
  split
  · rename_i he
    obtain ⟨k, rfl⟩ := Int.eq_ofNat_of_zero_le he
    simp
  · rename_i he
    obtain ⟨k, rfl⟩ : ∃ k : ℕ, e = -(k : ℤ) := ⟨(-e).toNat, by omega⟩
    have hten : (10 : ℚ) ^ k = 2 ^ k * 5 ^ k := by rw [← mul_pow]; norm_num
    simp only [neg_neg, Int.toNat_natCast, Nat.pow_eq, Nat.cast_mul, Nat.cast_pow, zpow_neg,
      zpow_natCast, hten]
    push_cast
    field_simp

/-- The ratio that the search for a shortest decimal starts from. -/
def scaledRatio (m : ℕ) (e : ℤ) : ℕ × ℕ :=
  if 0 ≤ e then (m * Nat.pow 2 e.toNat, 1) else (m, Nat.pow 2 (-e).toNat)

theorem scaledRatio_pos (m : ℕ) (e : ℤ) : 0 < (scaledRatio m e).2 := by
  unfold scaledRatio
  split
  · exact one_pos
  · exact Nat.pow_pos two_pos

theorem scaledRatio_div (m : ℕ) (e : ℤ) :
    ((scaledRatio m e).1 : ℚ) / (scaledRatio m e).2 = m * 2 ^ e := by
  unfold scaledRatio
  split
  · rename_i he
    obtain ⟨k, rfl⟩ := Int.eq_ofNat_of_zero_le he
    simp
  · rename_i he
    obtain ⟨k, rfl⟩ : ∃ k : ℕ, e = -(k : ℤ) := ⟨(-e).toNat, by omega⟩
    simp [zpow_neg, div_eq_mul_inv]

/-- The shortest decimal reads back: it was read back when it was found, and the exact expansion that
stands in for it stands for the number itself. -/
theorem shortestDecimal_reads (m : ℕ) (e : ℤ) :
    (shortestDecimal m e).negative = false ∧
      (shortestDecimal m e).toNumber = ofRatio false (scaledRatio m e).1 (scaledRatio m e).2 := by
  have hshortest : shortestDecimal m e =
      ((List.range 17).findSome? fun i =>
        decimalOfDigits? (ofRatio false (scaledRatio m e).1 (scaledRatio m e).2)
          (scaledRatio m e).1 (scaledRatio m e).2
          (floorLog10 (scaledRatio m e).1 (scaledRatio m e).2) (i + 1)).getD (exactDecimal m e) := rfl
  rw [hshortest]
  cases hfound : (List.range 17).findSome? fun i =>
      decimalOfDigits? (ofRatio false (scaledRatio m e).1 (scaledRatio m e).2)
        (scaledRatio m e).1 (scaledRatio m e).2
        (floorLog10 (scaledRatio m e).1 (scaledRatio m e).2) (i + 1) with
  | some n =>
    obtain ⟨i, -, hi⟩ := List.exists_of_findSome?_eq_some hfound
    exact decimalOfDigits?_reads hi
  | none =>
    have hnegative : (exactDecimal m e).negative = false := by
      unfold exactDecimal
      split <;> rfl
    have hvalue := (exactDecimal_value m e).trans (scaledRatio_div m e).symm
    rw [Option.getD_none, Numeral.toNumber_eq (scaledRatio_pos m e) hvalue, hnegative]
    exact ⟨rfl, rfl⟩

/-- A decimal without digits reads as zero, so the shortest decimal of another number has some. -/
theorem shortestDecimal_digits (h : Canonical m e) (hm : m ≠ 0) :
    (shortestDecimal m e).digits ≠ 0 := by
  intro hzero
  obtain ⟨hnegative, hread⟩ := shortestDecimal_reads m e
  rw [Numeral.toNumber, if_pos hzero, hnegative] at hread
  have hbits := ratioBits_exact h hm (scaledRatio_pos m e) (scaledRatio_div m e)
  have hnum : (scaledRatio m e).1 ≠ 0 := by
    have hpos : (0 : ℚ) < (scaledRatio m e).1 / (scaledRatio m e).2 := by
      rw [scaledRatio_div]
      positivity
    exact ((div_pos_iff_num (scaledRatio_pos m e)).mp hpos).ne'
  unfold ofRatio at hread
  rw [if_pos rfl, if_neg hnum] at hread
  have hsame := ofMagnitudeBits_inj (Nat.zero_le _) (ratioBits_le _ _) hread
  rw [hbits, magnitudeBits] at hsame
  omega

/-! ## The text of a number -/

/-- The characters stand for the number in a source. -/
structure ReadsAs (cs : List Char) (x : Float) : Prop where
  numeric : ∀ c ∈ cs, IsNumeric c
  read : ∃ n, Numeral.ofChars? cs = some n ∧ n.toNumber = x

theorem literalChars_reads (style : LiteralStyle) (hx : parts x = .finite negative m e)
    (hm : m ≠ 0) : ReadsAs (literalChars style x) x := by
  obtain ⟨hunsigned, hread⟩ := shortestDecimal_reads m e
  have hdigits := shortestDecimal_digits (canonical_of_parts hx) hm
  have hnumeral := layout_isNumeral style hdigits
  have hchars : literalChars style x = withSign negative (layout style (shortestDecimal m e)) := by
    unfold literalChars
    rw [hx]
    cases m with
    | zero => exact absurd rfl hm
    | succ m => rfl
  rw [hchars]
  refine ⟨hnumeral.withSign_numeric negative, ?_⟩
  obtain ⟨n, hn, hnegative, hvalue⟩ := hnumeral.withSign negative
  subst hnegative
  exact ⟨n, hn, Numeral.toNumber_of_magnitude hx (scaledRatio_pos m e) (scaledRatio_div m e)
    hunsigned hread hvalue⟩

theorem scaledInt?_value {i : ℕ} (h : scaledInt? m e = some i) : (i : ℚ) = m * 2 ^ e := by
  unfold scaledInt? at h
  split at h
  · rename_i he
    obtain ⟨k, rfl⟩ := Int.eq_ofNat_of_zero_le he
    cases h
    simp
  · rename_i he
    obtain ⟨k, rfl⟩ : ∃ k : ℕ, e = -(k : ℤ) := ⟨(-e).toNat, by omega⟩
    rw [neg_neg, Int.toNat_natCast] at h
    dsimp only at h
    split at h
    · rename_i hmod
      cases h
      have hdvd : 2 ^ k ∣ m := Nat.dvd_of_mod_eq_zero hmod
      rw [Nat.pow_eq, Nat.cast_div hdvd (by positivity), zpow_neg, zpow_natCast, div_eq_mul_inv]
      push_cast
      rfl
    · cases h

/-- Of the finite numbers only the negative zero has a sign that its integer has not. -/
theorem eq_negative_zero (hx : parts x = .finite true 0 e) : x = -0.0 := by
  have he : e = -1074 := (canonical_of_parts hx).leading.resolve_left (by decide)
  subst he
  rw [← ofMagnitudeBits_of_parts hx]
  decide +kernel

theorem intChars_reads {i : ℤ} (hx : parts x = .finite negative m e) (hzero : x ≠ -0.0)
    (hi : toInt? x = some i) : ReadsAs (intChars i) x := by
  unfold toInt? at hi
  rw [hx] at hi
  obtain ⟨k, hk, rfl⟩ := Option.map_eq_some_iff.mp hi
  have hvalue := scaledInt?_value hk
  have hsign : decide (signed negative k < 0) = negative := by
    cases negative with
    | false => simp [signed]
    | true =>
      have hne : k ≠ 0 := by
        rintro rfl
        have hpower : (2 : ℚ) ^ e ≠ 0 := zpow_ne_zero e two_ne_zero
        have hm : m = 0 := by simpa [hpower] using hvalue
        subst hm
        exact hzero (eq_negative_zero hx)
      simp only [signed, if_true, decide_eq_true_eq]
      omega
  have habs : (signed negative k).natAbs = k := by
    unfold signed
    split <;> simp
  have hnumeral := isNumeral_whole (areDigits_natDigits k) (by simp [natDigits]) isExponent_nil
  rw [intChars, hsign, habs]
  rw [List.append_nil] at hnumeral
  refine ⟨hnumeral.withSign_numeric negative, ?_⟩
  obtain ⟨n, hn, hnegative, hread⟩ := hnumeral.withSign negative
  subst hnegative
  refine ⟨n, hn, Numeral.toNumber_of_value hx ?_⟩
  have hdigits : Nat.ofDigitChars 10 (natDigits k) 0 = k :=
    Nat.ofDigitChars_toDigits (by decide) (by decide)
  rw [hread, hdigits, zpow_zero, mul_one, hvalue]

theorem toInt?_zero (hx : parts x = .finite negative 0 e) : toInt? x = some 0 := by
  unfold toInt? scaledInt?
  rw [hx]
  simp [signed]

/-- The surface text of a finite number stands for it, unless it is the negative zero. -/
theorem surfaceChars_reads (hx : parts x = .finite negative m e) (hzero : x ≠ -0.0) :
    ReadsAs (surfaceChars x) x := by
  unfold surfaceChars
  rw [hx]
  dsimp only
  cases hi : toInt? x with
  | none =>
    refine literalChars_reads _ hx ?_
    rintro rfl
    rw [toInt?_zero hx] at hi
    cases hi
  | some i =>
    dsimp only
    split
    · exact intChars_reads hx hzero hi
    · rename_i hsize
      -- what is too large for an integer is no zero
      refine literalChars_reads _ hx ?_
      rintro rfl
      rw [toInt?_zero hx] at hi
      cases hi
      exact hsize (by decide)

end Redex.Number
