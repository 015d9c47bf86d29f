import Mathlib
import Redex.Number.Numeral

/-!
# The nearest number

What the number nearest to an exact ratio depends on, and which ratios are numbers themselves.

* **`floorLog2_eq`** — the binary exponent of a ratio is that of the rational number it stands for.
* **`ofRatio_congr`** — the nearest number depends on the rational number alone, not on how it is
  written as a ratio.
* **`Canonical`** — the significands and exponents that a finite number is made of, and
  **`ofRatio_exact`** — a ratio that is a number itself is its own nearest number.
* **`Numeral.toNumber_eq`** — a numeral is read as the number nearest to its value, and the limits
  that keep its powers small change nothing.
-/

namespace Redex.Number

/-! ## Rounding a quotient -/

variable {num den num' den' n d n' d' m : ℕ} {e k : ℤ} {v : ℚ} {x : Float} {negative : Bool}

theorem roundDiv_mul_right (n d : ℕ) {c : ℕ} (hc : 0 < c) :
    roundDiv (n * c) (d * c) = roundDiv n d := by
  have hq : n * c / (d * c) = n / d := Nat.mul_div_mul_right n d hc
  have hr : n * c % (d * c) = n % d * c := Nat.mul_mod_mul_right c n d
  have hlt : 2 * (n % d * c) < d * c ↔ 2 * (n % d) < d := by
    rw [← mul_assoc]
    exact Nat.mul_lt_mul_right hc
  have hgt : d * c < 2 * (n % d * c) ↔ d < 2 * (n % d) := by
    rw [← mul_assoc]
    exact Nat.mul_lt_mul_right hc
  simp only [roundDiv, hq, hr, hlt, hgt]

theorem roundDiv_congr (hd : 0 < d) (hd' : 0 < d') (h : (n : ℚ) / d = n' / d') :
    roundDiv n d = roundDiv n' d' := by
  have hcross : n * d' = n' * d := by
    rw [div_eq_div_iff (by positivity) (by positivity)] at h
    exact_mod_cast h
  calc roundDiv n d = roundDiv (n * d') (d * d') := (roundDiv_mul_right n d hd').symm
    _ = roundDiv (n' * d) (d' * d) := by rw [hcross, mul_comm d d']
    _ = roundDiv n' d' := roundDiv_mul_right n' d' hd

theorem roundDiv_exact (hd : 0 < d) (h : (n : ℚ) / d = m) : roundDiv n d = m := by
  have hone : (n : ℚ) / d = m / (1 : ℕ) := by simpa using h
  rw [roundDiv_congr hd one_pos hone]
  simp [roundDiv, Nat.mod_one]

theorem le_roundDiv (hd : 0 < d) (h : (m : ℚ) ≤ n / d) : m ≤ roundDiv n d := by
  have hfloor : m ≤ n / d := by
    rw [le_div_iff₀ (by positivity)] at h
    exact (Nat.le_div_iff_mul_le hd).mpr (by exact_mod_cast h)
  unfold roundDiv
  dsimp only
  split
  · exact hfloor
  · split <;> omega

theorem roundDiv_eq_zero (hd : 0 < d) (h : (n : ℚ) / d < 1 / 2) : roundDiv n d = 0 := by
  have hhalf : 2 * n < d := by
    rw [div_lt_div_iff₀ (by positivity) two_pos] at h
    have h' : (n : ℚ) * 2 < d := by simpa using h
    have : n * 2 < d := by exact_mod_cast h'
    omega
  have hsmall : n < d := by omega
  simp [roundDiv, Nat.div_eq_of_lt hsmall, Nat.mod_eq_of_lt hsmall, hhalf]

/-! ## Binary exponents -/

theorem rescale_pos (num : ℕ) (hden : 0 < den) (e : ℤ) : 0 < (rescale num den e).2 := by
  unfold rescale
  split
  · exact Nat.mul_pos hden (Nat.pow_pos two_pos)
  · exact hden

/-- Rescaling a ratio divides what it stands for by a power of two. -/
theorem rescale_div (num den : ℕ) (e : ℤ) :
    ((rescale num den e).1 : ℚ) / (rescale num den e).2 = num / den / 2 ^ e := by
  unfold rescale
  split
  · rename_i he
    obtain ⟨k, rfl⟩ := Int.eq_ofNat_of_zero_le he
    simp [div_div]
  · rename_i he
    obtain ⟨k, rfl⟩ : ∃ k : ℕ, e = -(k : ℤ) := ⟨(-e).toNat, by omega⟩
    simp [zpow_neg, mul_div_right_comm]

theorem log_eq (hv : 0 < v) (hle : (2 : ℚ) ^ k ≤ v) (hlt : v < 2 ^ (k + 1)) : Int.log 2 v = k := by
  have hbase : (2 : ℚ) = ((2 : ℕ) : ℚ) := by norm_num
  rw [hbase] at hle hlt
  have hlower : k ≤ Int.log 2 v := (Int.zpow_le_iff_le_log one_lt_two hv).mp hle
  have hupper : Int.log 2 v < k + 1 := (Int.lt_zpow_iff_log_lt one_lt_two hv).mp hlt
  omega

theorem two_zpow_log2_le (hm : m ≠ 0) : (2 : ℚ) ^ (m.log2 : ℤ) ≤ m := by
  rw [zpow_natCast]
  exact_mod_cast Nat.log2_self_le hm

theorem lt_two_zpow_log2 (m : ℕ) : (m : ℚ) < 2 ^ ((m.log2 : ℤ) + 1) := by
  have h : m < 2 ^ (m.log2 + 1) := Nat.lt_log2_self
  have hcast : (2 : ℚ) ^ ((m.log2 : ℤ) + 1) = ((2 ^ (m.log2 + 1) : ℕ) : ℚ) := by
    push_cast
    rw [← zpow_natCast]
    push_cast
    rfl
  rw [hcast]
  exact_mod_cast h

/-- The binary exponent of a ratio is that of the rational number that it stands for. -/
theorem floorLog2_eq (hnum : 0 < num) (hden : 0 < den) :
    floorLog2 num den = Int.log 2 ((num : ℚ) / den) := by
  have hv : (0 : ℚ) < num / den := by positivity
  set k : ℤ := (num.log2 : ℤ) - den.log2 with hk
  -- the exponents of the two parts leave one step of doubt
  have hupper : (num : ℚ) / den < 2 ^ (k + 1) := by
    rw [div_lt_iff₀ (by positivity)]
    calc (num : ℚ) < 2 ^ ((num.log2 : ℤ) + 1) := lt_two_zpow_log2 num
      _ = 2 ^ (k + 1) * 2 ^ (den.log2 : ℤ) := by rw [← zpow_add₀ two_ne_zero]; congr 1; omega
      _ ≤ 2 ^ (k + 1) * den := by gcongr; exact two_zpow_log2_le hden.ne'
  have hlower : (2 : ℚ) ^ (k - 1) ≤ num / den := by
    rw [le_div_iff₀ (by positivity)]
    calc (2 : ℚ) ^ (k - 1) * den ≤ 2 ^ (k - 1) * 2 ^ ((den.log2 : ℤ) + 1) := by
          gcongr
          exact (lt_two_zpow_log2 den).le
      _ = 2 ^ (num.log2 : ℤ) := by rw [← zpow_add₀ two_ne_zero]; congr 1; omega
      _ ≤ num := two_zpow_log2_le hnum.ne'
  have hcompare : (rescale num den k).1 < (rescale num den k).2 ↔ (num : ℚ) / den < 2 ^ k := by
    have hpos : (0 : ℚ) < (rescale num den k).2 := by exact_mod_cast rescale_pos num hden k
    have hpower : (0 : ℚ) < 2 ^ k := zpow_pos two_pos k
    rw [← div_lt_one hpower, ← rescale_div, div_lt_one hpos, Nat.cast_lt]
  unfold floorLog2
  dsimp only
  rw [← hk]
  split
  · rename_i h
    refine (log_eq hv hlower ?_).symm
    simpa using hcompare.mp h
  · rename_i h
    refine (log_eq hv ?_ hupper).symm
    exact not_lt.mp (mt hcompare.mpr h)

/-! ## The nearest number depends on the ratio alone -/

/-- The exponent of the last place of the number nearest to a positive rational number. -/
noncomputable def lastPlace (v : ℚ) : ℤ :=
  max (Int.log 2 v - 52) (-1074)

theorem ratioBits_eq (hnum : 0 < num) (hden : 0 < den) :
    ratioBits num den =
      let e := lastPlace (num / den)
      min ((e + 1074).toNat * fieldUnit + roundDiv (rescale num den e).1 (rescale num den e).2)
        0x7FF0000000000000 := by
  rw [ratioBits, floorLog2_eq hnum hden]
  rfl

theorem ratioBits_congr (hnum : 0 < num) (hden : 0 < den) (hnum' : 0 < num') (hden' : 0 < den')
    (h : (num : ℚ) / den = num' / den') : ratioBits num den = ratioBits num' den' := by
  rw [ratioBits_eq hnum hden, ratioBits_eq hnum' hden', h]
  have hround : ∀ e, roundDiv (rescale num den e).1 (rescale num den e).2 =
      roundDiv (rescale num' den' e).1 (rescale num' den' e).2 := by
    intro e
    refine roundDiv_congr (rescale_pos num hden e) (rescale_pos num' hden' e) ?_
    rw [rescale_div, rescale_div, h]
  simp only [hround]

theorem div_pos_iff_num (hden : 0 < den) : (0 : ℚ) < num / den ↔ 0 < num := by
  have hden' : (0 : ℚ) < den := by exact_mod_cast hden
  rw [div_pos_iff_of_pos_right hden']
  exact_mod_cast Iff.rfl

theorem ofRatio_congr (hden : 0 < den) (hden' : 0 < den') (h : (num : ℚ) / den = num' / den') :
    ofRatio negative num den = ofRatio negative num' den' := by
  have hiff : 0 < num ↔ 0 < num' := by rw [← div_pos_iff_num hden, h, div_pos_iff_num hden']
  unfold ofRatio
  by_cases hnum : 0 < num
  · have hnum' := hiff.mp hnum
    rw [if_neg hnum.ne', if_neg hnum'.ne', ratioBits_congr hnum hden hnum' hden' h]
  · have hnum' := mt hiff.mpr hnum
    rw [if_pos (by omega), if_pos (by omega)]

/-! ## Numbers that are ratios -/

/-- The significand and the exponent of a finite number: the leading bit is set unless the exponent
is the least one. -/
structure Canonical (m : ℕ) (e : ℤ) : Prop where
  lower : -1074 ≤ e
  upper : e ≤ 971
  bounded : m < 0x20000000000000
  leading : 0x10000000000000 ≤ m ∨ e = -1074

/-- The bits of the magnitude of a number with the given parts. -/
def magnitudeBits (m : ℕ) (e : ℤ) : ℕ :=
  (e + 1074).toNat * fieldUnit + m

/-- What the bits of a finite number are: without the leading bit if the exponent field is zero. -/
theorem parts_finite (h : parts x = .finite negative m e) :
    negative = decide (signBit ≤ x.toBits.toNat) ∧ x.toBits.toNat / fieldUnit % 2048 ≠ 2047 ∧
      ((x.toBits.toNat / fieldUnit % 2048 = 0 ∧ m = x.toBits.toNat % fieldUnit ∧ e = -1074) ∨
        (x.toBits.toNat / fieldUnit % 2048 ≠ 0 ∧ m = fieldUnit + x.toBits.toNat % fieldUnit ∧
          e = (x.toBits.toNat / fieldUnit % 2048 : ℕ) - 1075)) := by
  unfold parts at h
  dsimp only at h
  split at h
  · split at h <;> cases h
  · rename_i hfield
    split at h
    · rename_i hzero
      cases h
      exact ⟨rfl, hfield, Or.inl ⟨hzero, rfl, rfl⟩⟩
    · rename_i hzero
      cases h
      exact ⟨rfl, hfield, Or.inr ⟨hzero, rfl, rfl⟩⟩

theorem canonical_of_parts (h : parts x = .finite negative m e) : Canonical m e := by
  obtain ⟨-, hfield, hparts⟩ := parts_finite h
  simp only [fieldUnit] at hfield hparts
  exact ⟨by omega, by omega, by omega, by omega⟩

/-- A finite number is given by its sign and the bits of its magnitude. -/
theorem ofMagnitudeBits_of_parts (h : parts x = .finite negative m e) :
    ofMagnitudeBits negative (magnitudeBits m e) = x := by
  have hbits : (if negative then signBit + magnitudeBits m e else magnitudeBits m e) =
      x.toBits.toNat := by
    have hlt : x.toBits.toNat < 2 ^ 64 := x.toBits.toNat_lt
    obtain ⟨hnegative, -, hparts⟩ := parts_finite h
    cases negative with
    | true =>
      have hsign : signBit ≤ x.toBits.toNat := of_decide_eq_true hnegative.symm
      rw [if_pos rfl]
      simp only [magnitudeBits, fieldUnit, signBit] at hparts hsign ⊢
      omega
    | false =>
      have hsign : ¬ signBit ≤ x.toBits.toNat := of_decide_eq_false hnegative.symm
      rw [if_neg Bool.false_ne_true]
      simp only [magnitudeBits, fieldUnit, signBit] at hparts hsign ⊢
      omega
  rw [ofMagnitudeBits, hbits, UInt64.ofNat_toNat, Float.ofBits_toBits]

theorem lastPlace_canonical (h : Canonical m e) (hm : m ≠ 0) : lastPlace (m * 2 ^ e) = e := by
  have hv : (0 : ℚ) < m * 2 ^ e := by positivity
  have hlog : Int.log 2 ((m : ℚ) * 2 ^ e) = m.log2 + e := by
    refine log_eq hv ?_ ?_
    · rw [zpow_add₀ two_ne_zero]
      gcongr
      exact two_zpow_log2_le hm
    · rw [add_right_comm, zpow_add₀ two_ne_zero]
      gcongr
      exact lt_two_zpow_log2 m
  have hupper : m.log2 < 53 := (Nat.log2_lt hm).mpr h.bounded
  rw [lastPlace, hlog]
  rcases h.leading with hleading | rfl
  · have hlower : 52 ≤ m.log2 := (Nat.le_log2 hm).mpr hleading
    have := h.lower
    omega
  · omega

theorem ratioBits_exact (h : Canonical m e) (hm : m ≠ 0) (hden : 0 < den)
    (hv : (num : ℚ) / den = m * 2 ^ e) : ratioBits num den = magnitudeBits m e := by
  have hpos : (0 : ℚ) < num / den := by
    rw [hv]
    positivity
  have hplace : lastPlace ((num : ℚ) / den) = e := by rw [hv, lastPlace_canonical h hm]
  have hround : roundDiv (rescale num den e).1 (rescale num den e).2 = m := by
    refine roundDiv_exact (rescale_pos num hden e) ?_
    rw [rescale_div, hv, mul_div_cancel_right₀]
    positivity
  rw [ratioBits_eq ((div_pos_iff_num hden).mp hpos) hden]
  dsimp only
  rw [hplace, hround, magnitudeBits]
  refine min_eq_left ?_
  have hupper := h.upper
  have hbounded := h.bounded
  simp only [fieldUnit]
  omega

/-- A ratio that is a number itself is its own nearest number. -/
theorem ofRatio_exact (h : parts x = .finite negative m e) (hden : 0 < den)
    (hv : (num : ℚ) / den = m * 2 ^ e) : ofRatio negative num den = x := by
  have hcanonical := canonical_of_parts h
  rw [← ofMagnitudeBits_of_parts h, ofRatio]
  congr 1
  by_cases hm : m = 0
  · have hnum : ¬ (0 : ℚ) < num / den := by simp [hv, hm]
    rw [div_pos_iff_num hden, Nat.pos_iff_ne_zero, not_not] at hnum
    rw [if_pos hnum, hm, magnitudeBits, hcanonical.leading.resolve_left (by omega)]
    rfl
  · have hnum : (0 : ℚ) < num / den := by
      rw [hv]
      positivity
    rw [if_neg ((div_pos_iff_num hden).mp hnum).ne', ratioBits_exact hcanonical hm hden hv]

/-! ## Bits of the magnitude

Up to the infinities the bits of a magnitude can be told from the number, so that a number of one
sign tells the number of the other. -/

section Bits

open Float.Model.UnpackedFloat

/-- The bits of a number or an infinity are kept as they are. -/
theorem toBits_ofBits {bits : UInt64}
    (h : bits.toNat / fieldUnit % 2048 = 2047 → bits.toNat % fieldUnit = 0) :
    (Float.ofBits bits).toBits = bits := by
  have hnumber : @isNaNBits .binary64 bits.toBitVec = false := by
    rw [isNaNBits, decide_eq_false_iff_not]
    rintro ⟨hexponent, hmantissa⟩
    -- with all bits of the exponent set there is no room for one of the mantissa
    have hfield := congrArg BitVec.toNat hexponent
    have hfraction := mt BitVec.toNat_inj.mp hmantissa
    rw [unpackExponent_def] at hfield
    rw [unpackMantissa_def] at hfraction
    simp [Nat.shiftRight_eq_div_pow, fieldUnit] at hfield hfraction h
    exact hfraction (h (by omega))
  have hpacked := @pack_unpack .binary64 bits.toBitVec (by decide)
  refine UInt64.toBitVec_inj.mp (hpacked.trans ?_)
  rw [hnumber]
  rfl

theorem ofMagnitudeBits_inj {b b' : ℕ} (hb : b ≤ 0x7FF0000000000000)
    (hb' : b' ≤ 0x7FF0000000000000) (h : ofMagnitudeBits false b = ofMagnitudeBits false b') :
    b = b' := by
  have htoNat : ∀ {b : ℕ}, b ≤ 0x7FF0000000000000 → (UInt64.ofNat b).toNat = b := by
    intro b hb
    exact UInt64.toNat_ofNat_of_lt' (by simp [UInt64.size]; omega)
  have hbits : ∀ {b : ℕ}, b ≤ 0x7FF0000000000000 → (ofMagnitudeBits false b).toBits.toNat = b := by
    intro b hb
    have hnumber : b / fieldUnit % 2048 = 2047 → b % fieldUnit = 0 := by
      simp only [fieldUnit]
      omega
    rw [ofMagnitudeBits, if_neg Bool.false_ne_true, toBits_ofBits (by rwa [htoNat hb]), htoNat hb]
  rw [← hbits hb, h, hbits hb']

end Bits

theorem ratioBits_le (num den : ℕ) : ratioBits num den ≤ 0x7FF0000000000000 :=
  min_le_right _ _

/-- The sign does not matter for which number is nearest. -/
theorem ofRatio_sign (negative : Bool) (h : ofRatio false num den = ofRatio false num' den') :
    ofRatio negative num den = ofRatio negative num' den' := by
  have hle : ∀ num den, (if num = 0 then 0 else ratioBits num den) ≤ 0x7FF0000000000000 := by
    intro num den
    split
    · exact Nat.zero_le _
    · exact ratioBits_le num den
  unfold ofRatio at h ⊢
  rw [ofMagnitudeBits_inj (hle _ _) (hle _ _) h]

/-! ## Out of range -/

theorem ratioBits_of_ge (hden : 0 < den) (h : (2 : ℚ) ^ 1024 ≤ num / den) :
    ratioBits num den = 0x7FF0000000000000 := by
  have hv : (0 : ℚ) < num / den := lt_of_lt_of_le (by positivity) h
  have hlog : 1024 ≤ Int.log 2 ((num : ℚ) / den) := by
    refine (Int.zpow_le_iff_le_log one_lt_two hv).mp ?_
    simpa using h
  set e := lastPlace ((num : ℚ) / den) with he
  have hplace : e = Int.log 2 ((num : ℚ) / den) - 52 := by
    rw [he, lastPlace]
    omega
  -- the leading bit alone carries the significand into the field of the infinities
  have hround : 2 ^ 52 ≤ roundDiv (rescale num den e).1 (rescale num den e).2 := by
    refine le_roundDiv (rescale_pos num hden e) ?_
    have hself : ((2 : ℕ) : ℚ) ^ Int.log 2 ((num : ℚ) / den) ≤ num / den :=
      Int.zpow_log_le_self one_lt_two hv
    rw [rescale_div, hplace, le_div_iff₀ (by positivity)]
    calc ((2 ^ 52 : ℕ) : ℚ) * 2 ^ (Int.log 2 ((num : ℚ) / den) - 52)
        = 2 ^ Int.log 2 ((num : ℚ) / den) := by
          rw [zpow_sub₀ two_ne_zero]
          norm_num
          field_simp
      _ ≤ num / den := by exact_mod_cast hself
  rw [ratioBits_eq ((div_pos_iff_num hden).mp hv) hden]
  dsimp only
  rw [← he]
  refine min_eq_right ?_
  simp only [fieldUnit]
  omega

theorem ratioBits_of_lt (hnum : 0 < num) (hden : 0 < den)
    (h : (num : ℚ) / den < 2 ^ (-1075 : ℤ)) : ratioBits num den = 0 := by
  have hv : (0 : ℚ) < num / den := by positivity
  have hlog : Int.log 2 ((num : ℚ) / den) < -1075 := by
    refine (Int.lt_zpow_iff_log_lt one_lt_two hv).mp ?_
    exact_mod_cast h
  have hplace : lastPlace ((num : ℚ) / den) = -1074 := by
    rw [lastPlace]
    omega
  have hround : roundDiv (rescale num den (-1074)).1 (rescale num den (-1074)).2 = 0 := by
    refine roundDiv_eq_zero (rescale_pos num hden _) ?_
    rw [rescale_div, div_lt_iff₀ (by positivity)]
    calc (num : ℚ) / den < 2 ^ (-1075 : ℤ) := h
      _ = 1 / 2 * 2 ^ (-1074 : ℤ) := by
        rw [show (-1075 : ℤ) = -1 + -1074 from rfl, zpow_add₀ two_ne_zero]
        norm_num
  rw [ratioBits_eq hnum hden]
  dsimp only
  rw [hplace, hround]
  rfl

theorem infinity_eq (negative : Bool) :
    infinity negative = ofMagnitudeBits negative 0x7FF0000000000000 := by
  cases negative <;> decide +kernel

end Redex.Number

namespace Redex.Numeral

open Number

/-- What a numeral stands for, without its sign. -/
def value (n : Numeral) : ℚ :=
  n.digits * 10 ^ n.exponent

variable {n : Numeral} {num den : ℕ}

/-- The powers of ten at which a numeral is given up lie beyond the range of numbers. -/
theorem two_pow_le_ten_pow : (2 : ℚ) ^ 1024 ≤ 10 ^ (311 : ℤ) := by
  have h : 2 ^ 1024 ≤ 10 ^ 311 := by decide +kernel
  have hcast : ((2 ^ 1024 : ℕ) : ℚ) ≤ (10 ^ 311 : ℕ) := Nat.cast_le.mpr h
  rwa [Nat.cast_pow, Nat.cast_pow] at hcast

theorem ten_zpow_le_two_zpow : (10 : ℚ) ^ (-400 : ℤ) ≤ 2 ^ (-1075 : ℤ) := by
  have h : 2 ^ 1075 ≤ 10 ^ 400 := by decide +kernel
  have hcast : ((2 ^ 1075 : ℕ) : ℚ) ≤ (10 ^ 400 : ℕ) := Nat.cast_le.mpr h
  rw [Nat.cast_pow, Nat.cast_pow] at hcast
  rw [zpow_neg, zpow_neg]
  exact inv_anti₀ (by positivity) hcast

/-- A numeral is read as the number nearest to its value, whatever ratio stands for that. -/
theorem toNumber_eq (hden : 0 < den) (h : n.value = num / den) :
    n.toNumber = ofRatio n.negative num den := by
  unfold toNumber
  split
  · rename_i hzero
    refine ofRatio_congr one_pos hden ?_
    rw [← h, value, hzero]
    simp
  rename_i hdigits
  have hone : (1 : ℚ) ≤ n.digits := by exact_mod_cast Nat.one_le_iff_ne_zero.mpr hdigits
  have hpos : (0 : ℚ) < num / den := by
    rw [← h, value]
    positivity
  have hnum : 0 < num := (div_pos_iff_num hden).mp hpos
  split
  · rename_i hlarge
    have hge : (2 : ℚ) ^ 1024 ≤ num / den := by
      rw [← h, value]
      calc (2 : ℚ) ^ 1024 ≤ 10 ^ (311 : ℤ) := two_pow_le_ten_pow
        _ ≤ 10 ^ n.exponent := zpow_le_zpow_right₀ (by norm_num) (by omega)
        _ ≤ n.digits * 10 ^ n.exponent := le_mul_of_one_le_left (by positivity) hone
    rw [infinity_eq, ofRatio, if_neg hnum.ne', ratioBits_of_ge hden hge]
  split
  · rename_i hsmall
    have hlt : (num : ℚ) / den < 2 ^ (-1075 : ℤ) := by
      rw [← h, value]
      calc (n.digits : ℚ) * 10 ^ n.exponent
          < 2 ^ ((n.digits.log2 : ℤ) + 1) * 10 ^ n.exponent := by
            gcongr
            exact lt_two_zpow_log2 _
        _ ≤ 10 ^ ((n.digits.log2 : ℤ) + 1) * 10 ^ n.exponent := by
            gcongr
            exact zpow_le_zpow_left₀ (by omega) (by norm_num) (by norm_num)
        _ = 10 ^ ((n.digits.log2 : ℤ) + 1 + n.exponent) := (zpow_add₀ (by norm_num) _ _).symm
        _ ≤ 10 ^ (-400 : ℤ) := zpow_le_zpow_right₀ (by norm_num) (by omega)
        _ ≤ 2 ^ (-1075 : ℤ) := ten_zpow_le_two_zpow
    rw [ofRatio, ofRatio, if_neg hnum.ne', ratioBits_of_lt hnum hden hlt]
    rfl
  split
  · rename_i hexponent
    obtain ⟨k, hk⟩ := Int.eq_ofNat_of_zero_le hexponent
    refine ofRatio_congr one_pos hden ?_
    rw [← h, value, hk]
    simp
  · rename_i hexponent
    obtain ⟨k, hk⟩ : ∃ k : ℕ, n.exponent = -(k : ℤ) := ⟨(-n.exponent).toNat, by omega⟩
    refine ofRatio_congr (Nat.pow_pos (by norm_num)) hden ?_
    rw [← h, value, hk]
    simp [zpow_neg, div_eq_mul_inv]

/-- The value of a numeral is the ratio of its own numerator, which is no negative number. -/
theorem value_eq_div (n : Numeral) : n.value = n.value.num.toNat / n.value.den := by
  have hnonneg : 0 ≤ n.value.num := Rat.num_nonneg.mpr (by rw [value]; positivity)
  have hcast : ((n.value.num.toNat : ℤ) : ℚ) = n.value.num := by rw [Int.toNat_of_nonneg hnonneg]
  rw [← Int.cast_natCast, hcast, Rat.num_div_den]

theorem exists_ratio (n : Numeral) : ∃ num den : ℕ, 0 < den ∧ n.value = num / den :=
  ⟨_, _, n.value.den_pos, n.value_eq_div⟩

/-- A numeral reads as a number if it has the sign of the number, and the value of a numeral without
a sign that reads as the magnitude of the number. -/
theorem toNumber_of_magnitude {x : Float} {m : ℕ} {e : ℤ} {d : Numeral}
    (hx : parts x = .finite n.negative m e) (hden : 0 < den) (hv : (num : ℚ) / den = m * 2 ^ e)
    (hd : d.negative = false) (hread : d.toNumber = ofRatio false num den)
    (hvalue : n.value = d.value) : n.toNumber = x := by
  obtain ⟨num', den', hden', hratio⟩ := d.exists_ratio
  rw [toNumber_eq hden' hratio, hd] at hread
  rw [toNumber_eq hden' (hvalue.trans hratio), ofRatio_sign n.negative hread,
    ofRatio_exact hx hden hv]

/-- A numeral that stands for the magnitude of a number reads as that number. -/
theorem toNumber_of_value {x : Float} {m : ℕ} {e : ℤ} (hx : parts x = .finite n.negative m e)
    (hvalue : n.value = m * 2 ^ e) : n.toNumber = x := by
  obtain ⟨num, den, hden, hratio⟩ := n.exists_ratio
  rw [toNumber_eq hden hratio, ofRatio_exact hx hden (hratio.symm.trans hvalue)]

end Redex.Numeral
