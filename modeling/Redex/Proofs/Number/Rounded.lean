import Redex.Proofs.Number.Nearest

/-!
# Correct rounding

What it means for a number to be the correctly rounded one of an exact value, said by distances alone,
and that the nearest number of a ratio is the only one that is.

* **`IsNearest`** — no number is nearer to the value, and of two that are equally near, this one has
  the even significand.
* **`roundDiv_closest`** — the rounded quotient among the natural numbers, and **`round_closest`** —
  the rounded significand among all numbers: those with a finer last place lie too far below.
* **`exists_carry`** — a significand that rounds up to the next power of two is carried into the
  exponent.
* **`IsNearest.not_lt`** — between two numbers that are equally near and both even there is another
  one, so there are no such two.
* **`ofRatio_isRounded`** and **`IsRounded.unique`** — the number nearest to a ratio is the correctly
  rounded one, and there is no other.
-/

namespace Redex.Number

variable {num den n d m m' k : ℕ} {e e' : ℤ} {v : ℚ} {x y : Float} {negative : Bool}

/-! ## Correctly rounded numbers -/

/-- From here on values are infinite: half a last place above the largest number. -/
def overflow : ℚ :=
  (2 ^ 53 - 1 / 2) * 2 ^ (971 : ℤ)

/-- No number is nearer to the value, and where another one is as near, this one is even. -/
structure IsNearest (v : ℚ) (m : ℕ) (e : ℤ) : Prop where
  closest {m' : ℕ} {e' : ℤ} (h : Canonical m' e') : |(m : ℚ) * 2 ^ e - v| ≤ |(m' : ℚ) * 2 ^ e' - v|
  even {m' : ℕ} {e' : ℤ} (h : Canonical m' e') (hne : (m' : ℚ) * 2 ^ e' ≠ m * 2 ^ e)
    (tie : |(m' : ℚ) * 2 ^ e' - v| = |(m : ℚ) * 2 ^ e - v|) : Even m

/-- The number is the correctly rounded one of a value, or of its negative. -/
inductive IsRounded (negative : Bool) (v : ℚ) : Float → Prop where
  | infinite (h : overflow ≤ v) : IsRounded negative v (infinity negative)
  | finite {x : Float} {m : ℕ} {e : ℤ} (h : v < overflow) (hparts : parts x = .finite negative m e)
      (hnearest : IsNearest v m e) : IsRounded negative v x

/-! ## Numbers and their parts -/

/-- Canonical significands and exponents are those that numbers are made of. -/
theorem parts_ofMagnitudeBits (h : Canonical m e) (negative : Bool) :
    parts (ofMagnitudeBits negative (magnitudeBits m e)) = .finite negative m e := by
  obtain ⟨hlower, hupper, hbounded, hleading⟩ := h
  obtain ⟨b, hb⟩ : ∃ b, b = if negative then signBit + magnitudeBits m e else magnitudeBits m e :=
    ⟨_, rfl⟩
  have hbits : b / fieldUnit % 2048 ≠ 2047 ∧ b < 2 ^ 64 ∧ (signBit ≤ b ↔ negative = true) ∧
      ((b / fieldUnit % 2048 = 0 ∧ m = b % fieldUnit ∧ e = -1074) ∨
        (b / fieldUnit % 2048 ≠ 0 ∧ m = fieldUnit + b % fieldUnit ∧
          e = (b / fieldUnit % 2048 : ℕ) - 1075)) := by
    cases negative with
    | true =>
      simp only [if_true, iff_true, magnitudeBits, fieldUnit, signBit] at hb ⊢
      omega
    | false =>
      simp only [Bool.false_eq_true, if_false, iff_false, magnitudeBits, fieldUnit, signBit] at hb ⊢
      omega
  obtain ⟨hfield, hlt, hnegative, hparts⟩ := hbits
  have htoNat : (UInt64.ofNat b).toNat = b := UInt64.toNat_ofNat_of_lt' hlt
  have htoBits : (ofMagnitudeBits negative (magnitudeBits m e)).toBits.toNat = b := by
    rw [ofMagnitudeBits, ← hb, toBits_ofBits (by rw [htoNat]; exact fun h => absurd h hfield), htoNat]
  have hsign : decide (signBit ≤ b) = negative := by simp [hnegative]
  unfold parts
  dsimp only
  rw [htoBits, if_neg hfield, hsign]
  rcases hparts with ⟨hzero, hm, he⟩ | ⟨hpos, hm, he⟩
  · rw [if_pos hzero, ← hm, he]
  · rw [if_neg hpos, ← hm, he]

/-- A number with a finer last place is less than any with a leading bit. -/
theorem Canonical.value_lt (h : Canonical m' e') (hlt : e' < e) :
    (m' : ℚ) * 2 ^ e' < 2 ^ 52 * 2 ^ e := by
  have hbounded : (m' : ℚ) < 2 ^ 53 := by exact_mod_cast h.bounded
  calc (m' : ℚ) * 2 ^ e' < 2 ^ 53 * 2 ^ e' := by gcongr
    _ = 2 ^ 52 * 2 ^ (e' + 1) := by rw [zpow_add₀ two_ne_zero]; norm_num; ring
    _ ≤ 2 ^ 52 * 2 ^ e := by gcongr <;> [norm_num; omega]

/-- A number with a coarser last place is a multiple of a finer one. -/
theorem exists_multiple (h : e ≤ e') (m' : ℕ) :
    ∃ k : ℕ, (m' : ℚ) * 2 ^ e' = k * 2 ^ e ∧ (Even m' → Even k) := by
  obtain ⟨j, rfl⟩ : ∃ j : ℕ, e' = e + j := ⟨(e' - e).toNat, by omega⟩
  refine ⟨m' * 2 ^ j, ?_, fun heven => heven.mul_right _⟩
  rw [zpow_add₀ two_ne_zero, zpow_natCast]
  push_cast
  ring

/-- Numbers with the same value have the same parts. -/
theorem Canonical.value_inj (h : Canonical m e) (h' : Canonical m' e')
    (hv : (m : ℚ) * 2 ^ e = m' * 2 ^ e') : m = m' ∧ e = e' := by
  have hpower : ∀ e : ℤ, (2 : ℚ) ^ e ≠ 0 := fun e => zpow_ne_zero e two_ne_zero
  have hplace : e = e' := by
    by_cases hm : m = 0
    · have hm' : m' = 0 := by simpa [hm, hpower] using hv.symm
      rw [h.leading.resolve_left (by omega), h'.leading.resolve_left (by omega)]
    · have hm' : m' ≠ 0 := by
        rintro rfl
        simp [hm, hpower] at hv
      rw [← lastPlace_canonical h hm, hv, lastPlace_canonical h' hm']
  subst hplace
  exact ⟨by exact_mod_cast mul_right_cancel₀ (hpower e) hv, rfl⟩

/-! ## The nearest natural number -/

/-- Rounding errs by less than a half, or else the result is even. -/
theorem roundDiv_error (n : ℕ) (hd : 0 < d) : |(roundDiv n d : ℚ) - n / d| < 1 / 2 ∨
    |(roundDiv n d : ℚ) - n / d| = 1 / 2 ∧ Even (roundDiv n d) := by
  have hd' : (0 : ℚ) < d := by exact_mod_cast hd
  have hsum : (n : ℚ) = d * (n / d : ℕ) + (n % d : ℕ) := by exact_mod_cast (Nat.div_add_mod n d).symm
  have hdiv : (n : ℚ) / d = (n / d : ℕ) + (n % d : ℕ) / d := by
    rw [div_eq_iff hd'.ne', add_mul, div_mul_cancel₀ _ hd'.ne', mul_comm]
    exact hsum
  have hnonneg : (0 : ℚ) ≤ (n % d : ℕ) / d := by positivity
  have hone : ((n % d : ℕ) : ℚ) / d < 1 := (div_lt_one hd').mpr (by exact_mod_cast Nat.mod_lt n hd)
  rw [hdiv]
  unfold roundDiv
  dsimp only
  rcases lt_trichotomy (2 * (n % d)) d with hlow | hhalf | hhigh
  · left
    have hlow' : ((n % d : ℕ) : ℚ) / d < 1 / 2 := by
      rw [div_lt_div_iff₀ hd' two_pos]
      exact_mod_cast (by omega : n % d * 2 < 1 * d)
    rw [if_pos hlow, abs_lt]
    constructor <;> linarith
  · right
    have hhalf' : ((n % d : ℕ) : ℚ) / d = 1 / 2 := by
      rw [div_eq_div_iff hd'.ne' two_ne_zero]
      exact_mod_cast (by omega : n % d * 2 = 1 * d)
    rw [if_neg hhalf.not_lt, if_neg hhalf.not_gt, hhalf']
    rcases Nat.mod_two_eq_zero_or_one (n / d) with heven | hodd
    · rw [heven]
      exact ⟨by norm_num, Nat.even_iff.mpr heven⟩
    · rw [hodd]
      exact ⟨by push_cast; norm_num, Nat.even_add_one.mpr (Nat.not_even_iff.mpr hodd)⟩
  · left
    have hhigh' : 1 / 2 < ((n % d : ℕ) : ℚ) / d := by
      rw [div_lt_div_iff₀ two_pos hd']
      exact_mod_cast (by omega : 1 * d < n % d * 2)
    rw [if_neg hhigh.not_gt, if_pos hhigh, abs_lt]
    push_cast
    constructor <;> linarith

theorem roundDiv_closest (n : ℕ) (hd : 0 < d) (hk : k ≠ roundDiv n d) :
    |(roundDiv n d : ℚ) - n / d| ≤ |(k : ℚ) - n / d| ∧
      (|(k : ℚ) - n / d| = |(roundDiv n d : ℚ) - n / d| → Even (roundDiv n d)) := by
  -- another natural number is at least one away, and at most the two distances
  have hapart : (1 : ℚ) ≤ |(k : ℚ) - roundDiv n d| := by
    have hne : (k : ℤ) - roundDiv n d ≠ 0 := by omega
    exact_mod_cast Int.one_le_abs hne
  have htriangle := abs_sub_le (k : ℚ) (n / d) (roundDiv n d)
  rw [abs_sub_comm ((n : ℚ) / d) (roundDiv n d)] at htriangle
  rcases roundDiv_error n hd with hless | ⟨hhalf, heven⟩
  · exact ⟨by linarith, fun htie => by linarith⟩
  · exact ⟨by linarith, fun _ => heven⟩

/-! ## The nearest number -/

theorem le_lastPlace (v : ℚ) : -1074 ≤ lastPlace v :=
  le_max_right _ _

theorem lt_lastPlace (hv : 0 < v) : v < 2 ^ 53 * 2 ^ lastPlace v := by
  have hlog : Int.log 2 v < 53 + lastPlace v := by
    have := le_max_left (Int.log 2 v - 52) (-1074)
    rw [lastPlace]
    omega
  have hlt := (Int.lt_zpow_iff_log_lt one_lt_two hv).mpr hlog
  rw [Nat.cast_ofNat, zpow_add₀ two_ne_zero] at hlt
  exact_mod_cast hlt

/-- Above the least place the leading bit is set. -/
theorem lastPlace_le (hv : 0 < v) : lastPlace v = -1074 ∨ 2 ^ 52 * 2 ^ lastPlace v ≤ v := by
  rcases le_total (Int.log 2 v - 52) (-1074) with hlow | hhigh
  · exact Or.inl (max_eq_right hlow)
  · right
    have hlog : 52 + lastPlace v ≤ Int.log 2 v := by
      rw [lastPlace, max_eq_left hhigh]
      omega
    have hle := (Int.zpow_le_iff_le_log one_lt_two hv).mpr hlog
    rw [Nat.cast_ofNat, zpow_add₀ two_ne_zero] at hle
    exact_mod_cast hle

/-- The significand of a ratio, rounded to the place of the exponent. -/
def significand (num den : ℕ) (e : ℤ) : ℕ :=
  roundDiv (rescale num den e).1 (rescale num den e).2

/-- How far a number with that last place is from the ratio. -/
theorem abs_sub_rescale (num den k : ℕ) (e : ℤ) : |(k : ℚ) * 2 ^ e - num / den| =
    |(k : ℚ) - (rescale num den e).1 / (rescale num den e).2| * 2 ^ e := by
  have hpower : (0 : ℚ) < 2 ^ e := zpow_pos two_pos e
  conv_rhs => rw [rescale_div, ← abs_of_pos hpower, ← abs_mul, abs_of_pos hpower]
  rw [sub_mul, div_mul_cancel₀ _ hpower.ne']

theorem significand_error (num : ℕ) (hden : 0 < den) (e : ℤ) :
    |(significand num den e : ℚ) - num / den / 2 ^ e| < 1 / 2 ∨
      |(significand num den e : ℚ) - num / den / 2 ^ e| = 1 / 2 ∧ Even (significand num den e) := by
  rw [← rescale_div]
  exact roundDiv_error _ (rescale_pos num hden e)

theorem abs_significand_sub_le (num : ℕ) (hden : 0 < den) (e : ℤ) :
    |(significand num den e : ℚ) - num / den / 2 ^ e| ≤ 1 / 2 :=
  (significand_error num hden e).elim le_of_lt fun h => h.1.le

theorem significand_closest (num : ℕ) (hden : 0 < den) (e : ℤ) (hk : k ≠ significand num den e) :
    |(significand num den e : ℚ) * 2 ^ e - num / den| ≤ |(k : ℚ) * 2 ^ e - num / den| ∧
      (|(k : ℚ) * 2 ^ e - num / den| = |(significand num den e : ℚ) * 2 ^ e - num / den| →
        Even (significand num den e)) := by
  have hpower : (0 : ℚ) < 2 ^ e := zpow_pos two_pos e
  obtain ⟨hclosest, heven⟩ := roundDiv_closest _ (rescale_pos num hden e) hk
  rw [abs_sub_rescale, abs_sub_rescale]
  exact ⟨mul_le_mul_of_nonneg_right hclosest hpower.le,
    fun htie => heven (mul_right_cancel₀ hpower.ne' htie)⟩

/-- The significand rounded to the last place of the ratio is the nearest of all numbers. -/
theorem round_closest (hnum : 0 < num) (hden : 0 < den) (hplace : lastPlace (num / den) = e)
    (h : Canonical m' e') :
    |(significand num den e : ℚ) * 2 ^ e - num / den| ≤ |(m' : ℚ) * 2 ^ e' - num / den| ∧
      ((m' : ℚ) * 2 ^ e' ≠ significand num den e * 2 ^ e →
        |(m' : ℚ) * 2 ^ e' - num / den| = |(significand num den e : ℚ) * 2 ^ e - num / den| →
        Even (significand num den e)) := by
  rcases le_or_gt e e' with hcoarse | hfine
  · obtain ⟨k, hk, -⟩ := exists_multiple hcoarse m'
    rw [hk]
    by_cases hsame : k = significand num den e
    · rw [hsame]
      exact ⟨le_rfl, fun hne => absurd rfl hne⟩
    · obtain ⟨hclosest, heven⟩ := significand_closest num hden e hsame
      exact ⟨hclosest, fun _ => heven⟩
  · -- the least number with the leading bit set lies between, so this one is further away
    have hlow := h.value_lt hfine
    have hleading : (2 : ℚ) ^ 52 * 2 ^ e ≤ num / den := by
      have hcases := lastPlace_le (v := num / den) (by positivity)
      rw [hplace] at hcases
      exact hcases.resolve_left (by have := h.lower; omega)
    have hbetween : |(significand num den e : ℚ) * 2 ^ e - num / den| ≤
        num / den - 2 ^ 52 * 2 ^ e := by
      have hpower : |((2 ^ 52 : ℕ) : ℚ) * 2 ^ e - num / den| = num / den - 2 ^ 52 * 2 ^ e := by
        rw [abs_sub_comm, abs_of_nonneg] <;> push_cast <;> linarith
      by_cases hsame : 2 ^ 52 = significand num den e
      · rw [← hsame, hpower]
      · rw [← hpower]
        exact (significand_closest num hden e hsame).1
    have hfar : num / den - (m' : ℚ) * 2 ^ e' ≤ |(m' : ℚ) * 2 ^ e' - num / den| := by
      rw [abs_sub_comm]
      exact le_abs_self _
    exact ⟨by linarith, fun _ htie => by linarith⟩

/-! ## From the significand to the number -/

/-- A significand that rounds up to the next power of two is carried into the exponent. -/
theorem exists_carry (hlower : -1074 ≤ e) (hupper : e ≤ 971) (hle : m ≤ 2 ^ 53)
    (hleading : e = -1074 ∨ 2 ^ 52 ≤ m) (hfits : e = 971 → m < 2 ^ 53) :
    ∃ m' e', Canonical m' e' ∧ magnitudeBits m e = magnitudeBits m' e' ∧
      (m' : ℚ) * 2 ^ e' = m * 2 ^ e ∧ (Even m → Even m') := by
  rcases hle.lt_or_eq with hlt | rfl
  · exact ⟨m, e, ⟨hlower, hupper, hlt, by omega⟩, rfl, rfl, id⟩
  · have he : e ≠ 971 := fun he => lt_irrefl _ (hfits he)
    refine ⟨2 ^ 52, e + 1, ⟨by omega, by omega, by norm_num, by norm_num⟩, ?_, ?_, ?_⟩
    · simp only [magnitudeBits, fieldUnit]
      omega
    · rw [zpow_add₀ two_ne_zero]
      norm_num
      ring
    · intro _
      decide

theorem significand_le (hnum : 0 < num) (hden : 0 < den) (hplace : lastPlace (num / den) = e) :
    significand num den e ≤ 2 ^ 53 := by
  have hlt : (num : ℚ) / den / 2 ^ e < 2 ^ 53 := by
    rw [div_lt_iff₀ (zpow_pos two_pos e), ← hplace]
    exact lt_lastPlace (by positivity)
  have herror := (abs_le.mp (abs_significand_sub_le num hden e)).2
  have hbound : (significand num den e : ℚ) < (2 ^ 53 + 1 : ℕ) := by
    push_cast
    linarith
  have hnat : significand num den e < 2 ^ 53 + 1 := by exact_mod_cast hbound
  omega

theorem le_significand (hnum : 0 < num) (hden : 0 < den) (hplace : lastPlace (num / den) = e) :
    e = -1074 ∨ 2 ^ 52 ≤ significand num den e := by
  have hleading := lastPlace_le (v := num / den) (by positivity)
  rw [hplace] at hleading
  refine hleading.imp_right ?_
  intro hle
  refine le_roundDiv (rescale_pos num hden e) ?_
  rw [rescale_div, le_div_iff₀ (zpow_pos two_pos e)]
  exact_mod_cast hle

/-- The bits of the nearest number, where these are no bits above those of the infinities. -/
theorem ratioBits_eq_significand (hnum : 0 < num) (hden : 0 < den)
    (hplace : lastPlace (num / den) = e) :
    ratioBits num den = min (magnitudeBits (significand num den e) e) 0x7FF0000000000000 := by
  subst hplace
  exact ratioBits_eq hnum hden

/-! ## The largest numbers -/

theorem overflow_lt : overflow < 2 ^ (1024 : ℤ) := by
  calc overflow < 2 ^ 53 * 2 ^ (971 : ℤ) := by rw [overflow]; gcongr; norm_num
    _ = 2 ^ (1024 : ℤ) := by rw [← zpow_natCast, ← zpow_add₀ two_ne_zero]; rfl

theorem le_overflow : 2 ^ (1023 : ℤ) ≤ overflow := by
  calc (2 : ℚ) ^ (1023 : ℤ) = 2 ^ 52 * 2 ^ (971 : ℤ) := by
        rw [← zpow_natCast, ← zpow_add₀ two_ne_zero]; rfl
    _ ≤ overflow := by rw [overflow]; gcongr; norm_num

theorem overflow_pos : 0 < overflow :=
  lt_of_lt_of_le (zpow_pos two_pos _) le_overflow

/-- Below the overflow a value has a last place that a number may have, and in the largest of these
places its significand does not round up to the next power of two. -/
theorem fits_of_lt_overflow (hnum : 0 < num) (hden : 0 < den) (h : (num : ℚ) / den < overflow)
    (hplace : lastPlace (num / den) = e) : e ≤ 971 ∧ (e = 971 → significand num den e < 2 ^ 53) := by
  have hlog : Int.log 2 ((num : ℚ) / den) < 1024 :=
    (Int.lt_zpow_iff_log_lt one_lt_two (by positivity)).mp (h.trans overflow_lt)
  refine ⟨by rw [← hplace, lastPlace]; omega, ?_⟩
  rintro rfl
  have hlt : (num : ℚ) / den / 2 ^ (971 : ℤ) < 2 ^ 53 - 1 / 2 :=
    (div_lt_iff₀ (zpow_pos two_pos _)).mpr h
  have herror := (abs_le.mp (abs_significand_sub_le num hden 971)).2
  have hbound : (significand num den 971 : ℚ) < (2 ^ 53 : ℕ) := by
    push_cast
    linarith
  exact_mod_cast hbound

theorem ratioBits_of_overflow_le (hden : 0 < den) (h : overflow ≤ num / den) :
    ratioBits num den = 0x7FF0000000000000 := by
  have hv : (0 : ℚ) < num / den := overflow_pos.trans_le h
  rcases le_or_gt ((2 : ℚ) ^ (1024 : ℤ)) (num / den) with hlarge | hsmall
  · exact ratioBits_of_ge hden (by rwa [zpow_ofNat] at hlarge)
  have hlog : Int.log 2 ((num : ℚ) / den) = 1023 := log_eq hv (le_overflow.trans h) hsmall
  have hplace : lastPlace ((num : ℚ) / den) = 971 := by
    rw [lastPlace, hlog]
    rfl
  have hge : (2 : ℚ) ^ 53 - 1 / 2 ≤ num / den / 2 ^ (971 : ℤ) :=
    (le_div_iff₀ (zpow_pos two_pos _)).mpr h
  -- a half below the power of two the odd neighbour is as near, and the even one is taken
  have hround : 2 ^ 53 ≤ significand num den 971 := by
    by_contra hless
    have hle : (significand num den 971 : ℚ) ≤ 2 ^ 53 - 1 := by
      have hnat : significand num den 971 + 1 ≤ 2 ^ 53 := by omega
      have hcast : ((significand num den 971 + 1 : ℕ) : ℚ) ≤ (2 ^ 53 : ℕ) := by exact_mod_cast hnat
      push_cast at hcast
      linarith
    rcases significand_error num hden 971 with hlt | ⟨hhalf, heven⟩
    · linarith [(abs_lt.mp hlt).1]
    · have hsum := (abs_le.mp hhalf.le).1
      have hcast : (significand num den 971 : ℚ) + 1 = 2 ^ 53 := by linarith
      have hnext : significand num den 971 + 1 = 2 ^ 53 := by exact_mod_cast hcast
      have hnextEven : Even (significand num den 971 + 1) := by
        rw [hnext]
        decide
      exact Nat.even_add_one.mp hnextEven heven
  rw [ratioBits_eq_significand ((div_pos_iff_num hden).mp hv) hden hplace]
  refine min_eq_right ?_
  simp only [magnitudeBits, fieldUnit]
  omega

/-! ## The nearest number of a ratio is the correctly rounded one -/

theorem exists_isNearest (hnum : 0 < num) (hden : 0 < den) (h : (num : ℚ) / den < overflow) :
    ∃ m e, Canonical m e ∧ ratioBits num den = magnitudeBits m e ∧ IsNearest (num / den) m e := by
  obtain ⟨hupper, hfits⟩ := fits_of_lt_overflow hnum hden h rfl
  obtain ⟨m, e, hcanonical, hbits, hvalue, heven⟩ := exists_carry (le_lastPlace _) hupper
    (significand_le hnum hden rfl) (le_significand hnum hden rfl) hfits
  refine ⟨m, e, hcanonical, ?_, ⟨?_, ?_⟩⟩
  · rw [ratioBits_eq_significand hnum hden rfl, hbits]
    refine min_eq_left ?_
    obtain ⟨-, hupper, hbounded, -⟩ := hcanonical
    simp only [magnitudeBits, fieldUnit]
    omega
  · intro m' e' h'
    rw [hvalue]
    exact (round_closest hnum hden rfl h').1
  · intro m' e' h' hne htie
    rw [hvalue] at hne htie
    exact heven ((round_closest hnum hden rfl h').2 hne htie)

theorem isNearest_zero : IsNearest 0 0 (-1074) where
  closest _ := by
    simp only [Nat.cast_zero, zero_mul, sub_zero, abs_zero]
    positivity
  even _ _ _ := by decide

theorem canonical_zero : Canonical 0 (-1074) :=
  ⟨by norm_num, by norm_num, by norm_num, Or.inr rfl⟩

theorem ofRatio_isRounded (negative : Bool) (num : ℕ) (hden : 0 < den) :
    IsRounded negative (num / den) (ofRatio negative num den) := by
  unfold ofRatio
  rcases Nat.eq_zero_or_pos num with rfl | hnum
  · rw [if_pos rfl, Nat.cast_zero, zero_div]
    exact .finite overflow_pos (parts_ofMagnitudeBits canonical_zero negative) isNearest_zero
  rw [if_neg hnum.ne']
  rcases lt_or_ge ((num : ℚ) / den) overflow with hlt | hge
  · obtain ⟨m, e, hcanonical, hbits, hnearest⟩ := exists_isNearest hnum hden hlt
    rw [hbits]
    exact .finite hlt (parts_ofMagnitudeBits hcanonical negative) hnearest
  · rw [ratioBits_of_overflow_le hden hge, ← infinity_eq]
    exact .infinite hge

/-! ## There is no other -/

/-- Two numbers that are equally near are both even, and then there is a number between them. -/
theorem IsNearest.not_lt (h : Canonical m e) (hnearest : IsNearest v m e) (h' : Canonical m' e')
    (hnearest' : IsNearest v m' e') : ¬ (m : ℚ) * 2 ^ e < m' * 2 ^ e' := by
  intro hlt
  have htie : |(m' : ℚ) * 2 ^ e' - v| = |(m : ℚ) * 2 ^ e - v| :=
    le_antisymm (hnearest'.closest h) (hnearest.closest h')
  have heven : Even m := hnearest.even h' hlt.ne' htie
  have heven' : Even m' := hnearest'.even h hlt.ne htie.symm
  have hpower : (0 : ℚ) < 2 ^ e := zpow_pos two_pos e
  have hnext : Canonical (m + 1) e := by
    obtain ⟨hlower, hupper, hbounded, hleading⟩ := h
    -- the largest significand is odd, so there is room for one more
    have hroom : m + 1 < 0x20000000000000 := by
      obtain ⟨j, hj⟩ := heven
      omega
    exact ⟨hlower, hupper, hroom, by omega⟩
  have hmore : (m : ℚ) * 2 ^ e < (m + 1 : ℕ) * 2 ^ e := by
    push_cast
    linarith
  -- a number between the two would be nearer than both
  have hle : (m' : ℚ) * 2 ^ e' ≤ (m + 1 : ℕ) * 2 ^ e := by
    by_contra hbetween
    have hcloser : |((m + 1 : ℕ) : ℚ) * 2 ^ e - v| < |(m : ℚ) * 2 ^ e - v| := by grind
    exact absurd (hnearest.closest hnext) (not_le.mpr hcloser)
  have hplace : e ≤ e' := by
    by_contra hfine
    have hlow := h'.value_lt (not_le.mp hfine)
    have hleading : (2 : ℚ) ^ 52 ≤ m := by
      have hnat : 2 ^ 52 ≤ m := h.leading.resolve_right (by have := h'.lower; omega)
      exact_mod_cast hnat
    have hover : (2 : ℚ) ^ 52 * 2 ^ e ≤ m * 2 ^ e := mul_le_mul_of_nonneg_right hleading hpower.le
    linarith
  obtain ⟨k, hk, hkeven⟩ := exists_multiple hplace m'
  rw [hk] at hlt hle
  have hlower : m < k := by exact_mod_cast lt_of_mul_lt_mul_right hlt hpower.le
  have hupper : k ≤ m + 1 := by exact_mod_cast le_of_mul_le_mul_right hle hpower
  -- the number next to an even one is odd
  obtain rfl : k = m + 1 := by omega
  exact (Nat.even_add_one.mp (hkeven heven')) heven

theorem IsRounded.unique (hx : IsRounded negative v x) (hy : IsRounded negative v y) : x = y := by
  cases hx with
  | infinite h =>
    cases hy with
    | infinite _ => rfl
    | finite h' => exact absurd h (not_le.mpr h')
  | @finite _ m e h hparts hnearest =>
    cases hy with
    | infinite h' => exact absurd h' (not_le.mpr h)
    | @finite _ m' e' h' hparts' hnearest' =>
      have hcanonical := canonical_of_parts hparts
      have hcanonical' := canonical_of_parts hparts'
      have hvalue : (m : ℚ) * 2 ^ e = m' * 2 ^ e' :=
        le_antisymm (not_lt.mp (hnearest'.not_lt hcanonical' hcanonical hnearest))
          (not_lt.mp (hnearest.not_lt hcanonical hcanonical' hnearest'))
      obtain ⟨rfl, rfl⟩ := hcanonical.value_inj hcanonical' hvalue
      rw [← ofMagnitudeBits_of_parts hparts, ofMagnitudeBits_of_parts hparts']

end Redex.Number

namespace Redex.Numeral

/-- A numeral is read as the correctly rounded number of its value. -/
theorem toNumber_isRounded (n : Numeral) : Number.IsRounded n.negative n.value n.toNumber := by
  rw [n.toNumber_eq n.value.den_pos n.value_eq_div]
  conv => arg 2; rw [n.value_eq_div]
  exact Number.ofRatio_isRounded n.negative _ n.value.den_pos

end Redex.Numeral
