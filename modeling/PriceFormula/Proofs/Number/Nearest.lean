import Mathlib

/-! Rounding of a positive number to a float. A mantissa with two further bits stands for the number
it was cut from, so that rounding depends on the number alone and not on how it was computed. -/

namespace PriceFormula.Number

open Float.Model UnpackedFloat

/-- A nonnegative number cut to its integer part, with the two bits that rounding looks at. -/
def extended (x : ℚ) : ExtendedMantissa where
  mantissa := ⌊x⌋₊
  roundBit := ⌊2 * x⌋₊ % 2 != 0
  stickyBit := (⌊2 * x⌋₊ : ℚ) ≠ 2 * x

theorem extended_natCast (m : ℕ) : extended m = ⟨m, false, false⟩ := by
  have hdouble : ⌊2 * (m : ℚ)⌋₊ = 2 * m := by
    rw [← Nat.cast_ofNat, ← Nat.cast_mul, Nat.floor_natCast]
  simp [extended, hdouble]

private theorem floor_eq_iff_double {x : ℚ} :
    (⌊x⌋₊ : ℚ) = x ↔ ⌊2 * x⌋₊ % 2 = 0 ∧ (⌊2 * x⌋₊ : ℚ) = 2 * x := by
  constructor
  · intro h
    have hdouble : ⌊2 * x⌋₊ = 2 * ⌊x⌋₊ := by
      rw [← h, Nat.floor_natCast, ← Nat.cast_ofNat, ← Nat.cast_mul, Nat.floor_natCast]
    refine ⟨by omega, ?_⟩
    rw [hdouble, Nat.cast_mul, h, Nat.cast_ofNat]
  · rintro ⟨heven, h⟩
    obtain ⟨k, hk⟩ := Nat.dvd_of_mod_eq_zero heven
    have hx : x = k := by
      rw [hk, Nat.cast_mul, Nat.cast_ofNat] at h
      linarith
    rw [hx, Nat.floor_natCast]

private theorem shiftRightOne_extended (x : ℚ) : (extended x).shiftRightOne = extended (x / 2) := by
  have hhalf : 2 * (x / 2) = x := by ring
  unfold ExtendedMantissa.shiftRightOne extended
  rw [hhalf, ExtendedMantissa.mk.injEq]
  refine ⟨(Nat.floor_div_ofNat x 2).symm, rfl, ?_⟩
  rw [Bool.eq_iff_iff]
  simp only [Bool.or_eq_true, bne_iff_ne, decide_eq_true_eq]
  rw [ne_eq, ne_eq, ne_eq, floor_eq_iff_double (x := x), not_and_or]

private theorem shiftRight_extended (x : ℚ) (n : ℕ) :
    extended x >>> n = extended (x / 2 ^ n) := by
  change n.repeat ExtendedMantissa.shiftRightOne (extended x) = _
  induction n with
  | zero => rw [Nat.repeat, pow_zero, div_one]
  | succ n ih =>
    rw [Nat.repeat, ih, shiftRightOne_extended, pow_succ, div_div]

theorem ofMantissaAndAccuracy_exact (m : ℕ) :
    ExtendedMantissa.ofMantissaAndAccuracy m .exact = extended m :=
  (extended_natCast m).symm

/-- The bits of a fraction, from quotient and remainder. -/
theorem extended_div (k : ℕ) {r b : ℕ} (hr : r < b) :
    extended ((b * k + r : ℕ) / b) = ⟨k, decide (b ≤ 2 * r), decide (r ≠ 0 ∧ 2 * r ≠ b)⟩ := by
  have hb : 0 < b := Nat.zero_lt_of_lt hr
  have hb' : (b : ℚ) ≠ 0 := by positivity
  have hfloor : ⌊((b * k + r : ℕ) : ℚ) / b⌋₊ = k := by
    rw [Nat.floor_div_eq_div, Nat.mul_add_div hb, Nat.div_eq_of_lt hr, Nat.add_zero]
  have hdouble : ⌊2 * (((b * k + r : ℕ) : ℚ) / b)⌋₊ = 2 * k + 2 * r / b := by
    have hnum : 2 * (b * k + r) = b * (2 * k) + 2 * r := by ring
    rw [← mul_div_assoc, ← Nat.cast_ofNat, ← Nat.cast_mul, Nat.floor_div_eq_div, hnum,
      Nat.mul_add_div hb]
  have hsticky (d : ℕ) :
      ((2 * k + d : ℕ) : ℚ) ≠ 2 * (((b * k + r : ℕ) : ℚ) / b) ↔ d * b ≠ 2 * r := by
    rw [← mul_div_assoc, ne_eq, eq_div_iff hb']
    norm_cast
    have hleft : (2 * k + d) * b = 2 * (b * k) + d * b := by ring
    rw [hleft, Nat.mul_add, Nat.add_left_cancel_iff]
  unfold extended
  rw [hfloor, hdouble, ExtendedMantissa.mk.injEq]
  refine ⟨rfl, ?_⟩
  simp only [hsticky]
  rcases Nat.lt_or_ge (2 * r) b with hlow | hhigh
  · rw [Nat.div_eq_of_lt hlow]
    exact ⟨by simp; omega, decide_eq_decide.mpr (by omega)⟩
  · have hone : 2 * r / b = 1 := Nat.div_eq_of_lt_le (by omega) (by omega)
    rw [hone]
    exact ⟨by simp; omega, decide_eq_decide.mpr (by omega)⟩

/-- The quotient with the accuracy of its remainder is cut from the fraction. -/
theorem ofMantissaAndAccuracy_fraction (a : ℕ) {b : ℕ} (hb : 0 < b) :
    ExtendedMantissa.ofMantissaAndAccuracy (a / b) (accuracyOfFraction (a % b) b) =
      extended (a / b) := by
  have hbits := extended_div (a / b) (Nat.mod_lt a hb)
  rw [Nat.div_add_mod] at hbits
  rw [hbits]
  unfold accuracyOfFraction
  by_cases hzero : a % b = 0
  · rw [if_pos hzero, hzero]
    simp [ExtendedMantissa.ofMantissaAndAccuracy, hb.ne']
  · rw [if_neg hzero]
    rcases Nat.lt_trichotomy (2 * (a % b)) b with hlt | heq | hgt
    · rw [Nat.compare_eq_lt.mpr hlt]
      simp [ExtendedMantissa.ofMantissaAndAccuracy, hzero]
      omega
    · rw [Nat.compare_eq_eq.mpr heq]
      simp [ExtendedMantissa.ofMantissaAndAccuracy, heq]
    · rw [Nat.compare_eq_gt.mpr hgt]
      simp [ExtendedMantissa.ofMantissaAndAccuracy, hzero]
      omega

def exponentOf (q : ℚ) : ℤ := max (Int.log 2 q - 52) (-1074)

def mantissaOf (q : ℚ) : ℕ := (extended (q / 2 ^ exponentOf q)).roundedMantissa

/-- The float nearest to a positive number, with a sign. Overflow is left to packing. -/
def rounded (s : Sign) (q : ℚ) : UnpackedFloat :=
  if h : mantissaOf q = 0 then .zero s
  else if mantissaOf q = 2 ^ 53 then .finite s (2 ^ 52) (exponentOf q + 1) (by decide)
  else .finite s (mantissaOf q) (exponentOf q) (Nat.pos_of_ne_zero h)

theorem targetExponent_eq (t : ℤ) : Format.binary64.targetExponent t = max (t - 53) (-1074) := rfl

theorem log_eq {q : ℚ} {n : ℤ} (hlow : (2 : ℚ) ^ n ≤ q) (hhigh : q < 2 ^ (n + 1)) :
    Int.log 2 q = n := by
  have hq : 0 < q := lt_of_lt_of_le (by positivity) hlow
  have h₁ : n ≤ Int.log 2 q := (Int.zpow_le_iff_le_log (by decide) hq).mp (by exact_mod_cast hlow)
  have h₂ : Int.log 2 q < n + 1 :=
    (Int.lt_zpow_iff_log_lt (by decide) hq).mp (by exact_mod_cast hhigh)
  omega

/-- The leading bit of a number, from that of its integer part over a power of two. -/
theorem log_eq_log2_add {q : ℚ} {m : ℕ} {e : ℤ} (hm : m ≠ 0) (hlow : (m : ℚ) ≤ q / 2 ^ e)
    (hhigh : q / 2 ^ e < m + 1) : Int.log 2 q = m.log2 + e := by
  have he : (0 : ℚ) < 2 ^ e := by positivity
  have hlow' : ((2 ^ m.log2 : ℕ) : ℚ) ≤ m := by exact_mod_cast (Nat.le_log2 hm).mp le_rfl
  have hhigh' : (m : ℚ) + 1 ≤ ((2 ^ (m.log2 + 1) : ℕ) : ℚ) := by
    exact_mod_cast (Nat.log2_lt hm).mp (Nat.lt_succ_self _)
  push_cast at hlow' hhigh'
  apply log_eq
  · rw [zpow_add₀ two_ne_zero, zpow_natCast, ← le_div_iff₀ he]
    exact hlow'.trans hlow
  · have hsum : (m.log2 : ℤ) + e + 1 = (m.log2 + 1 : ℕ) + e := by push_cast; ring
    rw [hsum, zpow_add₀ two_ne_zero, zpow_natCast, ← div_lt_iff₀ he]
    exact hhigh.trans_le hhigh'

private theorem div_exponentOf_lt (q : ℚ) : q / 2 ^ exponentOf q < 2 ^ 53 := by
  have hlog := Int.lt_zpow_succ_log_self (b := 2) (by decide) q
  rw [div_lt_iff₀ (by positivity), ← zpow_natCast, ← zpow_add₀ two_ne_zero]
  refine hlog.trans_le (zpow_le_zpow_right₀ (by norm_num) ?_)
  unfold exponentOf
  push_cast
  omega

/-- A number that is not subnormal fills the mantissa. -/
theorem le_div_exponentOf {q : ℚ} (hq : 0 < q) (he : exponentOf q ≠ -1074) :
    2 ^ 52 ≤ q / 2 ^ exponentOf q := by
  have hlog := Int.zpow_log_le_self (b := 2) (by decide) hq
  rw [le_div_iff₀ (by positivity), ← zpow_natCast, ← zpow_add₀ two_ne_zero]
  refine le_trans (zpow_le_zpow_right₀ (by norm_num) ?_) hlog
  unfold exponentOf at he ⊢
  push_cast
  omega

private theorem le_roundedMantissa (em : ExtendedMantissa) : em.mantissa ≤ em.roundedMantissa := by
  obtain ⟨m, r, s⟩ := em
  cases r <;> cases s <;>
    simp [ExtendedMantissa.roundedMantissa, ExtendedMantissa.accuracy, Accuracy.roundToNearestEven]

private theorem roundedMantissa_le (em : ExtendedMantissa) :
    em.roundedMantissa ≤ em.mantissa + 1 := by
  obtain ⟨m, r, s⟩ := em
  cases r <;> cases s <;>
    simp [ExtendedMantissa.roundedMantissa, ExtendedMantissa.accuracy, Accuracy.roundToNearestEven]
  omega

theorem roundedMantissa_low (m : ℕ) (s : Bool) :
    (ExtendedMantissa.mk m false s).roundedMantissa = m := by
  cases s <;>
    simp [ExtendedMantissa.roundedMantissa, ExtendedMantissa.accuracy, Accuracy.roundToNearestEven]

theorem roundedMantissa_high (m : ℕ) :
    (ExtendedMantissa.mk m true true).roundedMantissa = m + 1 := by
  simp [ExtendedMantissa.roundedMantissa, ExtendedMantissa.accuracy, Accuracy.roundToNearestEven]

private theorem abs_roundedMantissa_sub_le {x : ℚ} (hx : 0 ≤ x) :
    |((extended x).roundedMantissa : ℚ) - x| ≤ 1 / 2 := by
  have hlow : (⌊2 * x⌋₊ : ℚ) ≤ 2 * x := Nat.floor_le (by positivity)
  have hhigh : 2 * x < ⌊2 * x⌋₊ + 1 := Nat.lt_floor_add_one _
  have hfloor : ⌊x⌋₊ = ⌊2 * x⌋₊ / 2 := by
    have hdouble := Nat.floor_div_ofNat (2 * x) 2
    rwa [mul_div_cancel_left₀ _ two_ne_zero] at hdouble
  unfold extended
  rw [hfloor, abs_le]
  generalize ⌊2 * x⌋₊ = n at *
  obtain ⟨k, rfl | rfl⟩ := Nat.even_or_odd' n
  · have hk : 2 * k / 2 = k := by omega
    have hbit : (2 * k % 2 != 0) = false := by simp
    rw [hk, hbit, roundedMantissa_low]
    push_cast at hlow hhigh
    constructor <;> linarith
  · have hk : (2 * k + 1) / 2 = k := by omega
    have hbit : ((2 * k + 1) % 2 != 0) = true := by simp
    rw [hk, hbit]
    push_cast at hlow hhigh ⊢
    by_cases htie : 2 * (k : ℚ) + 1 = 2 * x
    · -- a tie moves by one half, whichever way it goes
      have hge : (k : ℚ) ≤ (ExtendedMantissa.mk k true false).roundedMantissa := by
        exact_mod_cast le_roundedMantissa ⟨k, true, false⟩
      have hle : ((ExtendedMantissa.mk k true false).roundedMantissa : ℚ) ≤ k + 1 := by
        exact_mod_cast roundedMantissa_le ⟨k, true, false⟩
      simp only [htie, ne_eq, not_true_eq_false, decide_false]
      constructor <;> linarith
    · simp only [htie, ne_eq, not_false_eq_true, decide_true]
      rw [roundedMantissa_high]
      push_cast
      constructor <;> linarith

theorem mantissaOf_le (q : ℚ) : mantissaOf q ≤ 2 ^ 53 := by
  refine (roundedMantissa_le _).trans (Nat.succ_le_of_lt ?_)
  have := div_exponentOf_lt q
  exact Nat.floor_lt' (by decide) |>.mpr (by exact_mod_cast this)

theorem le_mantissaOf {q : ℚ} (hq : 0 < q) (he : exponentOf q ≠ -1074) : 2 ^ 52 ≤ mantissaOf q := by
  refine le_trans ?_ (le_roundedMantissa _)
  exact Nat.le_floor (by exact_mod_cast le_div_exponentOf hq he)

/-- The mantissa lies within half a unit of the number. -/
theorem abs_mantissaOf_sub_le {q : ℚ} (hq : 0 < q) :
    |(mantissaOf q : ℚ) - q / 2 ^ exponentOf q| ≤ 1 / 2 :=
  abs_roundedMantissa_sub_le (by positivity)

/-- The exponent that rounding aims at is that of the number, whatever part of it the mantissa
holds. Below the least exponent the leading bit does not matter. -/
theorem targetExponent_totalExponent {q : ℚ} (hq : 0 < q) {m : ℕ} {e : ℤ}
    (hlow : (m : ℚ) ≤ q / 2 ^ e) (hhigh : q / 2 ^ e < m + 1) (hm : m = 0 → e ≤ -1074) :
    Format.binary64.targetExponent (totalExponent m e) = exponentOf q := by
  rw [targetExponent_eq, totalExponent, exponentOf]
  by_cases hzero : m = 0
  · have hleast := hm hzero
    subst hzero
    rw [Nat.cast_zero, zero_add, div_lt_one (by positivity)] at hhigh
    have hlog : Int.log 2 q < e :=
      (Int.lt_zpow_iff_log_lt (by decide) hq).mp (by exact_mod_cast hhigh)
    have hlog2 : Nat.log2 0 = 0 := rfl
    omega
  · rw [log_eq_log2_add hzero hlow hhigh]
    congr 1
    ring

/-- The first shift of rounding leaves the mantissa of the number at its exponent. -/
theorem shiftToTargetExponent_eq {q : ℚ} (hq : 0 < q) {m : ℕ} {e : ℤ} {acc : Accuracy}
    (hacc : ExtendedMantissa.ofMantissaAndAccuracy m acc = extended (q / 2 ^ e))
    (he : e ≤ exponentOf q) (hm : m = 0 → e ≤ -1074) :
    shiftToTargetExponent Format.binary64 m e acc =
      (extended (q / 2 ^ exponentOf q), exponentOf q) := by
  have hmantissa : (ExtendedMantissa.ofMantissaAndAccuracy m acc).mantissa = m := by
    cases acc with
    | exact => rfl
    | inexact o => cases o <;> rfl
  have hfloor : ⌊q / 2 ^ e⌋₊ = m := by
    rw [← hmantissa, hacc]
    rfl
  have hlow : (m : ℚ) ≤ q / 2 ^ e := hfloor ▸ Nat.floor_le (by positivity)
  have hhigh : q / 2 ^ e < m + 1 := hfloor ▸ Nat.lt_floor_add_one _
  have htarget := targetExponent_totalExponent hq hlow hhigh hm
  obtain ⟨n, hn⟩ := Int.le.dest he
  have hshift : (exponentOf q - e).toNat = n := by omega
  unfold shiftToTargetExponent shiftToExponent
  simp only [htarget, hshift, hacc, shiftRight_extended]
  rw [← hn, div_div, zpow_add₀ two_ne_zero, zpow_natCast]

private theorem shiftToTargetExponent_carry {m : ℕ} {e : ℤ} (hm : m ≤ 2 ^ 53) (he : -1074 ≤ e) :
    shiftToTargetExponent Format.binary64 m e .exact =
      if m = 2 ^ 53 then (extended (2 ^ 52 : ℕ), e + 1) else (extended m, e) := by
  unfold shiftToTargetExponent shiftToExponent
  rw [targetExponent_eq, totalExponent, ofMantissaAndAccuracy_exact]
  split
  · rename_i hcarry
    subst hcarry
    have hlog : Nat.log2 (2 ^ 53) = 53 := by decide +kernel
    have hshift : (max (((2 ^ 53 : ℕ).log2 : ℤ) + 1 + e - 53) (-1074) - e).toNat = 1 := by
      rw [hlog]
      omega
    simp only [hshift, shiftRight_extended]
    norm_num
  · have hlog : m.log2 ≤ 52 := by
      by_cases hzero : m = 0
      · subst hzero
        decide
      · exact Nat.le_of_lt_succ ((Nat.log2_lt hzero).mpr (by omega))
    have hshift : (max ((m.log2 : ℤ) + 1 + e - 53) (-1074) - e).toNat = 0 := by omega
    simp only [hshift, shiftRight_extended, pow_zero, div_one, Nat.cast_zero, add_zero]

/-- Rounding in the model of floats comes to `rounded`, from every mantissa and accuracy that stand
for the same number, once there are enough bits. -/
theorem roundWithAccuracy_eq {q : ℚ} (hq : 0 < q) (s : Sign) {m : ℕ} {e : ℤ} {acc : Accuracy}
    (hacc : ExtendedMantissa.ofMantissaAndAccuracy m acc = extended (q / 2 ^ e))
    (he : e ≤ exponentOf q) (hm : m = 0 → e ≤ -1074) :
    roundWithAccuracy Format.binary64 s m e acc = rounded s q := by
  have hlow : -1074 ≤ exponentOf q := le_max_right _ _
  unfold roundWithAccuracy
  rw [shiftToTargetExponent_eq hq hacc he hm]
  simp only
  have hround : (extended (q / 2 ^ exponentOf q)).roundedMantissa = mantissaOf q := rfl
  rw [hround]
  unfold rounded
  by_cases hcarry : mantissaOf q = 2 ^ 53
  · have hfloor : (extended (2 ^ 52 : ℕ)).mantissa = 2 ^ 52 := by rw [extended_natCast]
    have hshift := shiftToTargetExponent_carry (mantissaOf_le q) hlow
    rw [if_pos hcarry] at hshift
    simp only [hshift, hfloor]
    rw [dif_neg (by decide), dif_neg (by rw [hcarry]; decide), if_pos hcarry]
  · have hfloor : (extended (mantissaOf q)).mantissa = mantissaOf q := by rw [extended_natCast]
    have hshift := shiftToTargetExponent_carry (mantissaOf_le q) hlow
    rw [if_neg hcarry] at hshift
    simp only [hshift, hfloor, if_neg hcarry]

end PriceFormula.Number
