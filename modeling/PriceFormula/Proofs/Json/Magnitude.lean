import PriceFormula.Json.Magnitude
import PriceFormula.Proofs.Number.Range
import PriceFormula.Proofs.Number.Reading

/-! Magnitudes of short numbers are exact. Digits and power of ten are floats then, and one quotient
or product rounds once. Longer numbers are scaled from a part of their digits, which never stands
for more than the number, so that a magnitude is missing only close to the largest float. -/

namespace PriceFormula.Json

private theorem le_ofDigitChars (n : ℕ) (ds : List Char) : n ≤ Nat.ofDigitChars 10 ds n := by
  rw [Nat.ofDigitChars_eq_ofDigitChars_zero]
  exact (Nat.le_mul_of_pos_left n (by positivity)).trans (Nat.le_add_right _ _)

private theorem ofDigitChars_mono {m n : ℕ} (h : m ≤ n) (ds : List Char) :
    Nat.ofDigitChars 10 ds m ≤ Nat.ofDigitChars 10 ds n := by
  have hfrom (k : ℕ) : Nat.ofDigitChars 10 ds k = 10 ^ ds.length * k + Nat.ofDigitChars 10 ds 0 :=
    Nat.ofDigitChars_eq_ofDigitChars_zero
  rw [hfrom m, hfrom n]
  gcongr

private theorem appendDigits_of_fits {n : ℕ} {ds : List Char}
    (h : Nat.ofDigitChars 10 ds n < 2 ^ 64) :
    appendDigits n ds = (Nat.ofDigitChars 10 ds n, ds.length) := by
  induction ds generalizing n with
  | nil => rw [appendDigits, Nat.ofDigitChars_nil, List.length_nil]
  | cons c ds ih =>
    rw [Nat.ofDigitChars_cons] at h ⊢
    have hfits : 10 * n + (c.toNat - '0'.toNat) < 1 <<< 64 := by
      rw [Nat.shiftLeft_eq, Nat.one_mul]
      exact (le_ofDigitChars _ ds).trans_lt h
    rw [appendDigits]
    simp only
    rw [if_pos hfits, ih h, List.length_cons]

/-- Where all digits fit, the magnitude is that of the decimal. -/
theorem magnitude?_of_fits {whole fraction : List Char} {power : ℤ}
    (h : (Decimal.ofRuns whole fraction power).digits < 2 ^ 64) :
    magnitude? whole fraction power =
      scaled? (Decimal.ofRuns whole fraction power).digits
        (Decimal.ofRuns whole fraction power).exponent := by
  simp only [Decimal.ofRuns, Nat.ofDigitChars_append] at h ⊢
  rw [magnitude?, appendDigits_of_fits ((le_ofDigitChars _ fraction).trans_lt h)]
  simp only
  rw [appendDigits_of_fits h, Nat.sub_self, Nat.cast_zero, Int.add_zero]

/-- What stands for the digits `ds` behind a number `n`: a number `m` of sixty-four bits with the
first `k` of them. If digits are left, the whole number has more than sixty-four bits. -/
private structure Appended (n : ℕ) (ds : List Char) (m k : ℕ) : Prop where
  lt : m < 2 ^ 64
  le_length : k ≤ ds.length
  le : m * 10 ^ (ds.length - k) ≤ Nat.ofDigitChars 10 ds n
  left : k < ds.length → 2 ^ 64 * 10 ^ (ds.length - k) ≤ 10 * Nat.ofDigitChars 10 ds n
  eq_of_none : k = 0 → m = n

private theorem mul_le_ofDigitChars (n : ℕ) (ds : List Char) :
    n * 10 ^ ds.length ≤ Nat.ofDigitChars 10 ds n := by
  rw [Nat.ofDigitChars_eq_ofDigitChars_zero, Nat.mul_comm]
  exact Nat.le_add_right _ _

private theorem appended_appendDigits {n : ℕ} (hn : n < 2 ^ 64) (ds : List Char) :
    Appended n ds (appendDigits n ds).1 (appendDigits n ds).2 := by
  induction ds generalizing n with
  | nil => exact ⟨hn, le_refl _, (Nat.mul_one n).le, fun h => absurd h (lt_irrefl _), fun _ => rfl⟩
  | cons c ds ih =>
    rw [appendDigits]
    simp only
    split
    · rename_i hfits
      rw [Nat.shiftLeft_eq, Nat.one_mul] at hfits
      have h := ih hfits
      refine ⟨h.lt, Nat.succ_le_succ h.le_length, ?_, fun hleft => ?_, fun h => absurd h (by simp)⟩
      · rw [List.length_cons, Nat.add_sub_add_right, Nat.ofDigitChars_cons]
        exact h.le
      · rw [List.length_cons, Nat.add_sub_add_right, Nat.ofDigitChars_cons]
        exact h.left (Nat.lt_of_succ_lt_succ hleft)
    · rename_i hbeyond
      rw [Nat.shiftLeft_eq, Nat.one_mul, Nat.not_lt] at hbeyond
      refine ⟨hn, Nat.zero_le _, mul_le_ofDigitChars n _, fun _ => ?_, fun _ => rfl⟩
      rw [List.length_cons, Nat.sub_zero, Nat.ofDigitChars_cons, Nat.pow_succ]
      calc 2 ^ 64 * (10 ^ ds.length * 10) = 10 * (2 ^ 64 * 10 ^ ds.length) := by ring
        _ ≤ 10 * ((10 * n + (c.toNat - '0'.toNat)) * 10 ^ ds.length) := by gcongr
        _ ≤ 10 * Nat.ofDigitChars 10 ds (10 * n + (c.toNat - '0'.toNat)) := by
          gcongr
          exact mul_le_ofDigitChars _ ds

/-- The digits taken of both runs stand for at most the number. A whole digit that is left makes
room for one digit of the fraction at most. -/
private theorem Appended.mul_le {whole fraction : List Char} {m₁ k₁ m₂ k₂ : ℕ}
    (h₁ : Appended 0 whole m₁ k₁) (h₂ : Appended m₁ fraction m₂ k₂) :
    m₂ * 10 ^ (fraction.length - k₂) * 10 ^ (whole.length - k₁) ≤
      Nat.ofDigitChars 10 (whole ++ fraction) 0 := by
  have hwhole := mul_le_ofDigitChars (Nat.ofDigitChars 10 whole 0) fraction
  rw [Nat.ofDigitChars_append]
  rcases Nat.lt_or_eq_of_le h₁.le_length with hleft | hall
  · rcases Nat.eq_zero_or_pos k₂ with hnone | hsome
    · rw [h₂.eq_of_none hnone, hnone, Nat.sub_zero]
      calc m₁ * 10 ^ fraction.length * 10 ^ (whole.length - k₁)
          = m₁ * 10 ^ (whole.length - k₁) * 10 ^ fraction.length := by ring
        _ ≤ Nat.ofDigitChars 10 whole 0 * 10 ^ fraction.length := Nat.mul_le_mul_right _ h₁.le
        _ ≤ _ := hwhole
    · have hplaces := h₂.le_length
      calc m₂ * 10 ^ (fraction.length - k₂) * 10 ^ (whole.length - k₁)
          ≤ 2 ^ 64 * 10 ^ (fraction.length - k₂) * 10 ^ (whole.length - k₁) := by
            gcongr
            exact h₂.lt.le
        _ = 2 ^ 64 * 10 ^ (whole.length - k₁) * 10 ^ (fraction.length - k₂) := by ring
        _ ≤ 10 * Nat.ofDigitChars 10 whole 0 * 10 ^ (fraction.length - k₂) :=
            Nat.mul_le_mul_right _ (h₁.left hleft)
        _ = Nat.ofDigitChars 10 whole 0 * 10 ^ (fraction.length - k₂ + 1) := by ring
        _ ≤ Nat.ofDigitChars 10 whole 0 * 10 ^ fraction.length :=
            Nat.mul_le_mul_left _ (Nat.pow_le_pow_right (by decide) (by omega))
        _ ≤ _ := hwhole
  · have hle := h₁.le
    rw [hall, Nat.sub_self, Nat.pow_zero, Nat.mul_one] at hle ⊢
    exact h₂.le.trans (ofDigitChars_mono hle fraction)

private theorem exists_scaled_magnitude? (whole fraction : List Char) (power : ℤ) :
    ∃ m e, m < 2 ^ 64 ∧ magnitude? whole fraction power = scaled? m e ∧
      (m : ℚ) * 10 ^ e ≤ (Decimal.ofRuns whole fraction power).magnitude := by
  have h₁ := appended_appendDigits (n := 0) (by decide) whole
  have h₂ := appended_appendDigits h₁.lt fraction
  refine ⟨_, _, h₂.lt, rfl, ?_⟩
  have hexponent : power + ((whole.length - (appendDigits 0 whole).2 : ℕ) : ℤ) -
      ((appendDigits (appendDigits 0 whole).1 fraction).2 : ℤ) =
      ((fraction.length - (appendDigits (appendDigits 0 whole).1 fraction).2 : ℕ) : ℤ) +
        ((whole.length - (appendDigits 0 whole).2 : ℕ) : ℤ) + (power - fraction.length) := by
    have := h₂.le_length
    omega
  have hle : (((appendDigits (appendDigits 0 whole).1 fraction).1 *
      10 ^ (fraction.length - (appendDigits (appendDigits 0 whole).1 fraction).2) *
      10 ^ (whole.length - (appendDigits 0 whole).2) : ℕ) : ℚ) ≤
        Nat.ofDigitChars 10 (whole ++ fraction) 0 :=
    Nat.cast_le.mpr (h₁.mul_le h₂)
  push_cast at hle
  rw [hexponent, zpow_add₀ (by norm_num), zpow_add₀ (by norm_num), zpow_natCast, zpow_natCast,
    ← mul_assoc, ← mul_assoc, Decimal.magnitude, Decimal.ofRuns]
  gcongr

section Scaled
open Float.Model UnpackedFloat Number

private theorem exists_parts_ofNat {m : ℕ} (hm : 0 < m) (hlt : m < 2 ^ 53) :
    ∃ M e, ∃ hM : 0 < M, parts (Float.ofNat m) = .finite .positive M e hM ∧ (M : ℚ) * 2 ^ e = m := by
  obtain ⟨M, e, hc, he, hM, hvalue⟩ := exists_canonical_natCast hm hlt
  have hfloat : Float.ofNat m = packed (.finite .positive M e hM) := by
    rw [ofNat_eq_packed hm, ← hvalue, rounded_canonical hc _ hM]
  exact ⟨M, e, hM, by rw [hfloat, parts_packed hc he], hvalue⟩

private theorem floatPower_eq_packed (k : ℕ) :
    floatPower k = packed (rounded .positive (10 ^ k)) := by
  have hmagnitude : (Decimal.mk false 1 k).magnitude = 10 ^ k := by
    rw [Decimal.magnitude, Nat.cast_one, one_mul, zpow_natCast]
  have hfloat := Decimal.toFloat_eq_packed (d := ⟨false, 1, k⟩) rfl
    (Decimal.magnitude_pos.mpr Nat.one_pos)
  rw [hmagnitude] at hfloat
  rw [← hfloat]
  exact congrArg (Float.ofScientific 1 · _) (decide_eq_false (by simp)).symm

private theorem exists_parts_floatPower {k : ℕ} (hk : k ≤ 22) :
    ∃ P e, ∃ hP : 0 < P, parts (floatPower k) = .finite .positive P e hP ∧
      (P : ℚ) * 2 ^ e = 10 ^ k := by
  obtain ⟨P, e, hP, hparts, hvalue⟩ :=
    exists_parts_of_isWhole (powersOfTen_whole ⟨k, Nat.lt_succ_of_le hk⟩)
  obtain ⟨hc, he⟩ := canonical_of_parts hparts
  push_cast at hvalue
  have hfloat : floatPower k = packed (.finite .positive P e hP) := by
    rw [floatPower_eq_packed, ← hvalue, rounded_canonical hc _ hP]
  exact ⟨P, e, hP, by rw [hfloat, parts_packed hc he], hvalue⟩

/-- Short digits with a small power of ten give the nearest float. -/
theorem scaled?_of_short {m : ℕ} {e : ℤ} (hm : 0 < m) (hlt : m < 2 ^ 53) (he : e.natAbs ≤ 22) :
    scaled? m e = some (Decimal.mk false m e).toFloat := by
  obtain ⟨M, f, hM, hdigits, hm'⟩ := exists_parts_ofNat hm hlt
  obtain ⟨P, g, hP, hpower, hten⟩ := exists_parts_floatPower he
  have hpos : 0 < (Decimal.mk false m e).magnitude := Decimal.magnitude_pos.mpr hm
  have hmost : e.natAbs ≤ mostExponent := he.trans (by decide)
  rw [Decimal.toFloat_eq_packed rfl hpos, Decimal.magnitude]
  unfold scaled?
  simp only
  by_cases hnonneg : 0 ≤ e
  · obtain ⟨k, rfl⟩ := Int.eq_ofNat_of_zero_le hnonneg
    have hsmall : (m : ℚ) * 10 ^ k < overflowThreshold := by
      have hk : k ≤ 22 := he
      have hnat : m * 10 ^ k < 2 ^ 200 := calc
        m * 10 ^ k < 2 ^ 53 * 10 ^ 22 :=
          Nat.mul_lt_mul_of_lt_of_le hlt (Nat.pow_le_pow_right (by norm_num) hk) (by positivity)
        _ ≤ 2 ^ 200 := by norm_num
      calc (m : ℚ) * 10 ^ k < 2 ^ (200 : ℤ) := by exact_mod_cast hnat
        _ ≤ overflowThreshold := two_zpow_le_overflowThreshold (by decide)
    rw [if_pos hnonneg, if_pos hmost, mul_eq_packed hdigits hpower, hm', hten, zpow_natCast]
    exact Option.filter_some_pos (isFinite_packed_rounded (by positivity) hsmall _)
  · obtain ⟨k, hk⟩ := Int.eq_ofNat_of_zero_le (by omega : 0 ≤ -e)
    obtain rfl : e = -k := by omega
    rw [if_neg hnonneg, if_pos hmost, div_eq_packed hdigits hpower, hm', hten, Int.natAbs_neg,
      Int.natAbs_natCast, zpow_neg, zpow_natCast, ← div_eq_mul_inv]
    rfl

/-- Two units below the threshold. A number up to the limit stays finite however it is scaled. -/
def scaleLimit : ℚ := (2 ^ 53 - 5 / 2) * 2 ^ mostBinaryExponent

private theorem scaleLimit_lt : scaleLimit < 10 ^ (mostExponent + 1) := by
  have hnat : 2 ^ 53 * 2 ^ 971 < 10 ^ (mostExponent + 1) := by decide +kernel
  calc scaleLimit ≤ ((2 ^ 53 : ℕ) : ℚ) * 2 ^ mostBinaryExponent := by
        unfold scaleLimit
        gcongr
        norm_num
    _ = ((2 ^ 53 * 2 ^ 971 : ℕ) : ℚ) := by rw [two_zpow_mostBinaryExponent, Nat.cast_mul]
    _ < ((10 ^ (mostExponent + 1) : ℕ) : ℚ) := Nat.cast_lt.mpr hnat
    _ = 10 ^ (mostExponent + 1) := by rw [Nat.cast_pow, Nat.cast_ofNat]

private theorem ten_pow_lt_overflowThreshold {k : ℕ} (hk : k ≤ mostExponent) :
    10 ^ k < overflowThreshold := by
  have hnat : 10 ^ mostExponent < (2 ^ 53 - 1) * 2 ^ 971 := by decide +kernel
  calc (10 : ℚ) ^ k ≤ 10 ^ mostExponent := pow_le_pow_right₀ (by norm_num) hk
    _ = ((10 ^ mostExponent : ℕ) : ℚ) := by rw [Nat.cast_pow, Nat.cast_ofNat]
    _ < (((2 ^ 53 - 1) * 2 ^ 971 : ℕ) : ℚ) := Nat.cast_lt.mpr hnat
    _ ≤ overflowThreshold := by
      rw [overflowThreshold, two_zpow_mostBinaryExponent, Nat.cast_mul]
      gcongr
      norm_num

private theorem exists_parts_floatPower_le {k : ℕ} (hk : k ≤ mostExponent) :
    ∃ P e, ∃ hP : 0 < P, parts (floatPower k) = .finite .positive P e hP ∧
      (P : ℚ) * 2 ^ e ≤ 10 ^ k * (1 + 1 / 2 ^ 53) := by
  rw [floatPower_eq_packed]
  exact exists_parts_packed_rounded (one_le_pow₀ (by norm_num)) (ten_pow_lt_overflowThreshold hk) _

/-- Up to the limit the product with a power of ten is finite: each of its two factors is rounded up
by a part in `2 ^ 53` at most. -/
theorem isFinite_scaled {m k : ℕ} (hpos : 0 < m) (hm : m < 2 ^ 64) (hk : k ≤ mostExponent)
    (h : (m : ℚ) * 10 ^ k ≤ scaleLimit) : (Float.ofNat m * floatPower k).isFinite = true := by
  have hdigits : (m : ℚ) < overflowThreshold := calc
    (m : ℚ) < 2 ^ (64 : ℤ) := by exact_mod_cast hm
    _ ≤ overflowThreshold := two_zpow_le_overflowThreshold (by decide)
  obtain ⟨M, e, hM, hdigitParts, hdigit⟩ :=
    exists_parts_packed_rounded (by exact_mod_cast hpos) hdigits .positive
  obtain ⟨P, f, hP, hpowerParts, hpower⟩ := exists_parts_floatPower_le hk
  rw [← ofNat_eq_packed hpos] at hdigitParts
  rw [mul_eq_packed hdigitParts hpowerParts]
  refine isFinite_packed_rounded (by positivity) ?_ _
  calc (M : ℚ) * 2 ^ e * (P * 2 ^ f)
      ≤ m * (1 + 1 / 2 ^ 53) * (10 ^ k * (1 + 1 / 2 ^ 53)) := by gcongr
    _ = m * 10 ^ k * (1 + 1 / 2 ^ 53) ^ 2 := by ring
    _ ≤ scaleLimit * (1 + 1 / 2 ^ 53) ^ 2 := by gcongr
    _ = (2 ^ 53 - 5 / 2) * (1 + 1 / 2 ^ 53) ^ 2 * 2 ^ mostBinaryExponent := by
      rw [scaleLimit]
      ring
    _ < overflowThreshold := by
      unfold overflowThreshold
      gcongr
      norm_num

private theorem isFinite_zero_scaled {k : ℕ} (hk : k ≤ mostExponent) :
    (Float.ofNat 0 * floatPower k).isFinite = true := by
  have hfloat : Float.ofNat 0 = packed (.zero .positive) := Decimal.toFloat_zero 0
  have hzero : parts (Float.ofNat 0) = .zero .positive := by
    rw [hfloat]
    rfl
  obtain ⟨P, f, hP, hpower, -⟩ := exists_parts_floatPower_le hk
  have hproduct : Float.ofNat 0 * floatPower k = packed (UnpackedFloat.mul Format.binary64
      (parts (Float.ofNat 0)) (parts (floatPower k))) := rfl
  have hmul : UnpackedFloat.mul Format.binary64 (.zero .positive) (.finite .positive P f hP) =
      .zero .positive := rfl
  rw [hproduct, hzero, hpower, hmul]
  rfl

/-- What is within the limit can be scaled. -/
theorem isSome_scaled? {m : ℕ} {e : ℤ} (hm : m < 2 ^ 64) (h : (m : ℚ) * 10 ^ e ≤ scaleLimit) :
    (scaled? m e).isSome = true := by
  unfold scaled?
  simp only
  by_cases hnonneg : 0 ≤ e
  · obtain ⟨k, rfl⟩ := Int.eq_ofNat_of_zero_le hnonneg
    rw [zpow_natCast] at h
    rw [if_pos hnonneg, Int.natAbs_natCast]
    rcases Nat.eq_zero_or_pos m with rfl | hpos
    · split
      · rename_i hk
        rw [Option.filter_some_pos (isFinite_zero_scaled hk)]
        rfl
      · rfl
    · have hone : (1 : ℚ) ≤ m := by exact_mod_cast hpos
      have hk : k ≤ mostExponent := by
        by_contra hlarge
        have hpower : (10 : ℚ) ^ (mostExponent + 1) ≤ m * 10 ^ k := calc
          (10 : ℚ) ^ (mostExponent + 1) ≤ 10 ^ k := pow_le_pow_right₀ (by norm_num) (by omega)
          _ ≤ m * 10 ^ k := le_mul_of_one_le_left (by positivity) hone
        exact absurd (hpower.trans h) scaleLimit_lt.not_ge
      rw [if_pos hk, Option.filter_some_pos (isFinite_scaled hpos hm hk h)]
      rfl
  · rw [if_neg hnonneg]
    split
    · rfl
    · split <;> rfl

/-- What is scaled is finite: a product that is not is refused, and no power of ten that divides
lies below one. -/
private theorem isFinite_of_scaled? {m : ℕ} (hm : m < 2 ^ 64) {e : ℤ} {x : Float}
    (h : scaled? m e = some x) : x.isFinite = true := by
  have hdigits : (Float.ofNat m).isFinite = true := isFinite_ofNat hm.le
  have hdiv {k : ℕ} (hk : k ≤ mostExponent) {y : Float} (hy : y.isFinite = true) :
      (y / floatPower k).isFinite = true := by
    obtain ⟨P, f, hP, hpower, -⟩ := exists_parts_floatPower_le hk
    have hparts := hpower
    rw [floatPower_eq_packed] at hparts
    exact isFinite_div hy hpower
      (one_le_of_parts_packed_rounded (one_le_pow₀ (by norm_num)) hparts)
  unfold scaled? at h
  simp only at h
  split at h
  · split at h
    · exact (Option.filter_eq_some_iff.mp h).2
    · split at h
      · obtain rfl := Option.some.inj h
        rfl
      · cases h
  · split at h
    · rename_i hk
      obtain rfl := Option.some.inj h
      exact hdiv hk hdigits
    · split at h
      · obtain rfl := Option.some.inj h
        exact hdiv (by omega) (hdiv le_rfl hdigits)
      · obtain rfl := Option.some.inj h
        rfl

/-- Every magnitude is finite. -/
theorem isFinite_of_magnitude? {whole fraction : List Char} {power : ℤ} {x : Float}
    (h : magnitude? whole fraction power = some x) : x.isFinite = true := by
  obtain ⟨m, e, hm, hscaled, -⟩ := exists_scaled_magnitude? whole fraction power
  exact isFinite_of_scaled? hm (hscaled.symm.trans h)

/-- A number within the limit has a magnitude. -/
theorem isSome_magnitude? {whole fraction : List Char} {power : ℤ}
    (h : (Decimal.ofRuns whole fraction power).magnitude ≤ scaleLimit) :
    (magnitude? whole fraction power).isSome = true := by
  obtain ⟨m, e, hm, hscaled, hle⟩ := exists_scaled_magnitude? whole fraction power
  rw [hscaled]
  exact isSome_scaled? hm (hle.trans h)

end Scaled
end PriceFormula.Json
