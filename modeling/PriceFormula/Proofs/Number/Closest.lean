import PriceFormula.Proofs.Number.Value

/-! The float nearest to a number. Rounding gives a float such that no other one is nearer; where
another one is just as near, its mantissa is even. -/

namespace PriceFormula.Number

open Float.Model UnpackedFloat

/-- A float is nearest to a number if no finite float is nearer. Where another one is just as near,
its mantissa is even. -/
structure IsNearest (x : Float) (q : ℚ) : Prop where
  isFinite : x.isFinite = true
  closest : ∀ y : Float, y.isFinite = true → |value x - q| ≤ |value y - q|
  even : ∀ y : Float, y.isFinite = true → value y ≠ value x →
    |value y - q| = |value x - q| → Even (mantissa x)

/-- A tie goes to the even mantissa. -/
theorem even_roundedMantissa {x : ℚ} (hx : 0 ≤ x)
    (htie : |((extended x).roundedMantissa : ℚ) - x| = 1 / 2) :
    Even (extended x).roundedMantissa := by
  have hlow : (⌊2 * x⌋₊ : ℚ) ≤ 2 * x := Nat.floor_le (by positivity)
  have hhigh : 2 * x < ⌊2 * x⌋₊ + 1 := Nat.lt_floor_add_one _
  have hfloor : ⌊x⌋₊ = ⌊2 * x⌋₊ / 2 := by
    have hdouble := Nat.floor_div_ofNat (2 * x) 2
    rwa [mul_div_cancel_left₀ _ two_ne_zero] at hdouble
  unfold extended at htie ⊢
  rw [hfloor] at htie ⊢
  generalize ⌊2 * x⌋₊ = n at *
  obtain ⟨k, rfl | rfl⟩ := Nat.even_or_odd' n
  · have hk : 2 * k / 2 = k := by omega
    have hbit : (2 * k % 2 != 0) = false := by simp
    rw [hk, hbit, roundedMantissa_low] at htie
    push_cast at hlow hhigh
    rw [abs_sub_comm, abs_of_nonneg (by linarith)] at htie
    linarith
  · have hk : (2 * k + 1) / 2 = k := by omega
    have hbit : ((2 * k + 1) % 2 != 0) = true := by simp
    rw [hk, hbit] at htie ⊢
    by_cases hsticky : (((2 * k + 1 : ℕ) : ℚ) ≠ 2 * x)
    · rw [decide_eq_true hsticky, roundedMantissa_high] at htie
      have hlt := lt_of_le_of_ne hlow hsticky
      push_cast at hlt hhigh htie
      rw [abs_of_nonneg (by linarith)] at htie
      linarith
    · rw [decide_eq_false hsticky]
      change Even (k + k % 2)
      rcases Nat.mod_two_eq_zero_or_one k with hmod | hmod
      · rw [hmod]
        exact Nat.even_iff.mpr hmod
      · rw [hmod]
        exact Nat.even_iff.mpr (by omega)

private theorem abs_sub_le_of_half {n : ℤ} {x : ℚ} (h : |(n : ℚ) - x| ≤ 1 / 2) (k : ℤ) :
    |(n : ℚ) - x| ≤ |(k : ℚ) - x| := by
  by_cases hk : k = n
  · rw [hk]
  · have hone : (1 : ℚ) ≤ |(k : ℚ) - n| := by
      exact_mod_cast Int.one_le_abs (sub_ne_zero.mpr hk)
    have htriangle := abs_sub_le (k : ℚ) x n
    rw [abs_sub_comm x] at htriangle
    linarith

section Rounded
variable {q : ℚ}

def roundedValue (q : ℚ) : ℚ := mantissaOf q * 2 ^ exponentOf q

/-- A float is a whole number of units of any rounding, or it lies below a full mantissa of them,
which the rounded number does not. -/
private theorem units_or_below (hq : 0 < q) {y : Float} (hy : y.isFinite = true) :
    (∃ k : ℤ, value y = k * 2 ^ exponentOf q) ∨
      |value y| < 2 ^ 52 * 2 ^ exponentOf q ∧ 2 ^ 52 * 2 ^ exponentOf q ≤ q := by
  rcases finite_cases hy with ⟨s, hparts⟩ | ⟨s, m, e, hm, hparts⟩
  · exact .inl ⟨0, by rw [value_of_zero hparts, Int.cast_zero, zero_mul]⟩
  obtain ⟨hcanonical, -⟩ := canonical_of_parts hparts
  rcases Int.lt_or_le e (exponentOf q) with hlt | hle
  · right
    have hfull := le_div_exponentOf hq (by have := hcanonical.exponent_ge; omega)
    rw [le_div_iff₀ (by positivity)] at hfull
    refine ⟨?_, hfull⟩
    have hm53 : (m : ℚ) < 2 ^ 53 := by exact_mod_cast hcanonical.lt
    rw [abs_value_of_parts hparts]
    calc (m : ℚ) * 2 ^ e < 2 ^ 53 * 2 ^ e := by gcongr
      _ = 2 ^ 52 * 2 ^ (e + 1) := by
        rw [zpow_add_one₀ two_ne_zero]
        ring
      _ ≤ 2 ^ 52 * 2 ^ exponentOf q := by
        gcongr
        · norm_num
        · omega
  · left
    obtain ⟨n, hn⟩ := Int.le.dest hle
    refine ⟨s.apply (m * 2 ^ n), ?_⟩
    rw [value_of_parts hparts, ← hn, zpow_add₀ two_ne_zero, zpow_natCast]
    cases s with
    | negative =>
      simp only [withSign, Sign.apply]
      push_cast
      ring
    | positive =>
      simp only [withSign, Sign.apply]
      push_cast
      ring

private theorem abs_units_sub (q n : ℚ) :
    |n * 2 ^ exponentOf q - q| = |n - q / 2 ^ exponentOf q| * 2 ^ exponentOf q := by
  have hunit : (0 : ℚ) < 2 ^ exponentOf q := by positivity
  rw [← abs_of_pos hunit, ← abs_mul, abs_of_pos hunit, sub_mul, div_mul_cancel₀ _ hunit.ne']

/-- No whole number of units is nearer than the rounding. -/
theorem abs_roundedValue_sub_le (hq : 0 < q) (k : ℤ) :
    |roundedValue q - q| ≤ |(k : ℚ) * 2 ^ exponentOf q - q| := by
  have hclosest : |(mantissaOf q : ℚ) - q / 2 ^ exponentOf q| ≤ |(k : ℚ) - q / 2 ^ exponentOf q| :=
    abs_sub_le_of_half (n := mantissaOf q) (abs_mantissaOf_sub_le hq) k
  rw [roundedValue, abs_units_sub, abs_units_sub]
  exact mul_le_mul_of_nonneg_right hclosest (by positivity)

private theorem abs_roundedValue_sub_lt (hq : 0 < q) {w : ℚ} (hw : |w| < 2 ^ 52 * 2 ^ exponentOf q)
    (hle : 2 ^ 52 * 2 ^ exponentOf q ≤ q) : |roundedValue q - q| < |w - q| := by
  have hfull := abs_roundedValue_sub_le hq (2 ^ 52)
  rw [Int.cast_pow, Int.cast_ofNat] at hfull
  calc |roundedValue q - q| ≤ |2 ^ 52 * 2 ^ exponentOf q - q| := hfull
    _ = q - 2 ^ 52 * 2 ^ exponentOf q := by
      rw [abs_sub_comm, abs_of_nonneg (sub_nonneg.mpr hle)]
    _ < q - w := sub_lt_sub_left (abs_lt.mp hw).2 q
    _ ≤ |w - q| := by
      rw [abs_sub_comm]
      exact le_abs_self _

private theorem even_mantissaOf (hq : 0 < q) {k : ℤ}
    (hne : (k : ℚ) * 2 ^ exponentOf q ≠ roundedValue q)
    (heq : |(k : ℚ) * 2 ^ exponentOf q - q| = |roundedValue q - q|) : Even (mantissaOf q) := by
  have hhalf : |(mantissaOf q : ℚ) - q / 2 ^ exponentOf q| ≤ 1 / 2 := abs_mantissaOf_sub_le hq
  have hsame : |(k : ℚ) - q / 2 ^ exponentOf q| = |(mantissaOf q : ℚ) - q / 2 ^ exponentOf q| := by
    rw [roundedValue, abs_units_sub, abs_units_sub] at heq
    exact mul_right_cancel₀ (by positivity) heq
  have hk : k ≠ mantissaOf q := by
    rintro rfl
    exact hne (by rw [roundedValue, Int.cast_natCast])
  have hone : (1 : ℚ) ≤ |(k : ℚ) - mantissaOf q| := by
    exact_mod_cast Int.one_le_abs (sub_ne_zero.mpr hk)
  have htriangle := abs_sub_le (k : ℚ) (q / 2 ^ exponentOf q) (mantissaOf q)
  rw [abs_sub_comm (q / 2 ^ exponentOf q), hsame] at htriangle
  have htie : |(mantissaOf q : ℚ) - q / 2 ^ exponentOf q| = 1 / 2 := le_antisymm hhalf (by linarith)
  exact even_roundedMantissa (by positivity) htie

/-- Where rounding stays finite, the float has the rounded value and a mantissa of the same evenness.
-/
theorem value_packed_rounded (hq : 0 < q) {s : Sign}
    (hfinite : (packed (rounded s q)).isFinite = true) :
    value (packed (rounded s q)) = withSign s (roundedValue q) ∧
      (Even (mantissaOf q) → Even (mantissa (packed (rounded s q)))) := by
  by_cases hzero : mantissaOf q = 0
  · have hrounded : rounded s q = .zero s := dif_pos hzero
    have hparts : parts (packed (rounded s q)) = .zero s := by
      rw [hrounded]
      cases s <;> rfl
    rw [value_of_zero hparts, mantissa, hparts, roundedValue, hzero]
    refine ⟨?_, fun _ => Even.zero⟩
    cases s <;> simp [withSign]
  · obtain ⟨m, e, hm, hrounded, heven⟩ : ∃ m e, ∃ hm : 0 < m,
        rounded s q = .finite s m e hm ∧ (Even (mantissaOf q) → Even m) := by
      unfold rounded
      rw [dif_neg hzero]
      split
      · exact ⟨2 ^ 52, exponentOf q + 1, by decide, rfl, fun _ => by decide⟩
      · exact ⟨mantissaOf q, exponentOf q, Nat.pos_of_ne_zero hzero, rfl, id⟩
    have hparts := parts_packed_rounded hq hrounded hfinite
    rw [value_of_parts hparts, mantissaOf_mul_of_rounded hrounded, mantissa, hparts]
    exact ⟨rfl, heven⟩

/-- Rounding gives the nearest float. -/
theorem isNearest_packed_rounded (hq : 0 < q) {s : Sign}
    (hfinite : (packed (rounded s q)).isFinite = true) :
    IsNearest (packed (rounded s q)) (withSign s q) := by
  obtain ⟨hvalue, heven⟩ := value_packed_rounded hq hfinite
  have hdistance (w : ℚ) : |w - withSign s q| = |withSign s w - q| := by
    rw [← abs_withSign s, ← withSign_sub, withSign_withSign]
  -- seen from the positive side, a float is of one of the two kinds
  have hkind (y : Float) (hy : y.isFinite = true) :
      (∃ k : ℤ, withSign s (value y) = k * 2 ^ exponentOf q) ∨
        |roundedValue q - q| < |withSign s (value y) - q| := by
    rcases units_or_below hq hy with ⟨k, hk⟩ | ⟨hbelow, hle⟩
    · left
      cases s with
      | negative => exact ⟨-k, by rw [withSign, hk, Int.cast_neg, neg_mul]⟩
      | positive => exact ⟨k, hk⟩
    · exact .inr (abs_roundedValue_sub_lt hq (by rwa [abs_withSign]) hle)
  refine ⟨hfinite, fun y hy => ?_, fun y hy hne heq => heven ?_⟩
  · rw [hdistance, hdistance, hvalue, withSign_withSign]
    rcases hkind y hy with ⟨k, hk⟩ | hlt
    · rw [hk]
      exact abs_roundedValue_sub_le hq k
    · exact hlt.le
  · rw [hdistance, hdistance, hvalue, withSign_withSign] at heq
    rcases hkind y hy with ⟨k, hk⟩ | hlt
    · rw [hk] at heq
      refine even_mantissaOf hq (k := k) (fun hsame => hne ?_) heq
      rw [hvalue, ← hsame, ← hk, withSign_withSign]
    · exact absurd heq hlt.ne'

/-- A number that is not subnormal moves by at most a part in `2 ^ 53`. -/
theorem abs_roundedValue_sub_le_div (hq : 0 < q) (hnormal : exponentOf q ≠ -1074) :
    |roundedValue q - q| ≤ q / 2 ^ 53 := by
  have hfull := le_div_exponentOf hq hnormal
  have hunit : (0 : ℚ) < 2 ^ exponentOf q := by positivity
  rw [le_div_iff₀ hunit] at hfull
  rw [roundedValue, abs_units_sub]
  calc |(mantissaOf q : ℚ) - q / 2 ^ exponentOf q| * 2 ^ exponentOf q
      ≤ 1 / 2 * 2 ^ exponentOf q := mul_le_mul_of_nonneg_right (abs_mantissaOf_sub_le hq) hunit.le
    _ = 2 ^ 52 * 2 ^ exponentOf q / 2 ^ 53 := by ring
    _ ≤ q / 2 ^ 53 := by gcongr

/-- A whole number of units is its own rounding. -/
theorem roundedValue_eq_self (hq : 0 < q) {k : ℤ} (h : q = k * 2 ^ exponentOf q) :
    roundedValue q = q := by
  have hle := abs_roundedValue_sub_le hq k
  rw [← h, sub_self, abs_zero, abs_nonpos_iff, sub_eq_zero] at hle
  exact hle

end Rounded

private theorem isNearest_of_zero {x : Float} {s : Sign} (h : parts x = .zero s) :
    IsNearest x 0 := by
  have hvalue := value_of_zero h
  refine ⟨?_, fun y _ => ?_, fun y _ _ _ => ?_⟩
  · rw [isFinite_eq, h]
    rfl
  · rw [hvalue, sub_self, abs_zero]
    exact abs_nonneg _
  · rw [mantissa, h]
    exact Even.zero

/-- A float that is nearest to the value of a float has that value. -/
theorem IsNearest.value_eq {x : Float} {q : ℚ} (h : IsNearest x q) {y : Float}
    (hy : y.isFinite = true) (hvalue : value y = q) : value x = q := by
  have hle := h.closest y hy
  rw [hvalue, sub_self, abs_zero, abs_nonpos_iff, sub_eq_zero] at hle
  exact hle

theorem IsNearest.neg {x : Float} {q : ℚ} (h : IsNearest x q) : IsNearest (-x) (-q) := by
  have hx := h.isFinite
  have hflip (w : ℚ) : |w - -q| = |-w - q| := by
    rw [← abs_neg, neg_sub, sub_eq_add_neg, neg_add_eq_sub]
  refine ⟨isFinite_neg hx, fun y hy => ?_, fun y hy hne heq => ?_⟩
  · rw [hflip, hflip, value_neg hx, neg_neg, ← value_neg hy]
    exact h.closest (-y) (isFinite_neg hy)
  · rw [hflip, hflip, value_neg hx, neg_neg, ← value_neg hy] at heq
    rw [mantissa_neg hx]
    refine h.even (-y) (isFinite_neg hy) (fun hsame => hne ?_) heq
    rw [value_neg hx, ← hsame, value_neg hy, neg_neg]

end PriceFormula.Number

namespace PriceFormula.Decimal

open Number

def value (d : Decimal) : ℚ := if d.negative then -d.magnitude else d.magnitude

/-- An unsigned decimal is read as the float nearest to it, if it is read as a finite float. -/
theorem isNearest_toFloat_unsigned {d : Decimal} (hsign : d.negative = false)
    (h : d.toFloat.isFinite = true) : IsNearest d.toFloat d.magnitude := by
  rcases Nat.eq_zero_or_pos d.digits with hzero | hdigits
  · obtain ⟨negative, digits, exponent⟩ := d
    subst hsign hzero
    rw [magnitude, Nat.cast_zero, zero_mul, toFloat_zero]
    exact isNearest_of_zero (s := .positive) rfl
  · have hpos := magnitude_pos.mpr hdigits
    rw [toFloat_eq_packed hsign hpos] at h ⊢
    exact isNearest_packed_rounded hpos h

private theorem isFinite_toFloat_unsigned {d : Decimal} (hsign : d.negative = false)
    (h : d.magnitude < overflowThreshold) : d.toFloat.isFinite = true := by
  rcases Nat.eq_zero_or_pos d.digits with hzero | hdigits
  · obtain ⟨negative, digits, exponent⟩ := d
    subst hsign hzero
    rw [toFloat_zero]
    rfl
  · have hpos := magnitude_pos.mpr hdigits
    rw [toFloat_eq_packed hsign hpos]
    exact isFinite_packed_rounded hpos h _

/-- A decimal in the range of floats is read as the float nearest to it. -/
theorem isNearest_toFloat {d : Decimal} (h : d.magnitude < overflowThreshold) :
    IsNearest d.toFloat d.value := by
  obtain ⟨negative, digits, exponent⟩ := d
  have hunsigned : IsNearest (Decimal.mk false digits exponent).toFloat
      (Decimal.mk false digits exponent).magnitude :=
    isNearest_toFloat_unsigned rfl (isFinite_toFloat_unsigned rfl h)
  cases negative with
  | false => exact hunsigned
  | true => exact hunsigned.neg

end PriceFormula.Decimal
