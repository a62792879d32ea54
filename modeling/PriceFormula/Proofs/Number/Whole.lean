import PriceFormula.Number.Whole
import PriceFormula.Proofs.Number.Closest

/-! Integer parts of floats. They have at most as many binary digits as a mantissa, up to zeros at
the end, and integers of this kind become floats without loss. -/

namespace PriceFormula.Number

open Float.Model UnpackedFloat

def integerPart (x : Float) : ℤ := if 0 ≤ value x then ⌊value x⌋ else ⌈value x⌉

/-- The nearest of the integers of `bits + 1` bits, one of them for the sign. -/
def keptWithin (bits : ℕ) (n : ℤ) : ℤ := max (-2 ^ bits) (min (2 ^ bits - 1) n)

/-- A whole number that a mantissa can hold, up to zeros at the end. -/
def FitsMantissa (n : ℕ) : Prop := ∃ zeros : ℕ, 2 ^ zeros ∣ n ∧ n < 2 ^ (53 + zeros)

section Parts
variable {x : Float} {s : Sign} {m : ℕ} {e : ℤ} {hm : 0 < m}

theorem fraction_den_pos (m : ℕ) (e : ℤ) : 0 < (fraction m e).2 := by
  rw [fraction]
  split
  · exact Nat.one_pos
  · rw [Nat.shiftLeft_eq]
    positivity

private theorem mul_zpow_eq_fraction (m : ℕ) (e : ℤ) :
    (m : ℚ) * 2 ^ e = (fraction m e).1 / (fraction m e).2 := by
  have hden : ((fraction m e).2 : ℚ) ≠ 0 := Nat.cast_ne_zero.mpr (fraction_den_pos m e).ne'
  rw [fraction_eq, mul_div_cancel_right₀ _ hden]

private theorem integerPart_of_parts (h : parts x = .finite s m e hm) :
    integerPart x = s.apply ((fraction m e).1 / (fraction m e).2 : ℕ) := by
  have hfloor : ⌊(m : ℚ) * 2 ^ e⌋ = ((fraction m e).1 / (fraction m e).2 : ℕ) := by
    rw [← Int.natCast_floor_eq_floor (by positivity), mul_zpow_eq_fraction, Nat.floor_div_eq_div]
  have hpos : 0 < (m : ℚ) * 2 ^ e := by positivity
  cases s with
  | negative =>
    have hvalue : value x = -(m * 2 ^ e) := value_of_parts h
    rw [integerPart, hvalue, if_neg (not_le.mpr (neg_lt_zero.mpr hpos)), Int.ceil_neg, hfloor]
    rfl
  | positive =>
    have hvalue : value x = m * 2 ^ e := value_of_parts h
    rw [integerPart, hvalue, if_pos hpos.le, hfloor]
    rfl

private theorem integerPart_of_zero (h : parts x = .zero s) : integerPart x = 0 := by
  rw [integerPart, value_of_zero h, if_pos le_rfl, Int.floor_zero]

end Parts

/-- Cutting off and keeping within bounds are what truncation does. -/
theorem truncate_eq {x : Float} (hx : x.isFinite = true) (bits : ℕ) :
    truncate bits x = keptWithin bits (integerPart x) := by
  have hlimit : ((1 <<< bits : ℕ) : ℤ) = 2 ^ bits := by
    rw [Nat.one_shiftLeft, Nat.cast_pow, Nat.cast_ofNat]
  have hpos : (0 : ℤ) < 2 ^ bits := by positivity
  unfold truncate
  rcases finite_cases hx with ⟨s, hparts⟩ | ⟨s, m, e, hm, hparts⟩
  · rw [integerPart_of_zero hparts, hparts, keptWithin]
    simp only
    omega
  · rw [integerPart_of_parts hparts, hparts, keptWithin]
    simp only
    generalize (fraction m e).1 / (fraction m e).2 = whole
    cases s with
    | negative =>
      simp only [Sign.apply, Nat.cast_min, hlimit]
      omega
    | positive =>
      simp only [Sign.apply, hlimit]
      omega

section FitsMantissa

/-- The integer part of a float fits a mantissa. -/
theorem fitsMantissa_integerPart {x : Float} (hx : x.isFinite = true) :
    FitsMantissa (integerPart x).natAbs := by
  rcases finite_cases hx with ⟨s, hparts⟩ | ⟨s, m, e, hm, hparts⟩
  · rw [integerPart_of_zero hparts]
    exact ⟨0, one_dvd _, by positivity⟩
  · obtain ⟨hcanonical, -⟩ := canonical_of_parts hparts
    have hnatAbs (n : ℕ) : (s.apply n).natAbs = n := by
      cases s with
      | negative => exact Int.natAbs_neg n
      | positive => rfl
    rw [integerPart_of_parts hparts, hnatAbs, fraction]
    split
    · rename_i he
      obtain ⟨n, rfl⟩ := Int.eq_ofNat_of_zero_le he
      refine ⟨n, ?_, ?_⟩
      · rw [Nat.div_one, Int.toNat_natCast, Nat.shiftLeft_eq]
        exact dvd_mul_left _ _
      · rw [Nat.div_one, Int.toNat_natCast, Nat.shiftLeft_eq, pow_add]
        exact Nat.mul_lt_mul_of_pos_right hcanonical.lt (by positivity)
    · refine ⟨0, one_dvd _, ?_⟩
      exact (Nat.div_le_self _ _).trans_lt hcanonical.lt

/-- A remainder of two numbers fits where both do: it is a multiple of the smaller power of two, and
below the number that this power belongs to. -/
theorem FitsMantissa.mod {a b : ℕ} (ha : FitsMantissa a) (hb : FitsMantissa b) (hpos : 0 < b) :
    FitsMantissa (a % b) := by
  obtain ⟨i, hi, halt⟩ := ha
  obtain ⟨j, hj, hblt⟩ := hb
  rcases Nat.le_total i j with hle | hle
  · refine ⟨i, ?_, (Nat.mod_le a b).trans_lt halt⟩
    exact (Nat.dvd_mod_iff ((pow_dvd_pow 2 hle).trans hj)).mpr hi
  · refine ⟨j, ?_, (Nat.mod_lt a hpos).trans hblt⟩
    exact (Nat.dvd_mod_iff hj).mpr ((pow_dvd_pow 2 hle).trans hi)

/-- A number that fits is not the largest integer of 64 bits, so within 64 bits it keeps away from
it. -/
theorem FitsMantissa.ne_largest {n : ℕ} (h : FitsMantissa n) : n ≠ 2 ^ 63 - 1 := by
  rintro rfl
  obtain ⟨zeros, hdvd, hlt⟩ := h
  rcases Nat.eq_zero_or_pos zeros with rfl | hpos
  · exact absurd hlt (by decide)
  · have htwo : 2 ∣ 2 ^ 63 - 1 := (dvd_pow_self 2 hpos.ne').trans hdvd
    exact absurd htwo (by decide)

private theorem roundedValue_of_fitsMantissa {n : ℕ} (hn : 0 < n) (h : FitsMantissa n) :
    roundedValue n = n := by
  obtain ⟨zeros, ⟨c, hc⟩, hlt⟩ := h
  have hpos : (0 : ℚ) < n := Nat.cast_pos.mpr hn
  have hlog : Int.log 2 (n : ℚ) < 53 + zeros := by
    refine (Int.lt_zpow_iff_log_lt (by decide) hpos).mp ?_
    exact_mod_cast hlt
  have hexponent : exponentOf n ≤ zeros := by
    unfold exponentOf
    omega
  obtain ⟨k, hk⟩ := Int.le.dest hexponent
  refine roundedValue_eq_self hpos (k := c * 2 ^ k) ?_
  calc (n : ℚ) = 2 ^ (zeros : ℤ) * c := by
        rw [hc, zpow_natCast]
        push_cast
        rfl
    _ = (c * 2 ^ k : ℤ) * 2 ^ exponentOf n := by
        rw [← hk, zpow_add₀ two_ne_zero, zpow_natCast]
        push_cast
        ring

end FitsMantissa

theorem value_ofNat {n : ℕ} (h : n ≤ 2 ^ 64) (hfits : FitsMantissa n) :
    value (Float.ofNat n) = n := by
  have hfinite := isFinite_ofNat h
  rcases Nat.eq_zero_or_pos n with rfl | hn
  · have hzero : Float.ofNat 0 = packed (.zero .positive) := Decimal.toFloat_zero 0
    rw [hzero, Nat.cast_zero]
    exact value_of_zero (s := .positive) rfl
  · rw [ofNat_eq_packed hn] at hfinite ⊢
    rw [(value_packed_rounded (Nat.cast_pos.mpr hn) hfinite).1, withSign,
      roundedValue_of_fitsMantissa hn hfits]

/-- Integers of 64 bits that fit become floats without loss. -/
theorem value_ofInt {n : ℤ} (h : n.natAbs ≤ 2 ^ 64) (hfits : FitsMantissa n.natAbs) :
    (Float.ofInt n).isFinite = true ∧ value (Float.ofInt n) = n := by
  have hfinite := isFinite_ofNat h
  have hvalue := value_ofNat h hfits
  cases n with
  | ofNat n => exact ⟨hfinite, hvalue⟩
  | negSucc n =>
    refine ⟨isFinite_neg hfinite, (value_neg hfinite).trans ?_⟩
    rw [hvalue]
    rfl

end PriceFormula.Number
