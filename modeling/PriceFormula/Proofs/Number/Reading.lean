import PriceFormula.Number.Decimal
import PriceFormula.Proofs.Number.Arithmetic

/-! Reading of decimals: the float of a decimal is its exact value rounded once, so decimals of the
same value give the same float. -/

namespace PriceFormula.Number

open Float.Model UnpackedFloat

/-- A positive whole number below `2 ^ 53` is a float. -/
theorem exists_canonical_natCast {n : ℕ} (hn : 0 < n) (h : n < 2 ^ 53) :
    ∃ m e, Canonical m e ∧ e ≤ mostBinaryExponent ∧ 0 < m ∧ (m : ℚ) * 2 ^ e = n := by
  have hlog : n.log2 ≤ 52 := Nat.le_of_lt_succ ((Nat.log2_lt hn.ne').mpr h)
  obtain ⟨k, hk⟩ := Nat.le.dest hlog
  have hlow : 2 ^ 52 ≤ n * 2 ^ k := by
    rw [← hk, pow_add]
    exact Nat.mul_le_mul_right _ ((Nat.le_log2 hn.ne').mp le_rfl)
  have hhigh : n * 2 ^ k < 2 ^ 53 := by
    have hsum : 53 = (n.log2 + 1) + k := by omega
    rw [hsum, pow_add]
    exact Nat.mul_lt_mul_of_pos_right ((Nat.log2_lt hn.ne').mp (Nat.lt_succ_self _)) (by positivity)
  refine ⟨n * 2 ^ k, -k, ⟨hhigh, by omega, fun _ => hlow⟩, ?_, by positivity, ?_⟩
  · rw [mostBinaryExponent]
    omega
  · rw [zpow_neg, zpow_natCast]
    push_cast
    field_simp

private theorem toUInt64_toFloat_eq {n : ℕ} (h : n < 2 ^ 53) {m : ℕ} {e : ℤ} (hc : Canonical m e)
    (hm : 0 < m) (hvalue : (m : ℚ) * 2 ^ e = n) :
    n.toUInt64.toFloat = packed (.finite .positive m e hm) := by
  have hn : 0 < n := by
    have : (0 : ℚ) < n := hvalue ▸ by positivity
    exact_mod_cast this
  have hnat : n.toUInt64.toNat = n := by
    rw [Nat.toUInt64_eq, UInt64.toNat_ofNat', Nat.mod_eq_of_lt (by omega)]
  have hnormal : UnpackedFloat.ofUInt64 Format.binary64 n.toUInt64 =
      UnpackedFloat.round Format.binary64 .positive n 0 := by
    unfold UnpackedFloat.ofUInt64 UnpackedFloat.ofNat UnpackedFloat.ofInt UnpackedFloat.normalize
    rw [hnat, Int.compare_eq_gt.mpr (by omega)]
    rfl
  have hround := round_eq hn .positive 0
  rw [zpow_zero, mul_one, ← hvalue, rounded_canonical hc _ hm] at hround
  rw [← hround, ← hnormal]
  rfl

def isWhole (x : Float) (n : ℕ) : Bool :=
  match parts x with
  | .finite .positive m e _ => (fraction m e).1 = n * (fraction m e).2
  | _ => false

theorem fraction_eq (m : ℕ) (e : ℤ) : ((fraction m e).1 : ℚ) = m * 2 ^ e * (fraction m e).2 := by
  rw [fraction]
  split
  · rename_i he
    obtain ⟨n, rfl⟩ := Int.eq_ofNat_of_zero_le he
    simp [Nat.shiftLeft_eq]
  · rename_i he
    obtain ⟨n, hn⟩ := Int.eq_ofNat_of_zero_le (by omega : 0 ≤ -e)
    obtain rfl : e = -n := by omega
    simp [Nat.shiftLeft_eq]

theorem powersOfTen_whole :
    ∀ k : Fin 23, isWhole (Float.exactlyRepresentablePowersOfTen[k]) (10 ^ k.val) = true := by
  decide +kernel

theorem exists_parts_of_isWhole {x : Float} {n : ℕ} (h : isWhole x n = true) :
    ∃ m e, ∃ hm : 0 < m, parts x = .finite .positive m e hm ∧ (m : ℚ) * 2 ^ e = n := by
  rw [isWhole] at h
  split at h
  · rename_i m e hm hparts
    refine ⟨m, e, hm, hparts, ?_⟩
    have hden : ((fraction m e).2 : ℚ) ≠ 0 := by
      rw [fraction]
      split
      · simp
      · simp [Nat.shiftLeft_eq]
    have hvalue : ((fraction m e).1 : ℚ) = n * (fraction m e).2 := by
      exact_mod_cast of_decide_eq_true h
    rw [fraction_eq] at hvalue
    exact mul_right_cancel₀ hden hvalue
  · nomatch h

/-- Where digits and power of ten are both floats, the decimal is one product or quotient. -/
theorem ofScientific_fast {m k : ℕ} (hm : 0 < m) (hlt : m < 2 ^ 53) (hk : k ≤ 22) (small : Bool) :
    Float.ofScientific m small k =
      packed (rounded .positive (if small then (m : ℚ) / 10 ^ k else m * 10 ^ k)) := by
  obtain ⟨M, e, hc, he, hM, hvalue⟩ := exists_canonical_natCast hm hlt
  have hdigits : parts m.toUInt64.toFloat = .finite .positive M e hM := by
    rw [toUInt64_toFloat_eq hlt hc hM hvalue, parts_packed hc he]
  obtain ⟨P, f, hP, hpower, hten⟩ :=
    exists_parts_of_isWhole (powersOfTen_whole ⟨k, Nat.lt_succ_of_le hk⟩)
  push_cast at hten
  rw [Float.ofScientific, dif_pos ⟨hlt, hk⟩]
  simp only
  cases small with
  | true =>
    rw [if_pos rfl, if_pos rfl, ← hvalue, ← hten]
    exact div_eq_packed hdigits hpower
  | false =>
    rw [if_neg Bool.false_ne_true, if_neg Bool.false_ne_true, ← hvalue, ← hten]
    exact mul_eq_packed hdigits hpower

private theorem le_mul_ten_pow {m n : ℕ} (hm : 0 < m) (hn : 1024 ≤ n) :
    (2 : ℚ) ^ (1024 : ℤ) ≤ m * 10 ^ (n : ℤ) := by
  have hone : (1 : ℚ) ≤ m := by exact_mod_cast hm
  calc (2 : ℚ) ^ (1024 : ℤ) ≤ 2 ^ (n : ℤ) := zpow_le_zpow_right₀ (by norm_num) (by omega)
    _ = 2 ^ n := zpow_natCast 2 n
    _ ≤ 10 ^ n := pow_le_pow_left₀ (by norm_num) (by norm_num) n
    _ ≤ m * 10 ^ n := le_mul_of_one_le_left (by positivity) hone
    _ = m * 10 ^ (n : ℤ) := by rw [zpow_natCast]

private theorem mul_ten_pow_lt {m n : ℕ} (hm : 0 < m) (hn : m.log2 + 1076 ≤ n) :
    (m : ℚ) * 10 ^ (-n : ℤ) < 2 ^ (-1075 : ℤ) := by
  have hpower : m * 2 ^ 1075 < 10 ^ n := calc
    m * 2 ^ 1075 < 2 ^ (m.log2 + 1) * 2 ^ 1075 :=
      Nat.mul_lt_mul_of_pos_right ((Nat.log2_lt hm.ne').mp (Nat.lt_succ_self _)) (by positivity)
    _ = 2 ^ (m.log2 + 1 + 1075) := (pow_add 2 _ _).symm
    _ ≤ 2 ^ n := Nat.pow_le_pow_right (by decide) (by omega)
    _ ≤ 10 ^ n := Nat.pow_le_pow_left (by decide) n
  have hten : (0 : ℚ) < 10 ^ n := by positivity
  rw [zpow_neg, zpow_natCast, zpow_neg, ← div_eq_mul_inv, div_lt_iff₀ hten, inv_mul_eq_div,
    lt_div_iff₀ (by positivity)]
  exact_mod_cast hpower

/-- Beyond the fast case the model of floats divides or multiplies exactly, and rounds once. What is
far out of range it does not compute. -/
private theorem packed_model_ofScientific {m : ℕ} (hm : 0 < m) (e : ℤ) :
    packed (UnpackedFloat.ofScientific Format.binary64 m e) =
      packed (rounded .positive (m * 10 ^ e)) := by
  rw [UnpackedFloat.ofScientific]
  have hbits : (2 ^ Format.binary64.exponentBits : ℤ) = 2048 := by decide
  rw [dif_neg hm.ne', hbits]
  split
  · rename_i he
    obtain ⟨n, rfl⟩ := Int.eq_ofNat_of_zero_le (by omega : 0 ≤ e)
    exact (packed_rounded_of_large (le_mul_ten_pow hm (by omega)) _).symm
  split
  · rename_i he
    obtain ⟨n, hn⟩ := Int.eq_ofNat_of_zero_le (by omega : 0 ≤ -e)
    obtain rfl : e = -n := by omega
    rw [rounded_of_small (by positivity) (mul_ten_pow_lt hm (by omega))]
  split
  · rename_i he
    obtain ⟨n, rfl⟩ := Int.eq_ofNat_of_zero_le he
    -- the digits are shifted first, to fill the mantissa of the product
    have hpos : 0 < m <<< 53 := by
      rw [Nat.shiftLeft_eq]
      positivity
    have hfull : 2 ^ 52 ≤ m <<< 53 * 10 ^ n := by
      rw [Nat.shiftLeft_eq]
      have := Nat.mul_le_mul (Nat.succ_le_of_lt hm) (Nat.one_le_pow n 10 (by decide))
      calc 2 ^ 52 ≤ 2 ^ 53 * (1 * 1) := by decide
        _ ≤ 2 ^ 53 * (m * 10 ^ n) := Nat.mul_le_mul_left _ this
        _ = m * 2 ^ 53 * 10 ^ n := by ring
    have hvalue : (m : ℚ) * (10 : ℚ) ^ (n : ℤ) =
        (m <<< 53 : ℕ) * 2 ^ (-53 : ℤ) * ((10 ^ n : ℕ) * 2 ^ (0 : ℤ)) := by
      rw [Nat.shiftLeft_eq, zpow_natCast, zpow_zero]
      push_cast
      norm_num
      ring
    rw [hvalue]
    exact congrArg packed (mul_finite hpos (by positivity) (.inr hfull))
  · rename_i he
    have hvalue : (m : ℚ) * 10 ^ e =
        m * 2 ^ (0 : ℤ) / ((10 ^ (-e).toNat : ℕ) * 2 ^ (0 : ℤ)) := by
      obtain ⟨n, hn⟩ := Int.eq_ofNat_of_zero_le (by omega : 0 ≤ -e)
      obtain rfl : e = -n := by omega
      simp [div_eq_mul_inv]
    rw [hvalue]
    exact congrArg packed (div_finite hm (by positivity))

end PriceFormula.Number

namespace PriceFormula.Decimal

open Float.Model.UnpackedFloat Number

def magnitude (d : Decimal) : ℚ := d.digits * 10 ^ d.exponent

theorem magnitude_pos {d : Decimal} : 0 < d.magnitude ↔ 0 < d.digits := by
  rw [magnitude, mul_pos_iff_of_pos_right (by positivity), Nat.cast_pos]

/-- The float of a decimal is its value, rounded once. -/
theorem toFloat_eq_packed {d : Decimal} (hsign : d.negative = false) (hpos : 0 < d.magnitude) :
    d.toFloat = packed (rounded .positive d.magnitude) := by
  have hd := magnitude_pos.mp hpos
  obtain ⟨negative, m, e⟩ := d
  obtain rfl : negative = false := hsign
  have hfloat : (Decimal.mk false m e).toFloat = Float.ofScientific m (e < 0) e.natAbs := rfl
  have hvalue : (if decide (e < 0) = true then (m : ℚ) / 10 ^ e.natAbs else m * 10 ^ e.natAbs) =
      m * 10 ^ e := by
    obtain ⟨n, rfl | rfl⟩ := Int.eq_nat_or_neg e
    · rw [if_neg (by simp), Int.natAbs_natCast, zpow_natCast]
    · rcases Nat.eq_zero_or_pos n with rfl | hn
      · simp
      · rw [if_pos (by simpa using hn), Int.natAbs_neg, Int.natAbs_natCast, zpow_neg, zpow_natCast,
          div_eq_mul_inv]
  rw [hfloat, magnitude]
  simp only
  by_cases hfast : m < 2 ^ 53 ∧ e.natAbs ≤ 22
  · rw [ofScientific_fast hd hfast.1 hfast.2, hvalue]
  · have hexponent : (if decide (e < 0) = true then Int.negOfNat e.natAbs else Int.ofNat e.natAbs) =
        e := by
      split
      · rename_i h
        have := of_decide_eq_true h
        rw [Int.negOfNat_eq, Int.ofNat_eq_natCast]
        omega
      · rename_i h
        have : ¬e < 0 := fun he => h (decide_eq_true he)
        rw [Int.ofNat_eq_natCast]
        omega
    rw [← packed_model_ofScientific hd]
    rw [Float.ofScientific, dif_neg hfast]
    simp only [hexponent]
    rfl

/-- A decimal without digits other than zero is the unsigned zero, whatever its exponent. -/
theorem toFloat_zero (e : ℤ) : (Decimal.mk false 0 e).toFloat = packed (.zero .positive) := by
  have hfast : ∀ (small : Bool) (k : Fin 23),
      Float.ofScientific 0 small k.val = packed (.zero .positive) := by
    decide +kernel
  change Float.ofScientific 0 (e < 0) e.natAbs = _
  by_cases hk : e.natAbs ≤ 22
  · exact hfast _ ⟨e.natAbs, Nat.lt_succ_of_le hk⟩
  · have hslow (e : ℤ) : Float.Model.UnpackedFloat.ofScientific Float.Model.Format.binary64 0 e =
        .zero .positive := dif_pos rfl
    rw [Float.ofScientific, dif_neg fun h => hk h.2]
    exact congrArg packed (hslow _)

/-- A decimal with a sign is read as the unsigned one with the sign. -/
theorem toFloat_signed {d : Decimal} (hsign : d.negative = false) (negative : Bool) :
    toFloat { d with negative } = if negative then -d.toFloat else d.toFloat := by
  obtain ⟨_, digits, exponent⟩ := d
  subst hsign
  rfl

/-- Decimals of the same value read as the same float. -/
theorem toFloat_congr {d d' : Decimal} (hsign : d.negative = false) (hsign' : d'.negative = false)
    (h : d.magnitude = d'.magnitude) : d.toFloat = d'.toFloat := by
  rcases Nat.eq_zero_or_pos d.digits with hzero | hdigits
  · have hzero' : d'.digits = 0 := by
      refine Nat.eq_zero_of_not_pos fun hdigits' => ?_
      have hpos := magnitude_pos.mpr hdigits'
      rw [← h, magnitude_pos] at hpos
      omega
    obtain ⟨negative, digits, e⟩ := d
    obtain ⟨negative', digits', e'⟩ := d'
    subst hsign hsign' hzero hzero'
    rw [toFloat_zero, toFloat_zero]
  · have hpos := magnitude_pos.mpr hdigits
    rw [toFloat_eq_packed hsign hpos, toFloat_eq_packed hsign' (h ▸ hpos), h]

end PriceFormula.Decimal

namespace PriceFormula.Number

open Float.Model UnpackedFloat

/-- A whole number as a float is rounded once. -/
theorem ofNat_eq_packed {n : ℕ} (hn : 0 < n) :
    Float.ofNat n = packed (rounded .positive n) := by
  have hmagnitude : (Decimal.mk false n 0).magnitude = n := by simp [Decimal.magnitude]
  have hfloat := Decimal.toFloat_eq_packed (d := ⟨false, n, 0⟩) rfl (Decimal.magnitude_pos.mpr hn)
  rwa [hmagnitude] at hfloat

/-- A whole number of at most 64 bits becomes a finite float. -/
theorem isFinite_ofNat {n : Nat} (h : n ≤ 2 ^ 64) : (Float.ofNat n).isFinite = true := by
  obtain rfl | hn := Nat.eq_zero_or_pos n
  · have hdecimal : Float.ofNat 0 = (Decimal.mk false 0 0).toFloat := rfl
    rw [hdecimal, Decimal.toFloat_zero]
    rfl
  · have hsmall : (n : ℚ) < overflowThreshold := calc
      (n : ℚ) ≤ 2 ^ (64 : ℤ) := by exact_mod_cast h
      _ < 2 ^ (65 : ℤ) := zpow_lt_zpow_right₀ (by norm_num) (by norm_num)
      _ ≤ overflowThreshold := two_zpow_le_overflowThreshold (by decide)
    rw [ofNat_eq_packed hn]
    exact isFinite_packed_rounded (Nat.cast_pos.mpr hn) hsmall _

end PriceFormula.Number
