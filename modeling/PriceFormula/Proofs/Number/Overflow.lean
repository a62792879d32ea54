import PriceFormula.Proofs.Number.Scaling

/-! Where rounding to places leaves the range of floats. It never does at decimal places. At tens,
hundreds and so on it does exactly where the multiple that a value goes to is out of range, which
takes a value of more than `1.5 * 10 ^ 308`. -/

namespace PriceFormula.Number

open Float.Model UnpackedFloat

section Threshold
variable {q : ℚ}

/-- From the threshold on a number is rounded to an infinity. At the threshold itself two mantissas
are equally near, and the even one of them is carried out of range. -/
private theorem packed_rounded_of_overflow (h : overflowThreshold ≤ q) (s : Sign) :
    packed (rounded s q) = packed (.infinity s) := by
  rcases le_or_gt (2 ^ (1024 : ℤ)) q with hlarge | hlt
  · exact packed_rounded_of_large hlarge s
  have hlow : 2 ^ (1023 : ℤ) ≤ q := calc
    (2 : ℚ) ^ (1023 : ℤ) = 2 ^ 52 * 2 ^ mostBinaryExponent := by
      rw [← zpow_natCast, ← zpow_add₀ two_ne_zero]
      rfl
    _ ≤ overflowThreshold := by
      unfold overflowThreshold
      gcongr
      norm_num
    _ ≤ q := h
  have hq : 0 < q := lt_of_lt_of_le (by positivity) hlow
  have hexponent : exponentOf q = mostBinaryExponent := by
    rw [exponentOf, log_eq hlow hlt]
    rfl
  have hunits : 2 ^ 53 - 1 / 2 ≤ q / 2 ^ exponentOf q := by
    rw [hexponent, le_div_iff₀ (by positivity)]
    exact h
  have hlower := (abs_le.mp (abs_mantissaOf_sub_le hq)).1
  -- a mantissa short of the carry would be odd, although only a tie could have led to it
  have hcarry : mantissaOf q = 2 ^ 53 := by
    by_contra hne
    have hlt := lt_of_le_of_ne (mantissaOf_le q) hne
    have hle : (mantissaOf q : ℚ) ≤ 2 ^ 53 - 1 := by
      rw [le_sub_iff_add_le]
      exact_mod_cast Nat.succ_le_of_lt hlt
    have hhalf : (mantissaOf q : ℚ) - q / 2 ^ exponentOf q = -(1 / 2) := by
      refine le_antisymm ((sub_le_sub hle hunits).trans_eq ?_) hlower
      norm_num
    have htie : |(mantissaOf q : ℚ) - q / 2 ^ exponentOf q| = 1 / 2 := by
      rw [hhalf, abs_neg, abs_of_pos one_half_pos]
    obtain ⟨k, hk⟩ : Even (mantissaOf q) := even_roundedMantissa (by positivity) htie
    have hodd : 2 ^ 53 ≤ mantissaOf q + 1 := by
      have hge : (2 : ℚ) ^ 53 ≤ mantissaOf q + 1 := by linarith only [hunits, hhalf]
      exact_mod_cast hge
    omega
  have hrounded : rounded s q = .finite s (2 ^ 52) (exponentOf q + 1) (by decide) := by
    unfold rounded
    rw [dif_neg (by rw [hcarry]; decide), if_pos hcarry]
  rw [hrounded, packed_of_large (by rw [hexponent]; exact lt_add_one _)]

/-- A positive number is rounded to a finite float exactly below the threshold. -/
theorem isFinite_packed_rounded_iff (hq : 0 < q) (s : Sign) :
    (packed (rounded s q)).isFinite = true ↔ q < overflowThreshold := by
  refine ⟨fun hfinite => ?_, fun h => isFinite_packed_rounded hq h s⟩
  by_contra hlarge
  rw [packed_rounded_of_overflow (not_lt.mp hlarge)] at hfinite
  cases s <;> cases hfinite

private theorem value_one : (1 : Float).isFinite = true ∧ value 1 = 1 := by
  have hrange : 1 ≤ 2 ^ 64 := by norm_num
  have hfits : FitsMantissa 1 := ⟨0, one_dvd 1, by norm_num⟩
  exact ⟨isFinite_ofNat hrange, (value_ofNat hrange hfits).trans Nat.cast_one⟩

private theorem overflowThreshold_pos : 0 < overflowThreshold := by
  unfold overflowThreshold
  positivity

end Threshold

section Product
variable {x y : Float}

private theorem isFinite_of_mul_zero {s : Sign}
    (h : UnpackedFloat.mul Format.binary64 (parts x) (parts y) =
    .zero s) : (x * y).isFinite = true := by
  have hmul : x * y = packed (UnpackedFloat.mul Format.binary64 (parts x) (parts y)) := rfl
  rw [hmul, h]
  cases s <;> rfl

/-- A product of finite floats is finite exactly if the exact product is below the threshold. -/
theorem isFinite_mul_iff (hx : x.isFinite = true) (hy : y.isFinite = true) :
    (x * y).isFinite = true ↔ |value x * value y| < overflowThreshold := by
  have hzero (h : value x * value y = 0) : |value x * value y| < overflowThreshold := by
    rw [h, abs_zero]
    exact overflowThreshold_pos
  rcases finite_cases hx with ⟨s, hpartsx⟩ | ⟨s, m, e, hm, hpartsx⟩ <;>
    rcases finite_cases hy with ⟨t, hpartsy⟩ | ⟨t, n, f, hn, hpartsy⟩
  · refine iff_of_true (isFinite_of_mul_zero (s := s * t) ?_) (hzero ?_)
    · rw [hpartsx, hpartsy]
      rfl
    · rw [value_of_zero hpartsx, zero_mul]
  · refine iff_of_true (isFinite_of_mul_zero (s := s * t) ?_) (hzero ?_)
    · rw [hpartsx, hpartsy]
      rfl
    · rw [value_of_zero hpartsx, zero_mul]
  · refine iff_of_true (isFinite_of_mul_zero (s := s * t) ?_) (hzero ?_)
    · rw [hpartsx, hpartsy]
      rfl
    · rw [value_of_zero hpartsy, mul_zero]
  · rw [mul_eq_packed hpartsx hpartsy, isFinite_packed_rounded_iff (by positivity), abs_mul,
      abs_value_of_parts hpartsx, abs_value_of_parts hpartsy]

end Product

section Nearest
variable {x y : Float} {q : ℚ}

/-- A number that is not below a float is not rounded below it. -/
theorem IsNearest.le_value (h : IsNearest x q) (hy : y.isFinite = true) (hle : value y ≤ q) :
    value y ≤ value x := by
  by_contra hlt
  exact absurd (h.lt_of_value_lt hy (not_le.mp hlt)) (not_lt.mpr hle)

private theorem IsNearest.abs_value_le (h : IsNearest x q) (hy : y.isFinite = true)
    (hle : |q| ≤ value y) :
    |value x| ≤ value y := by
  obtain ⟨hlow, hhigh⟩ := abs_le.mp hle
  have hbelow := h.le_value (y := -y) (isFinite_neg hy) (by rwa [value_neg hy])
  have habove := h.neg.le_value (y := -y) (isFinite_neg hy) (by rw [value_neg hy]; linarith)
  rw [value_neg hy] at hbelow
  rw [value_neg hy, value_neg h.isFinite] at habove
  exact abs_le.mpr ⟨hbelow, by linarith⟩

end Nearest

section Quotient
variable {x y : Float} (hx : x.isFinite = true) {t : Sign} {n : ℕ} {f : ℤ} {hn : 0 < n}
  (hy : parts y = .finite t n f hn) (hone : 1 ≤ |value y|)
include hx hy hone

private theorem abs_value_div_le :
    |value (x / y)| ≤ max 1 (|value x / value y| * (1 + 1 / 2 ^ 53)) := by
  have hfinite : (x / y).isFinite = true := isFinite_div hx hy (by rwa [← abs_value_of_parts hy])
  rcases finite_cases hx with ⟨s, hparts⟩ | ⟨s, m, e, hm, hparts⟩
  · have hdiv : x / y = packed (UnpackedFloat.div Format.binary64 (parts x) (parts y)) := rfl
    have hzero : UnpackedFloat.div Format.binary64 (.zero s) (.finite t n f hn) = .zero (s / t) := rfl
    have hquotient : value (x / y) = 0 := by
      rw [hdiv, hparts, hy, hzero]
      cases s / t <;> rfl
    rw [hquotient, abs_zero]
    exact le_max_of_le_left zero_le_one
  rcases le_total (|value x / value y|) 1 with hsmall | hlarge
  · refine le_max_of_le_left ?_
    rw [← value_one.2] at hsmall ⊢
    exact (isNearest_div hparts hy hfinite).abs_value_le value_one.1 hsmall
  · refine le_max_of_le_right ?_
    have habs : |value x / value y| = m * 2 ^ e / (n * 2 ^ f) := by
      rw [abs_div, abs_value_of_parts hparts, abs_value_of_parts hy]
    rw [habs] at hlarge ⊢
    rw [div_eq_packed hparts hy] at hfinite ⊢
    obtain ⟨k, g, hk, hrounded, hnormal⟩ := exists_rounded hlarge (s / t)
    have hpos := one_pos.trans_le hlarge
    have hquotient := parts_packed_rounded hpos hrounded hfinite
    rw [abs_value_of_parts hquotient]
    exact rounded_le hpos hnormal hrounded

end Quotient

private theorem roundsTo_whole (n : ℤ) : RoundsTo 0 n n := by
  refine ⟨⟨n, by rw [pow_zero, div_one]⟩, ?_, fun htie => ?_⟩
  · rw [sub_self, abs_zero]
    norm_num
  · rw [sub_self, abs_zero] at htie
    norm_num at htie

section Nearest
variable {x : Float} {s : Sign} {m : ℕ} {e : ℤ} {hm : 0 < m} (h : parts x = .finite s m e hm)
include h

private theorem value_of_whole (he : 0 ≤ e) : ∃ n : ℤ, value x = n := by
  obtain ⟨k, rfl⟩ := Int.eq_ofNat_of_zero_le he
  refine ⟨s.apply (m * 2 ^ k : ℕ), ?_⟩
  rw [value_of_parts h]
  cases s <;> simp [withSign, Sign.apply]

private theorem value_nearest_of_fraction {k : ℕ} (he : e = -(k + 1 : ℕ)) :
    (nearest x).isFinite = true ∧
      value (nearest x) = withSign s ((2 * m + 2 ^ (k + 1)) / (2 * 2 ^ (k + 1)) : ℕ) := by
  have hden : (-e).toNat = k + 1 := by omega
  have hsmall : (2 * m + 2 ^ (k + 1)) / (2 * 2 ^ (k + 1)) < 2 ^ 53 := by
    have hunit : 2 ≤ 2 ^ (k + 1) := Nat.le_self_pow (Nat.succ_ne_zero k) 2
    refine lt_of_le_of_lt (Nat.div_le_of_le_mul ?_) (canonical_of_parts h).1.lt
    nlinarith
  have hle : (2 * m + 2 ^ (k + 1)) / (2 * 2 ^ (k + 1)) ≤ 2 ^ 64 := hsmall.le.trans (by norm_num)
  have hfinite := isFinite_ofNat hle
  have hvalue := value_ofNat hle ⟨0, one_dvd _, hsmall⟩
  rw [nearest, mapMagnitude, h]
  simp only [hden, Nat.one_shiftLeft]
  rw [if_neg (by omega)]
  cases s with
  | negative => exact ⟨isFinite_neg hfinite, (value_neg hfinite).trans (congrArg Neg.neg hvalue)⟩
  | positive => exact ⟨hfinite, hvalue⟩

end Nearest

private theorem roundsTo_nearest {x : Float} (hx : x.isFinite = true) :
    (nearest x).isFinite = true ∧ RoundsTo 0 (value x) (value (nearest x)) := by
  rcases finite_cases hx with ⟨s, hparts⟩ | ⟨s, m, e, hm, hparts⟩
  · have hsame : nearest x = x := by
      rw [nearest, mapMagnitude, hparts]
    rw [hsame, value_of_zero hparts]
    exact ⟨hx, by exact_mod_cast roundsTo_whole 0⟩
  rcases le_or_gt 0 e with he | he
  · obtain ⟨n, hn⟩ := value_of_whole hparts he
    rw [nearest_of_whole hparts he, hn]
    exact ⟨hx, roundsTo_whole n⟩
  · obtain ⟨k, hk⟩ : ∃ k : ℕ, e = -(k + 1 : ℕ) := ⟨(-e).toNat - 1, by omega⟩
    obtain ⟨hfinite, hvalue⟩ := value_nearest_of_fraction hparts hk
    obtain ⟨hclose, haway⟩ := Decimal.rounded_quotient m (by positivity : 0 < 2 ^ (k + 1))
    have hround := RoundsTo.of_units (by positivity) hclose haway 0
    have hexact : value x = withSign s (m / (2 ^ (k + 1) : ℕ)) := by
      rw [value_of_parts hparts, hk, zpow_neg, zpow_natCast, div_eq_mul_inv, Nat.cast_pow,
        Nat.cast_ofNat]
    rw [pow_zero, div_one, div_one] at hround
    rw [hvalue, hexact]
    refine ⟨hfinite, ?_⟩
    cases s with
    | negative => exact hround.neg
    | positive => exact hround

section Factor

structure FromOneTo (bound : ℚ) (x : Float) : Prop where
  isFinite : x.isFinite = true
  one_le : 1 ≤ value x
  le_bound : value x ≤ bound

private theorem fromOneTo_ofNat {n : ℕ} (hpos : 0 < n) (hlt : n < 2 ^ 53) :
    FromOneTo n (Float.ofNat n) := by
  have hrange : n ≤ 2 ^ 64 := hlt.le.trans (by norm_num)
  have hvalue := value_ofNat hrange ⟨0, one_dvd n, hlt⟩
  refine ⟨isFinite_ofNat hrange, ?_, hvalue.le⟩
  rw [hvalue]
  exact_mod_cast hpos

namespace FromOneTo
variable {x y : Float} {p q : ℚ}

private theorem pos (hx : FromOneTo p x) : 0 < value x := one_pos.trans_le hx.one_le

private theorem exists_parts (hx : FromOneTo p x) :
    ∃ s m e, ∃ hm : 0 < m, parts x = .finite s m e hm :=
  exists_parts_of_value_ne_zero hx.isFinite hx.pos.ne'

private theorem mono (hx : FromOneTo p x) (h : p ≤ q) : FromOneTo q x :=
  ⟨hx.isFinite, hx.one_le, hx.le_bound.trans h⟩

private theorem mul (hx : FromOneTo p x) (hy : FromOneTo q y)
    (hroom : p * q * (1 + 1 / 2 ^ 53) < overflowThreshold) :
    FromOneTo (p * q * (1 + 1 / 2 ^ 53)) (x * y) := by
  have hone : 1 ≤ value x * value y := one_le_mul_of_one_le_of_one_le hx.one_le hy.one_le
  have hnonneg : 0 ≤ value x * value y := zero_le_one.trans hone
  have habs : |value x * value y| = value x * value y := abs_of_nonneg hnonneg
  have hle : value x * value y ≤ p * q :=
    mul_le_mul hx.le_bound hy.le_bound hy.pos.le (hx.pos.le.trans hx.le_bound)
  have hlt : |value x * value y| < overflowThreshold := by
    rw [habs]
    refine lt_of_le_of_lt (hle.trans (le_mul_of_one_le_right ?_ ?_)) hroom
    · exact hnonneg.trans hle
    · exact le_add_of_nonneg_right (by positivity)
  have hfinite := (isFinite_mul_iff hx.isFinite hy.isFinite).mpr hlt
  obtain ⟨s, m, e, hm, hpartsx⟩ := hx.exists_parts
  obtain ⟨t, n, f, hn, hpartsy⟩ := hy.exists_parts
  have herror := abs_value_mul_sub_le hpartsx hpartsy (by rwa [habs]) hfinite
  rw [habs] at herror
  refine ⟨hfinite, ?_, ?_⟩
  · rw [← value_one.2] at hone ⊢
    exact (isNearest_mul hpartsx hpartsy hfinite).le_value value_one.1 hone
  · calc value (x * y) ≤ value x * value y + value x * value y / 2 ^ 53 :=
          sub_le_iff_le_add'.mp ((le_abs_self _).trans herror)
      _ = value x * value y * (1 + 1 / 2 ^ 53) := by ring
      _ ≤ p * q * (1 + 1 / 2 ^ 53) := mul_le_mul_of_nonneg_right hle (by positivity)

end FromOneTo

def powerSteps (n bits : ℕ) : Float × Float :=
  (List.range bits).foldl
    (fun pair bit => (if n.testBit bit then pair.1 * pair.2 else pair.1, pair.2 * pair.2)) (1, 10)

private theorem powerOfTen_eq (n : ℕ) : powerOfTen n = (powerSteps n 9).1 := rfl

private theorem powerSteps_succ (n bits : ℕ) :
    powerSteps n (bits + 1) =
      (if n.testBit bits then (powerSteps n bits).1 * (powerSteps n bits).2 else (powerSteps n bits).1,
        (powerSteps n bits).2 * (powerSteps n bits).2) := by
  rw [powerSteps, List.range_succ, List.foldl_concat]
  rfl

private theorem mul_ten_pow_lt_overflowThreshold : (17 : ℚ) * 10 ^ 307 < overflowThreshold := by
  have hten : (10 : ℚ) ^ 307 = 10 ^ 154 * 10 ^ 153 := pow_add 10 154 153
  have htwo : (2 : ℚ) ^ 971 = 2 ^ 243 * 2 ^ 243 * 2 ^ 243 * 2 ^ 242 := by
    rw [← pow_add, ← pow_add, ← pow_add]
  rw [overflowThreshold, two_zpow_mostBinaryExponent, Nat.cast_pow, Nat.cast_ofNat, hten, htwo]
  norm_num

def roundedTen : ℚ := 10 * (1 + 1 / 2 ^ 53)

private theorem one_le_roundedTen : 1 ≤ roundedTen := by
  unfold roundedTen
  norm_num

private theorem roundedTen_pow_le {n : ℕ} (hn : n ≤ 308) : roundedTen ^ n ≤ 10 ^ n * (11 / 10) := by
  rw [roundedTen, mul_pow]
  gcongr
  calc (1 + 1 / 2 ^ 53 : ℚ) ^ n ≤ (1 + 1 / 2 ^ 53) ^ (154 * 2) := by
        gcongr
        exact le_add_of_nonneg_right (by positivity)
    _ ≤ 11 / 10 := by
      rw [pow_mul]
      norm_num

private theorem roundedTen_pow_lt_overflowThreshold {n : ℕ} (hn : n ≤ 308) :
    roundedTen ^ n < overflowThreshold := by
  refine lt_of_le_of_lt ?_ mul_ten_pow_lt_overflowThreshold
  calc roundedTen ^ n ≤ roundedTen ^ 308 := pow_le_pow_right₀ one_le_roundedTen hn
    _ ≤ 10 ^ 308 * (11 / 10) := roundedTen_pow_le le_rfl
    _ = 10 ^ 307 * (10 * (11 / 10)) := by rw [pow_succ, mul_assoc]
    _ ≤ 10 ^ 307 * 17 := by
      gcongr
      norm_num
    _ = 17 * 10 ^ 307 := mul_comm _ _

/-- The bound of the square after so many bits: as many tens, with a rounding less. -/
private def squareBound (bits : ℕ) : ℚ := roundedTen ^ 2 ^ bits / (1 + 1 / 2 ^ 53)

private theorem squareBound_zero : squareBound 0 = 10 := by
  rw [squareBound, pow_zero, pow_one, roundedTen, mul_div_assoc, div_self (by positivity), mul_one]

private theorem mul_squareBound (q : ℚ) (bits : ℕ) :
    q * squareBound bits * (1 + 1 / 2 ^ 53) = q * roundedTen ^ 2 ^ bits := by
  rw [squareBound, mul_assoc, div_mul_cancel₀ _ (by positivity)]

private theorem squareBound_succ (bits : ℕ) :
    squareBound bits * squareBound bits * (1 + 1 / 2 ^ 53) = squareBound (bits + 1) := by
  rw [mul_squareBound, squareBound, squareBound, div_mul_eq_mul_div, ← pow_add, ← two_mul,
    ← pow_succ']

private theorem squareBound_lt_overflowThreshold {bits : ℕ} (hbits : bits ≤ 8) :
    squareBound bits < overflowThreshold := by
  have hpow : 2 ^ bits ≤ 308 := (Nat.pow_le_pow_right two_pos hbits).trans (by norm_num)
  refine lt_of_le_of_lt (div_le_self ?_ ?_) (roundedTen_pow_lt_overflowThreshold hpow)
  · exact pow_nonneg (zero_le_one.trans one_le_roundedTen) _
  · exact le_add_of_nonneg_right (by positivity)

private theorem powerSteps_square (n : ℕ) {bits : ℕ} (hbits : bits ≤ 8) :
    FromOneTo (squareBound bits) (powerSteps n bits).2 := by
  induction bits with
  | zero => exact (fromOneTo_ofNat (n := 10) (by decide) (by norm_num)).mono squareBound_zero.ge
  | succ bits ih =>
    have hsquare := ih (Nat.le_of_succ_le hbits)
    have hroom := squareBound_lt_overflowThreshold hbits
    rw [← squareBound_succ] at hroom ⊢
    rw [powerSteps_succ]
    exact hsquare.mul hsquare hroom

/-- The product has been rounded at most once for each ten in it. -/
theorem powerSteps_product {n bits : ℕ} (hn : n ≤ 308) (hbits : bits ≤ 9) :
    FromOneTo (roundedTen ^ (n % 2 ^ bits)) (powerSteps n bits).1 := by
  induction bits with
  | zero =>
    rw [pow_zero, Nat.mod_one, pow_zero]
    exact (fromOneTo_ofNat (n := 1) (by decide) (by norm_num)).mono Nat.cast_one.le
  | succ bits ih =>
    have hproduct := ih (Nat.le_of_succ_le hbits)
    have hsquare := powerSteps_square n (Nat.le_of_succ_le_succ hbits)
    have hroom := roundedTen_pow_lt_overflowThreshold ((Nat.mod_le n (2 ^ (bits + 1))).trans hn)
    -- one more bit of the exponent: the product stays or takes in the square
    have hlow : n % 2 ^ (bits + 1) = n % 2 ^ bits + 2 ^ bits * (n.testBit bits).toNat := by
      rw [Nat.mod_pow_succ, Nat.toNat_testBit]
    rw [powerSteps_succ]
    cases hbit : n.testBit bits with
    | false =>
      rw [hbit, Bool.toNat_false, mul_zero, add_zero] at hlow
      rw [hlow, if_neg Bool.false_ne_true]
      exact hproduct
    | true =>
      rw [hbit, Bool.toNat_true, mul_one] at hlow
      rw [hlow, pow_add, ← mul_squareBound] at hroom ⊢
      rw [if_pos rfl]
      exact hproduct.mul hsquare hroom

/-- The powers of ten up to the largest that is a float, in float arithmetic. -/
theorem fromOneTo_powerOfTen {n : ℕ} (hn : n ≤ 308) :
    FromOneTo (10 ^ n * (11 / 10)) (powerOfTen n) := by
  have hproduct := powerSteps_product hn le_rfl
  rw [Nat.mod_eq_of_lt (by omega), ← powerOfTen_eq] at hproduct
  exact hproduct.mono (roundedTen_pow_le hn)

end Factor

/-- Rounding in decimal gives a finite float. -/
theorem isFinite_roundInDecimal {x y : Float} {places : ℕ} (h : roundInDecimal? x places = some y) :
    y.isFinite = true := by
  rw [roundInDecimal?] at h
  split at h
  · rename_i hrange
    obtain rfl := Option.some.inj h
    have hround := Decimal.roundsTo_roundTo (min places Decimal.maxPlaces)
      ((shortest Notation.plain.tieUp x).roundTo Decimal.maxPlaces)
    have hlt := Decimal.lt_overflowThreshold_of_roundsTo hround
      (by rw [Decimal.abs_value]; exact Decimal.inRange_iff.mp hrange)
    rw [← Decimal.value_unsignZero, Decimal.abs_value] at hlt
    exact (Decimal.isNearest_toFloat hlt).isFinite
  · cases h

/-- Scaling gives a finite float: a product that overflows is given up. -/
theorem isFinite_roundByScaling {x : Float} (hx : x.isFinite = true) {places : ℕ}
    (hplaces : places ≤ 308) : (roundByScaling x places).isFinite = true := by
  have hfactor := fromOneTo_powerOfTen hplaces
  obtain ⟨s, m, e, hm, hparts⟩ := hfactor.exists_parts
  rw [roundByScaling]
  split
  · rename_i hscaled
    refine isFinite_div (roundsTo_nearest hscaled).1 hparts ?_
    rw [← abs_value_of_parts hparts]
    exact hfactor.one_le.trans (le_abs_self _)
  · exact hx

section Multiple
variable {x : Float} (hx : x.isFinite = true)
include hx

private theorem roundPlaces_of_neg {precision : ℤ} (hprecision : precision < 0) :
    roundPlaces x precision = nearest (x / powerOfTen (min 308 precision.natAbs)) *
      powerOfTen (min 308 precision.natAbs) := by
  have hclamp : (max (-308) (min 308 precision)).natAbs = min 308 precision.natAbs := by omega
  rw [roundPlaces, hx]
  simp only [Bool.not_true, Bool.false_eq_true, if_false]
  rw [if_pos (by omega), hclamp]

private theorem nearest_quotient {n : ℕ} (hn : n ≤ 308) :
    (nearest (x / powerOfTen n)).isFinite = true ∧
      (∃ k : ℤ, value (nearest (x / powerOfTen n)) = k) ∧
      |value (nearest (x / powerOfTen n))| ≤
        max 1 (|value x / value (powerOfTen n)| * (1 + 1 / 2 ^ 53)) + 1 / 2 := by
  have hfactor := fromOneTo_powerOfTen hn
  obtain ⟨s, m, e, hm, hparts⟩ := hfactor.exists_parts
  have hone : 1 ≤ |value (powerOfTen n)| := hfactor.one_le.trans (le_abs_self _)
  have hquotient : (x / powerOfTen n).isFinite = true :=
    isFinite_div hx hparts (by rwa [← abs_value_of_parts hparts])
  have hle := abs_value_div_le hx hparts hone
  obtain ⟨hfinite, ⟨k, hk⟩, hclose, -⟩ := roundsTo_nearest hquotient
  rw [pow_zero, div_one] at hk hclose
  refine ⟨hfinite, ⟨k, hk⟩, ?_⟩
  have := abs_sub_abs_le_abs_sub (value (nearest (x / powerOfTen n))) (value (x / powerOfTen n))
  linarith

private theorem abs_multiple_le {n : ℕ} (hn : n ≤ 308) :
    |value (nearest (x / powerOfTen n)) * value (powerOfTen n)| ≤
      3 / 2 * value (powerOfTen n) + |value x| * (1 + 1 / 2 ^ 53) := by
  obtain ⟨-, -, hnear⟩ := nearest_quotient hx hn
  have hpos : 0 < value (powerOfTen n) := (fromOneTo_powerOfTen hn).pos
  rw [abs_div, abs_of_pos hpos] at hnear
  have hmax : max 1 (|value x| / value (powerOfTen n) * (1 + 1 / 2 ^ 53)) ≤
      1 + |value x| / value (powerOfTen n) * (1 + 1 / 2 ^ 53) :=
    max_le_add_of_nonneg zero_le_one (by positivity)
  rw [abs_mul, abs_of_pos hpos]
  calc |value (nearest (x / powerOfTen n))| * value (powerOfTen n)
      ≤ (1 + |value x| / value (powerOfTen n) * (1 + 1 / 2 ^ 53) + 1 / 2) * value (powerOfTen n) :=
        mul_le_mul_of_nonneg_right (hnear.trans (add_le_add_left hmax _)) hpos.le
    _ = 3 / 2 * value (powerOfTen n) + |value x| * (1 + 1 / 2 ^ 53) := by
      field_simp
      ring

private theorem abs_multiple_lt_of_lt {n : ℕ} (hn : n ≤ 307)
    (hsmall : |value x| ≤ 3 / 2 * 10 ^ 308) :
    |value (nearest (x / powerOfTen n)) * value (powerOfTen n)| < overflowThreshold := by
  have hunit : value (powerOfTen n) ≤ 10 ^ 307 * (11 / 10) :=
    (fromOneTo_powerOfTen (hn.trans (by decide))).le_bound.trans <|
      mul_le_mul_of_nonneg_right (pow_le_pow_right₀ (by norm_num) hn) (by norm_num)
  rw [pow_succ 10 307] at hsmall
  refine lt_of_le_of_lt (abs_multiple_le hx (hn.trans (by decide))) ?_
  refine lt_of_le_of_lt ?_ mul_ten_pow_lt_overflowThreshold
  have hten : (0 : ℚ) < 10 ^ 307 := by positivity
  generalize (10 : ℚ) ^ 307 = unit at *
  linarith

private theorem abs_multiple_lt_of_eq (hsmall : |value x| ≤ 3 / 2 * 10 ^ 308) :
    |value (nearest (x / powerOfTen 308)) * value (powerOfTen 308)| < overflowThreshold := by
  have hfactor := fromOneTo_powerOfTen (n := 308) le_rfl
  obtain ⟨-, ⟨k, hk⟩, hnear⟩ := nearest_quotient hx (n := 308) le_rfl
  have hleast : 10 ^ 308 * (1 + 1 / 2 ^ 51) ≤ value (powerOfTen 308) := by decide +kernel
  have hpos := hfactor.pos
  have hten : (0 : ℚ) < 10 ^ 308 := by positivity
  have hquotient : |value x / value (powerOfTen 308)| * (1 + 1 / 2 ^ 53) < 3 / 2 := by
    rw [abs_div, abs_of_pos hpos, div_mul_eq_mul_div, div_lt_iff₀ hpos]
    generalize (10 : ℚ) ^ 308 = unit at hten hsmall hleast
    linarith
  have honce : |k| ≤ 1 := by
    have hlt : |(k : ℚ)| < 2 := by
      rw [← hk]
      refine lt_of_le_of_lt hnear ?_
      have := max_lt (by norm_num : (1 : ℚ) < 3 / 2) hquotient
      linarith
    have hlt' : |k| < 2 := by exact_mod_cast hlt
    omega
  have hlast : value (powerOfTen 308) < overflowThreshold := by
    obtain ⟨s, m, e, hm, hparts⟩ := hfactor.exists_parts
    rw [← abs_of_pos hpos, abs_value_of_parts hparts]
    exact lt_overflowThreshold_of_parts hparts
  rw [hk, abs_mul, abs_of_pos hpos]
  refine lt_of_le_of_lt (mul_le_of_le_one_left hpos.le ?_) hlast
  exact_mod_cast honce

/-- The multiple of a power of ten that a value goes to is in range for values up to
`1.5 * 10 ^ 308`. -/
private theorem abs_multiple_lt {n : ℕ} (hn : n ≤ 308) (hsmall : |value x| ≤ 3 / 2 * 10 ^ 308) :
    |value (nearest (x / powerOfTen n)) * value (powerOfTen n)| < overflowThreshold := by
  rcases Nat.lt_or_eq_of_le hn with hlt | rfl
  · exact abs_multiple_lt_of_lt hx (Nat.le_of_lt_succ hlt) hsmall
  · exact abs_multiple_lt_of_eq hx hsmall

end Multiple

/-- Where rounding to places stays finite: for all values up to `1.5 * 10 ^ 308`, and for all others
at decimal places, however many. At tens, hundreds and so on it does exactly where the whole number
of units that the value goes to, times the unit, is below what is rounded to an infinity. -/
theorem isFinite_roundPlaces_iff {x : Float} (hx : x.isFinite = true) (precision : ℤ) :
    (|value x| ≤ 3 / 2 * 10 ^ 308 → (roundPlaces x precision).isFinite = true) ∧
      let factor := powerOfTen (min 308 precision.natAbs)
      ((roundPlaces x precision).isFinite = true ↔
        0 ≤ precision ∨ |value (nearest (x / factor)) * value factor| < overflowThreshold) := by
  have hfactor : (powerOfTen (min 308 precision.natAbs)).isFinite = true :=
    (fromOneTo_powerOfTen (min_le_left _ _)).isFinite
  have hiff : (roundPlaces x precision).isFinite = true ↔ 0 ≤ precision ∨
      |value (nearest (x / powerOfTen (min 308 precision.natAbs))) *
        value (powerOfTen (min 308 precision.natAbs))| < overflowThreshold := by
    rcases le_or_gt 0 precision with hprecision | hprecision
    · refine iff_of_true ?_ (.inl hprecision)
      rw [roundPlaces_eq hx hprecision]
      cases hdecimal : roundInDecimal? x (min 308 precision).toNat with
      | none => exact isFinite_roundByScaling hx (by omega)
      | some y => exact isFinite_roundInDecimal hdecimal
    · have hnearest := (nearest_quotient hx (min_le_left 308 precision.natAbs)).1
      rw [roundPlaces_of_neg hx hprecision, isFinite_mul_iff hnearest hfactor]
      exact (or_iff_right (not_le.mpr hprecision)).symm
  exact ⟨fun hsmall => hiff.mpr (.inr (abs_multiple_lt hx (min_le_left _ _) hsmall)), hiff⟩

/-- A value that goes up by half of a large unit. -/
theorem isFinite_roundPlaces_of_half :
    (15000000000000000000 : Float).isFinite = true ∧
      |value 15000000000000000000| ≤ 3 / 2 * 10 ^ 308 ∧
      (roundPlaces 15000000000000000000 (-19)).isFinite = true := by
  have hrange : 15000000000000000000 ≤ 2 ^ 64 := by norm_num
  have hfits : FitsMantissa 15000000000000000000 := ⟨18, by norm_num, by norm_num⟩
  have hfinite : (15000000000000000000 : Float).isFinite = true := isFinite_ofNat hrange
  have hvalue : value 15000000000000000000 = (15000000000000000000 : ℕ) :=
    value_ofNat hrange hfits
  have hsmall : |value 15000000000000000000| ≤ 3 / 2 * 10 ^ 308 := by
    rw [hvalue, Nat.abs_cast]
    calc ((15000000000000000000 : ℕ) : ℚ) = 3 / 2 * 10 ^ 19 := by norm_num
      _ ≤ 3 / 2 * 10 ^ 308 := by
        gcongr <;> norm_num
  exact ⟨hfinite, hsmall, (isFinite_roundPlaces_iff hfinite (-19)).1 hsmall⟩

/-- The largest float is the one nearest to a multiple of a million. Still it overflows when it is
rounded to millions. -/
theorem roundPlaces_overflows :
    (1.7976931348623157e308 : Float).isFinite = true ∧
      (roundPlaces 1.7976931348623157e308 (-6)).isFinite = false := by
  decide +kernel

end PriceFormula.Number
