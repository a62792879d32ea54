import PriceFormula.Proofs.Number.Integral
import PriceFormula.Proofs.Number.Places

/-! Whole numbers under rounding to decimal places. In decimal they stay. Scaled up and down again
they may move, by the error of one product and one quotient. -/

namespace PriceFormula.Number

open Float.Model UnpackedFloat

/-- A number to which a smaller float is nearest is smaller itself. -/
theorem IsNearest.lt_of_value_lt {x y : Float} {q : ℚ} (h : IsNearest x q) (hy : y.isFinite = true)
    (hlt : value x < value y) : q < value y := by
  by_contra hle
  rw [not_lt] at hle
  have hclosest := h.closest y hy
  rw [abs_of_nonpos (by linarith), abs_of_nonpos (by linarith)] at hclosest
  linarith

section Parts
variable {x y : Float} {s t : Sign} {m n : ℕ} {e f : ℤ} {hm : 0 < m} {hn : 0 < n}
  (hx : parts x = .finite s m e hm) (hy : parts y = .finite t n f hn)
include hx hy

/-- A product is the nearest float. -/
theorem isNearest_mul (hfinite : (x * y).isFinite = true) :
    IsNearest (x * y) (value x * value y) := by
  rw [mul_eq_packed hx hy] at hfinite ⊢
  have hnearest := isNearest_packed_rounded (by positivity) hfinite
  rwa [withSign_mul, ← value_of_parts hx, ← value_of_parts hy] at hnearest

/-- A quotient is the nearest float. -/
theorem isNearest_div (hfinite : (x / y).isFinite = true) :
    IsNearest (x / y) (value x / value y) := by
  rw [div_eq_packed hx hy] at hfinite ⊢
  have hnearest := isNearest_packed_rounded (by positivity) hfinite
  rwa [withSign_div, ← value_of_parts hx, ← value_of_parts hy] at hnearest

/-- A product that is not small is the exact one up to a part in `2 ^ 53`. -/
theorem abs_value_mul_sub_le (hlarge : 1 ≤ |value x * value y|) (hfinite : (x * y).isFinite = true) :
    |value (x * y) - value x * value y| ≤ |value x * value y| / 2 ^ 53 := by
  have habs : |value x * value y| = m * 2 ^ e * (n * 2 ^ f) := by
    rw [abs_mul, abs_value_of_parts hx, abs_value_of_parts hy]
  have hproduct : value x * value y = withSign (s * t) (m * 2 ^ e * (n * 2 ^ f)) := by
    rw [withSign_mul, ← value_of_parts hx, ← value_of_parts hy]
  rw [habs] at hlarge ⊢
  rw [mul_eq_packed hx hy] at hfinite ⊢
  rw [hproduct]
  generalize (m : ℚ) * 2 ^ e * (n * 2 ^ f) = q at *
  have hq : 0 < q := by linarith
  have hnormal : exponentOf q ≠ -1074 := by
    have hlog : 0 ≤ Int.log 2 q :=
      (Int.zpow_le_iff_le_log (by decide) hq).mp (by exact_mod_cast hlarge)
    unfold exponentOf
    omega
  rw [(value_packed_rounded hq hfinite).1, withSign_sub, abs_withSign]
  exact abs_roundedValue_sub_le_div hq hnormal

private theorem two_pow_le_abs_value_mul (hlarge : 2 ^ 96 ≤ |value x * value y|)
    (hfinite : (x * y).isFinite = true) : 2 ^ 53 ≤ |value (x * y)| := by
  have herror := abs_value_mul_sub_le hx hy (le_trans (by norm_num) hlarge) hfinite
  have hclose := abs_sub_abs_le_abs_sub (value x * value y) (value (x * y))
  rw [abs_sub_comm] at hclose
  generalize |value (x * y) - value x * value y| = error at *
  linarith

/-- Scaling up and down again moves a number by at most a part in `2 ^ 52`: the quotient is no
farther from the exact one than the number itself is. -/
private theorem abs_value_mul_div_sub_le (hxone : 1 ≤ |value x|) (hyone : 1 ≤ |value y|)
    (hfinite : (x * y).isFinite = true) :
    (x * y / y).isFinite = true ∧ |value (x * y / y) - value x| ≤ |value x| / 2 ^ 52 := by
  have hquotient : (x * y / y).isFinite = true :=
    isFinite_div hfinite hy (by rwa [← abs_value_of_parts hy])
  have hlarge : 1 ≤ |value x * value y| := by
    rw [abs_mul]
    exact one_le_mul_of_one_le_of_one_le hxone hyone
  have herror := abs_value_mul_sub_le hx hy hlarge hfinite
  have hypos : 0 < |value y| := by linarith
  have hyne : value y ≠ 0 := abs_pos.mp hypos
  have hback : |value (x * y) / value y - value x| ≤ |value x| / 2 ^ 53 := by
    have hsplit : value (x * y) / value y - value x =
        (value (x * y) - value x * value y) / value y := by
      field_simp
    rw [hsplit, abs_div, div_le_iff₀ hypos]
    rwa [abs_mul, mul_div_right_comm] at herror
  have hne : value (x * y) ≠ 0 := by
    intro hzero
    rw [hzero, zero_sub, abs_neg] at herror
    linarith
  obtain ⟨u, k, g, hk, hparts⟩ := exists_parts_of_value_ne_zero hfinite hne
  -- `x` is a float, so the float nearest to the quotient is at least as near to it as `x`
  have hclosest := (isNearest_div hparts hy hquotient).closest x (isFinite_of_parts hx)
  rw [abs_sub_comm (value x)] at hclosest
  refine ⟨hquotient, ?_⟩
  calc |value (x * y / y) - value x|
      ≤ |value (x * y / y) - value (x * y) / value y| + |value (x * y) / value y - value x| :=
        abs_sub_le _ _ _
    _ ≤ |value x| / 2 ^ 53 + |value x| / 2 ^ 53 := by linarith
    _ = |value x| / 2 ^ 52 := by ring

private theorem value_mul_div_of_one (hone : value y = 1) (hfinite : (x * y).isFinite = true)
    (hquotient : (x * y / y).isFinite = true) : value (x * y / y) = value x := by
  have hproduct := isNearest_mul hx hy hfinite
  rw [hone, mul_one] at hproduct
  have hsame := hproduct.value_eq (isFinite_of_parts hx) rfl
  have hne : value (x * y) ≠ 0 := by
    rw [hsame, ← abs_pos, abs_value_of_parts hx]
    positivity
  obtain ⟨u, k, g, hk, hparts⟩ := exists_parts_of_value_ne_zero hfinite hne
  have hback := isNearest_div hparts hy hquotient
  rw [hone, div_one, hsame] at hback
  exact hback.value_eq (isFinite_of_parts hx) rfl

end Parts

def FromOne (x : Float) : Prop :=
  parts x = .infinity .positive ∨
    ∃ m e, ∃ hm : 0 < m, parts x = .finite .positive m e hm ∧ 1 ≤ (m : ℚ) * 2 ^ e

private theorem fromOne_packed_rounded {q : ℚ} (hone : 1 ≤ q) :
    FromOne (packed (rounded .positive q)) := by
  have hq : 0 < q := by linarith
  obtain ⟨m, e, hm, hrounded, -⟩ := exists_rounded hone .positive
  rcases Int.lt_or_le mostBinaryExponent e with hlarge | hle
  · left
    rw [hrounded, packed_of_large hlarge]
    rfl
  · have hparts : parts (packed (rounded .positive q)) = .finite .positive m e hm := by
      rw [hrounded]
      exact parts_packed (canonical_of_rounded hq hrounded) hle
    exact .inr ⟨m, e, hm, hparts, one_le_of_parts_packed_rounded hone hparts⟩

private theorem FromOne.mul {x y : Float} (hx : FromOne x) (hy : FromOne y) : FromOne (x * y) := by
  have hmul : x * y = packed (UnpackedFloat.mul Format.binary64 (parts x) (parts y)) := rfl
  have hinfinite (h : UnpackedFloat.mul Format.binary64 (parts x) (parts y) = .infinity .positive) :
      FromOne (x * y) := by
    left
    rw [hmul, h]
    rfl
  rcases hx with hx | ⟨m, e, hm, hx, hxone⟩ <;> rcases hy with hy | ⟨n, f, hn, hy, hyone⟩
  · exact hinfinite (by rw [hx, hy]; rfl)
  · exact hinfinite (by rw [hx, hy]; rfl)
  · exact hinfinite (by rw [hx, hy]; rfl)
  · rw [mul_eq_packed hx hy]
    exact fromOne_packed_rounded (one_le_mul_of_one_le_of_one_le hxone hyone)

private theorem fromOne_of_isWhole {x : Float} {n : ℕ} (h : isWhole x n = true) (hn : 0 < n) :
    FromOne x := by
  obtain ⟨m, e, hm, hparts, hvalue⟩ := exists_parts_of_isWhole h
  refine .inr ⟨m, e, hm, hparts, ?_⟩
  rw [hvalue]
  exact_mod_cast hn

/-- Multiplying and squaring does not lead below one. -/
theorem fromOne_powerOfTen (n : ℕ) : FromOne (powerOfTen n) := by
  have hfold (bits : List ℕ) : ∀ product square, FromOne product → FromOne square →
      FromOne (bits.foldl (fun (pair : Float × Float) bit =>
        (if n.testBit bit then pair.1 * pair.2 else pair.1, pair.2 * pair.2))
        (product, square)).1 := by
    induction bits with
    | nil => exact fun _ _ hproduct _ => hproduct
    | cons bit bits ih =>
      intro product square hproduct hsquare
      rw [List.foldl_cons]
      refine ih _ _ ?_ (hsquare.mul hsquare)
      split
      · exact hproduct.mul hsquare
      · exact hproduct
  exact hfold _ _ _ (fromOne_of_isWhole (n := 1) (by decide +kernel) (by decide))
    (fromOne_of_isWhole (n := 10) (by decide +kernel) (by decide))

private theorem exists_parts_powerOfTen {x : Float} {s : Sign} {m : ℕ} {e : ℤ} {hm : 0 < m}
    (hx : parts x = .finite s m e hm) {places : ℕ}
    (hscaled : (x * powerOfTen places).isFinite = true) :
    ∃ n f, ∃ hn : 0 < n, parts (powerOfTen places) = .finite .positive n f hn ∧
      1 ≤ |value (powerOfTen places)| := by
  rcases fromOne_powerOfTen places with hinfinite | ⟨n, f, hn, hparts, hone⟩
  · have hmul : x * powerOfTen places =
        packed (UnpackedFloat.mul Format.binary64 (parts x) (parts (powerOfTen places))) := rfl
    have hproduct : UnpackedFloat.mul Format.binary64 (.finite s m e hm) (.infinity .positive) =
        .infinity (s * .positive) := rfl
    rw [hmul, hx, hinfinite, hproduct] at hscaled
    cases s <;> cases hscaled
  · exact ⟨n, f, hn, hparts, by rwa [abs_value_of_parts hparts]⟩

theorem nearest_of_whole {x : Float} {s : Sign} {m : ℕ} {e : ℤ} {hm : 0 < m}
    (h : parts x = .finite s m e hm) (he : 0 ≤ e) : nearest x = x := by
  unfold nearest mapMagnitude
  rw [h]
  exact if_pos he

private theorem roundByScaling_of_large {x : Float} (hx : x.isFinite = true)
    (hlarge : 2 ^ 96 ≤ |value x|)
    {places : ℕ} (hscaled : (x * powerOfTen places).isFinite = true) :
    roundByScaling x places = x * powerOfTen places / powerOfTen places ∧
      (roundByScaling x places).isFinite = true ∧
      |value (roundByScaling x places) - value x| ≤ |value x| / 2 ^ 52 := by
  have hone : 1 ≤ |value x| := le_trans (by norm_num) hlarge
  obtain ⟨s, m, e, hm, hparts⟩ := exists_parts_of_value_ne_zero hx (abs_pos.mp (by linarith))
  obtain ⟨n, f, hn, hfactor, hfactorOne⟩ := exists_parts_powerOfTen hparts hscaled
  generalize hy : powerOfTen places = y at *
  have hproduct : 2 ^ 96 ≤ |value x * value y| := by
    rw [abs_mul]
    exact hlarge.trans (le_mul_of_one_le_right (abs_nonneg _) hfactorOne)
  have hwhole := two_pow_le_abs_value_mul hparts hfactor hproduct hscaled
  obtain ⟨u, k, g, hk, hscaledParts⟩ :=
    exists_parts_of_value_ne_zero hscaled (abs_pos.mp (by linarith))
  have hback : roundByScaling x places = x * y / y := by
    rw [roundByScaling]
    simp only [hy]
    rw [if_pos hscaled,
      nearest_of_whole hscaledParts (exponent_nonneg_of_large hscaledParts hwhole)]
  rw [hback]
  exact ⟨rfl, abs_value_mul_div_sub_le hparts hfactor hone hfactorOne hscaled⟩

section Whole
variable {x : Float} (hx : x.isFinite = true) {n : ℤ} (hn : value x = n)
include hx

private theorem value_unsignZero_shortest (tieUp : ℕ → Bool) :
    (shortest tieUp x).unsignZero.toFloat.isFinite = true ∧
      value (shortest tieUp x).unsignZero.toFloat = value x := by
  rcases finite_cases hx with ⟨s, hparts⟩ | ⟨s, m, e, hm, hparts⟩
  · have hzero : (shortest tieUp x).unsignZero.toFloat = packed (.zero .positive) := by
      rw [shortest, hparts]
      exact Decimal.toFloat_zero 0
    rw [hzero, value_of_zero hparts]
    exact ⟨rfl, value_of_zero (s := .positive) rfl⟩
  · obtain ⟨d, -, hpos, -, hshortest⟩ := exists_shortest hparts tieUp
    have hdigits : (shortest tieUp x).digits ≠ 0 := by
      rw [hshortest]
      exact (Decimal.magnitude_pos.mp hpos).ne'
    rw [Decimal.unsignZero, if_neg hdigits, toFloat_shortest hx]
    exact ⟨hx, rfl⟩

include hn

/-- A decimal without digits behind the point is not rounded. -/
theorem roundInDecimal_whole (places : ℕ) :
    roundInDecimal? x places =
      if (shortest Notation.plain.tieUp x).inRange then
        some (shortest Notation.plain.tieUp x).unsignZero.toFloat
      else none := by
  have hkept (places : ℕ) : (shortest Notation.plain.tieUp x).roundTo places =
      shortest Notation.plain.tieUp x := by
    have hexponent := shortest_exponent_nonneg hx hn Notation.plain.tieUp
    exact Decimal.roundTo_of_le (by omega)
  rw [roundInDecimal?]
  simp only [hkept]

/-- Whole numbers below ninety-six bits are in the decimal range: what reads back as a number below a
float is below this float. -/
private theorem inRange_whole (hsmall : |n| < 2 ^ 96) :
    (shortest Notation.plain.tieUp x).inRange = true := by
  obtain ⟨d, hsign, hfloat, hshortest⟩ := exists_shortest_of_isFinite hx Notation.plain.tieUp
  have hexponent := shortest_exponent_nonneg hx hn Notation.plain.tieUp
  have hnearest : IsNearest d.toFloat d.magnitude :=
    Decimal.isNearest_toFloat_unsigned hsign (hfloat ▸ isFinite_abs hx)
  have hlimit : parts (packed (.finite .positive (2 ^ 52) 44 (by decide))) =
      .finite .positive (2 ^ 52) 44 (by decide) :=
    parts_packed ⟨by decide, by decide, fun _ => le_rfl⟩ (by decide)
  have hvalue : value (packed (.finite .positive (2 ^ 52) 44 (by decide))) = 2 ^ 96 := by
    rw [value_of_parts hlimit, withSign]
    norm_num
  have hbelow : d.magnitude < 2 ^ 96 := by
    rw [← hvalue]
    refine hnearest.lt_of_value_lt (isFinite_of_parts hlimit) ?_
    rw [hfloat, value_abs hx, hn, hvalue]
    exact_mod_cast hsmall
  rw [hshortest] at hexponent ⊢
  exact Decimal.inRange_of_lt hexponent hbelow

end Whole

/-- Rounding to decimal places, on whole numbers. Those below ninety-six bits stay, and so do those
that overflow when they are scaled up, and all of them at no places. Of the others each either stays
or is what scaling up and down again makes of it, which is finite and off by at most a part in
`2 ^ 52`. -/
theorem roundPlaces_whole {x : Float} (hx : x.isFinite = true) {n : ℤ} (hn : value x = n)
    {precision : ℤ} (hprecision : 0 ≤ precision) :
    let factor := powerOfTen (min 308 precision).toNat
    (|n| < 2 ^ 96 ∨ precision = 0 ∨ (x * factor).isFinite = false →
      (roundPlaces x precision == x) = true) ∧
    ((roundPlaces x precision == x) = true ∨ roundPlaces x precision = x * factor / factor) ∧
    (roundPlaces x precision).isFinite = true ∧
    |value (roundPlaces x precision) - n| ≤ |(n : ℚ)| / 2 ^ 52 := by
  intro factor
  have hstays {y : Float} (hy : y.isFinite = true) (hvalue : value y = value x) :
      (y == x) = true ∧ y.isFinite = true ∧ |value y - n| ≤ |(n : ℚ)| / 2 ^ 52 := by
    refine ⟨beq_of_value_eq hy hx hvalue, hy, ?_⟩
    rw [hvalue, hn, sub_self, abs_zero]
    positivity
  rw [roundPlaces_eq hx hprecision, roundInDecimal_whole hx hn]
  by_cases hrange : (shortest Notation.plain.tieUp x).inRange = true
  · rw [if_pos hrange, Option.getD_some]
    obtain ⟨hfinite, hvalue⟩ := value_unsignZero_shortest hx Notation.plain.tieUp
    obtain ⟨hsame, hbound⟩ := hstays hfinite hvalue
    exact ⟨fun _ => hsame, .inl hsame, hbound⟩
  rw [if_neg hrange, Option.getD_none]
  -- beyond the decimal range the value is scaled up and down again
  have hlarge : 2 ^ 96 ≤ |n| := by
    by_contra hsmall
    exact hrange (inRange_whole hx hn (by omega))
  cases hscaled : (x * factor).isFinite with
  | false =>
    have hkept : roundByScaling x (min 308 precision).toNat = x := by
      rw [roundByScaling]
      exact if_neg (by rw [hscaled]; exact Bool.false_ne_true)
    rw [hkept]
    obtain ⟨hsame, hbound⟩ := hstays hx rfl
    exact ⟨fun _ => hsame, .inl hsame, hbound⟩
  | true =>
    have hlargeValue : 2 ^ 96 ≤ |value x| := by
      rw [hn]
      exact_mod_cast hlarge
    obtain ⟨hback, hfinite, herror⟩ := roundByScaling_of_large hx hlargeValue hscaled
    rw [hn] at herror
    refine ⟨fun hcase => ?_, .inr hback, hfinite, herror⟩
    rcases hcase with hsmall | rfl | hover
    · omega
    · have hone : value factor = 1 := by decide +kernel
      have hne : value x ≠ 0 := abs_pos.mp (by linarith)
      obtain ⟨s, m, e, hm, hparts⟩ := exists_parts_of_value_ne_zero hx hne
      obtain ⟨k, f, hk, hfactor, -⟩ := exists_parts_powerOfTen hparts hscaled
      refine beq_of_value_eq hfinite hx ?_
      rw [hback]
      exact value_mul_div_of_one hparts hfactor hone hscaled (hback ▸ hfinite)
    · cases hover

/-- A number that overflows when it is scaled up stays. -/
theorem roundPlaces_of_overflow :
    (-1e307 : Float).isFinite = true ∧ value (-1e307) = integerPart (-1e307) ∧
      (roundPlaces (-1e307) 300 == -1e307) = true := by
  have hfinite : (-1e307 : Float).isFinite = true := by decide +kernel
  have hwhole : value (-1e307) = integerPart (-1e307) := by decide +kernel
  obtain ⟨hsame, -⟩ := roundPlaces_whole hfinite hwhole (by decide : (0 : ℤ) ≤ 300)
  exact ⟨hfinite, hwhole, hsame (.inr (.inr (by decide +kernel)))⟩

/-- A whole number that moves when it is scaled up by thirteen places and down again. -/
theorem roundPlaces_moves_whole :
    value 2.5323415004217858e61 = (25323415004217858410885926725726722181611320933927787002068992 : ℤ) ∧
      (roundPlaces 2.5323415004217858e61 13 == 2.5323415004217858e61) = false ∧
      roundPlaces 2.5323415004217858e61 13 = 2.532341500421786e61 := by
  decide +kernel

end PriceFormula.Number
