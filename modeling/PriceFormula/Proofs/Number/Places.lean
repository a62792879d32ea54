import PriceFormula.Number.Rounding
import PriceFormula.Proofs.Expr.Numerals
import PriceFormula.Proofs.Number.Closest

/-! Rounding to decimal places. The shortest decimal of a value is rounded as a number, and the
result is the float nearest to that. -/

namespace PriceFormula

/-- A number rounded to decimal places: the multiple of the unit within half a unit, and on a tie the
one that is farther from zero. -/
structure RoundsTo (places : ℕ) (x r : ℚ) : Prop where
  multiple : ∃ k : ℤ, r = k / 10 ^ places
  close : |r - x| ≤ 1 / 10 ^ places / 2
  away : |r - x| = 1 / 10 ^ places / 2 → |x| < |r|

namespace RoundsTo
variable {places : ℕ} {x r r' : ℚ}

theorem neg (h : RoundsTo places x r) : RoundsTo places (-x) (-r) := by
  obtain ⟨⟨k, hk⟩, hclose, haway⟩ := h
  have hdistance : |-r - -x| = |r - x| := by
    rw [neg_sub_neg, abs_sub_comm]
  refine ⟨⟨-k, ?_⟩, ?_, ?_⟩
  · rw [hk, Int.cast_neg, neg_div]
  · rwa [hdistance]
  · rwa [hdistance, abs_neg, abs_neg]

/-- Rounding to places is rounding a count of units to a whole number of them. -/
theorem of_units {q : ℚ} (hq : 0 ≤ q) {c : ℕ} (hclose : |c - q| ≤ 1 / 2)
    (haway : |c - q| = 1 / 2 → q < c) (places : ℕ) :
    RoundsTo places (q / 10 ^ places) (c / 10 ^ places) := by
  have hpos : (0 : ℚ) < 10 ^ places := by positivity
  have hdistance : |c / 10 ^ places - q / 10 ^ places| = |c - q| / 10 ^ places := by
    rw [← sub_div, abs_div, abs_of_pos hpos]
  have hhalf : (1 : ℚ) / 10 ^ places / 2 = 1 / 2 / 10 ^ places := div_right_comm _ _ _
  refine ⟨⟨c, by rw [Int.cast_natCast]⟩, ?_, ?_⟩
  · rw [hdistance, hhalf, div_le_div_iff_of_pos_right hpos]
    exact hclose
  · rw [hdistance, hhalf, div_left_inj' hpos.ne']
    intro htie
    rw [abs_of_nonneg (by positivity), abs_of_nonneg (by positivity),
      div_lt_div_iff_of_pos_right hpos]
    exact haway htie

/-- Two roundings would be half a unit away on both sides. Of these the one nearer to zero is not
farther from it than the number. -/
theorem le (h : RoundsTo places x r) (h' : RoundsTo places x r') : r' ≤ r := by
  by_contra hlt
  rw [not_le] at hlt
  obtain ⟨⟨k, rfl⟩, hclose, haway⟩ := h
  obtain ⟨⟨k', rfl⟩, hclose', haway'⟩ := h'
  have hpos : (0 : ℚ) < 10 ^ places := by positivity
  have hunit : (0 : ℚ) < 1 / 10 ^ places := by positivity
  have hgap : (k : ℚ) / 10 ^ places + 1 / 10 ^ places ≤ k' / 10 ^ places := by
    rw [← add_div, div_le_div_iff_of_pos_right hpos]
    rw [div_lt_div_iff_of_pos_right hpos] at hlt
    exact_mod_cast hlt
  have hlow := (abs_le.mp hclose).1
  have hhigh := (abs_le.mp hclose').2
  have hbelow : (k : ℚ) / 10 ^ places - x = -(1 / 10 ^ places / 2) := by linarith
  have habove : (k' : ℚ) / 10 ^ places - x = 1 / 10 ^ places / 2 := by linarith
  have hhalf : (0 : ℚ) < 1 / 10 ^ places / 2 := by positivity
  rw [hbelow, abs_neg, abs_of_pos hhalf] at haway
  rw [habove, abs_of_pos hhalf] at haway'
  rcases Int.lt_or_le k 0 with hneg | hnonneg
  · have hr' : (k' : ℚ) / 10 ^ places ≤ 0 := by
      have hsucc : ((k + 1 : ℤ) : ℚ) / 10 ^ places ≤ 0 :=
        div_nonpos_of_nonpos_of_nonneg (by exact_mod_cast hneg) hpos.le
      rw [Int.cast_add, Int.cast_one, add_div] at hsucc
      linarith
    have hfar := haway' rfl
    rw [abs_of_nonpos hr', abs_of_nonpos (by linarith)] at hfar
    linarith
  · have hr : 0 ≤ (k : ℚ) / 10 ^ places := div_nonneg (by exact_mod_cast hnonneg) hpos.le
    have hfar := haway rfl
    rw [abs_of_nonneg hr, abs_of_nonneg (by linarith)] at hfar
    linarith

/-- There is one rounding. -/
theorem unique (h : RoundsTo places x r) (h' : RoundsTo places x r') : r' = r :=
  le_antisymm (h.le h') (h'.le h)

end RoundsTo

namespace Decimal

/-- Counting in units and halves: the quotient that is rounded up from a half on. -/
theorem rounded_quotient (n : ℕ) {unit : ℕ} (hunit : 0 < unit) :
    |(((2 * n + unit) / (2 * unit) : ℕ) : ℚ) - n / unit| ≤ 1 / 2 ∧
      (|(((2 * n + unit) / (2 * unit) : ℕ) : ℚ) - n / unit| = 1 / 2 →
        (n : ℚ) / unit < ((2 * n + unit) / (2 * unit) : ℕ)) := by
  have hlow := Nat.div_mul_le_self (2 * n + unit) (2 * unit)
  have hhigh := Nat.lt_div_mul_add (a := 2 * n + unit) (b := 2 * unit) (by omega)
  generalize (2 * n + unit) / (2 * unit) = c at *
  have hpos : (0 : ℚ) < unit := Nat.cast_pos.mpr hunit
  have hle : (c : ℚ) ≤ n / unit + 1 / 2 := by
    rw [← sub_le_iff_le_add, le_div_iff₀ hpos]
    have : (c : ℚ) * (2 * unit) ≤ 2 * n + unit := by exact_mod_cast hlow
    linarith
  have hlt : (n : ℚ) / unit < c + 1 / 2 := by
    rw [div_lt_iff₀ hpos]
    have : (2 : ℚ) * n + unit < c * (2 * unit) + 2 * unit := by exact_mod_cast hhigh
    linarith
  refine ⟨abs_le.mpr ⟨by linarith, by linarith⟩, fun htie => ?_⟩
  rcases abs_eq (by norm_num) |>.mp htie with h | h
  · linarith
  · linarith

theorem abs_value (d : Decimal) : |d.value| = d.magnitude := by
  have hnonneg : 0 ≤ d.magnitude := by
    rw [magnitude]
    positivity
  rw [value]
  split
  · rw [abs_neg, abs_of_nonneg hnonneg]
  · exact abs_of_nonneg hnonneg

theorem roundTo_of_le {places : ℕ} {d : Decimal} (h : -(places : ℤ) ≤ d.exponent) :
    d.roundTo places = d := if_pos h

/-- The rounding of a decimal rounds its value. -/
theorem roundsTo_roundTo (places : ℕ) (d : Decimal) :
    RoundsTo places d.value (d.roundTo places).value := by
  suffices h : RoundsTo places d.magnitude (d.roundTo places).magnitude by
    have hsign : (d.roundTo places).negative = d.negative := by
      rw [roundTo]
      split <;> rfl
    rw [value, value, hsign]
    split
    · exact h.neg
    · exact h
  obtain ⟨negative, n, e⟩ := d
  by_cases hexact : -(places : ℤ) ≤ e
  · obtain ⟨k, hk⟩ := Int.le.dest hexact
    have hvalue : (Decimal.mk negative n e).magnitude = (n * 10 ^ k : ℕ) / 10 ^ places := by
      rw [magnitude, ← hk, zpow_add₀ (by norm_num), zpow_neg, zpow_natCast, zpow_natCast]
      push_cast
      field_simp
    rw [roundTo_of_le hexact, hvalue]
    refine .of_units (by positivity) ?_ (fun htie => ?_) places
    · rw [sub_self, abs_zero]
      norm_num
    · rw [sub_self, abs_zero] at htie
      exact absurd htie (by norm_num)
  · obtain ⟨k, hk⟩ := Int.le.dest (by omega : e ≤ -(places : ℤ))
    have hunits : (-(places : ℤ) - e).toNat = k := by omega
    have hround : (roundTo places ⟨negative, n, e⟩).magnitude =
        ((2 * n + 10 ^ k) / (2 * 10 ^ k) : ℕ) / 10 ^ places := by
      rw [roundTo, if_neg hexact, magnitude]
      simp only [hunits, zpow_neg, zpow_natCast, div_eq_mul_inv]
      rfl
    have hvalue : (Decimal.mk negative n e).magnitude = n / (10 ^ k : ℕ) / 10 ^ places := by
      have he : e = -(places : ℤ) - k := by omega
      rw [magnitude, he, zpow_sub₀ (by norm_num), zpow_neg, zpow_natCast, zpow_natCast]
      push_cast
      field_simp
    obtain ⟨hclose, haway⟩ := rounded_quotient n (by positivity : 0 < 10 ^ k)
    rw [hround, hvalue]
    exact .of_units (by positivity) hclose haway places

theorem inRange_iff {d : Decimal} : d.inRange = true ↔ d.magnitude ≤ maxMagnitude := by
  obtain ⟨negative, n, e⟩ := d
  rw [inRange, magnitude]
  split
  · rename_i he
    obtain ⟨k, rfl⟩ := Int.eq_ofNat_of_zero_le he
    rw [decide_eq_true_iff, Int.toNat_natCast, zpow_natCast]
    exact_mod_cast Iff.rfl
  · rename_i he
    obtain ⟨k, rfl⟩ := Int.exists_eq_neg_ofNat (Int.not_le.mp he).le
    rw [decide_eq_true_iff, neg_neg, Int.toNat_natCast, zpow_neg, zpow_natCast, ← div_eq_mul_inv,
      div_le_iff₀ (by positivity)]
    exact_mod_cast Iff.rfl

/-- Without digits behind the point, ninety-six bits are the whole range. -/
theorem inRange_of_lt {d : Decimal} (he : 0 ≤ d.exponent) (h : d.magnitude < 2 ^ 96) :
    d.inRange = true := by
  obtain ⟨k, hk⟩ := Int.eq_ofNat_of_zero_le he
  have hwhole : d.magnitude = (d.digits * 10 ^ k : ℕ) := by
    rw [magnitude, hk, zpow_natCast]
    push_cast
    rfl
  rw [inRange_iff, hwhole]
  rw [hwhole] at h
  have hnat : d.digits * 10 ^ k < 2 ^ 96 := by exact_mod_cast h
  have hmax : maxMagnitude = 2 ^ 96 - 1 := by decide
  exact Nat.cast_le.mpr (by omega)

theorem value_unsignZero (d : Decimal) : d.unsignZero.value = d.value := by
  rw [unsignZero]
  split
  · rename_i hzero
    have hmagnitude : d.magnitude = 0 := by rw [magnitude, hzero, Nat.cast_zero, zero_mul]
    change d.magnitude = _
    rw [value, hmagnitude]
    simp
  · rfl

/-- A number within the range is rounded to one within the range of floats. -/
theorem lt_overflowThreshold_of_roundsTo {places : ℕ} {x r : ℚ} (h : RoundsTo places x r)
    (hx : |x| ≤ maxMagnitude) : |r| < Number.overflowThreshold := by
  have hunit : (1 : ℚ) / 10 ^ places ≤ 1 := by
    rw [div_le_one (by positivity)]
    exact one_le_pow₀ (by norm_num)
  have hmax : (maxMagnitude : ℚ) + 1 ≤ 2 ^ (96 : ℤ) := by
    have : maxMagnitude + 1 ≤ 2 ^ 96 := by decide
    exact_mod_cast this
  calc |r| ≤ |x| + |r - x| := by
        have := abs_add_le x (r - x)
        rwa [add_sub_cancel] at this
    _ < maxMagnitude + 1 := by linarith [h.close]
    _ ≤ 2 ^ (96 : ℤ) := hmax
    _ ≤ Number.overflowThreshold := Number.two_zpow_le_overflowThreshold (by decide)

end Decimal

namespace Number

private theorem exists_roundInDecimal {x : Float} {d : Decimal}
    (hd : shortest Notation.plain.tieUp x = d)
    (hplaces : -(Decimal.maxPlaces : ℤ) ≤ d.exponent) (hmagnitude : d.magnitude ≤ Decimal.maxMagnitude)
    (places : ℕ) :
    ∃ y r, roundInDecimal? x places = some y ∧ RoundsTo (min places Decimal.maxPlaces) d.value r ∧
      IsNearest y r := by
  have hround := d.roundsTo_roundTo (min places Decimal.maxPlaces)
  refine ⟨(d.roundTo (min places Decimal.maxPlaces)).unsignZero.toFloat, _, ?_, hround, ?_⟩
  · rw [roundInDecimal?, hd]
    simp only [Decimal.roundTo_of_le hplaces]
    rw [if_pos (Decimal.inRange_iff.mpr hmagnitude)]
  · have hfinite := Decimal.lt_overflowThreshold_of_roundsTo hround (by rwa [Decimal.abs_value])
    rw [← Decimal.value_unsignZero, Decimal.abs_value] at hfinite
    rw [← Decimal.value_unsignZero]
    exact Decimal.isNearest_toFloat hfinite

/-- Rounding to places goes through decimals first, at no more than 308 places. -/
theorem roundPlaces_eq {x : Float} (hx : x.isFinite = true) {precision : ℤ}
    (hprecision : 0 ≤ precision) :
    roundPlaces x precision = (roundInDecimal? x (min 308 precision).toNat).getD
      (roundByScaling x (min 308 precision).toNat) := by
  have hclamp : max (-308) (min 308 precision) = min 308 precision := by omega
  rw [roundPlaces, hx]
  simp only [Bool.not_true, Bool.false_eq_true, if_false, hclamp]
  rw [if_neg (by omega)]

/-- Rounding is exact in decimal. A finite value has a text, and where this has at most twenty-eight
decimal places and is within ninety-six bits, the value rounded to places is the float nearest to the
one rounding of the text. Places beyond the twenty-eighth are not asked for. -/
theorem isNearest_roundPlaces {x : Float} (hx : x.isFinite = true) :
    ∃ d, Decimal.ofText? (Notation.plain.text x).toList = some d ∧
      (-28 ≤ d.exponent → d.magnitude ≤ 79228162514264337593543950335 →
        ∀ precision : ℤ, 0 ≤ precision →
          ∃ r, RoundsTo (min precision.toNat 28) d.value r ∧
            (∀ r', RoundsTo (min precision.toNat 28) d.value r' → r' = r) ∧
            IsNearest (roundPlaces x precision) r) := by
  obtain ⟨d, htext, hsign, hmagnitude, hexponent⟩ := Notation.exists_ofText?_plain hx
  refine ⟨d, htext, fun hplaces hrange precision hprecision => ?_⟩
  have hvalue : d.value = (shortest Notation.plain.tieUp x).value := by
    rw [Decimal.value, Decimal.value, hsign, hmagnitude]
  have hmax : (79228162514264337593543950335 : ℚ) = Decimal.maxMagnitude := by
    have : 79228162514264337593543950335 = Decimal.maxMagnitude := by decide
    exact_mod_cast this
  have hleast : -(Decimal.maxPlaces : ℤ) ≤ (shortest Notation.plain.tieUp x).exponent := by
    have : Decimal.maxPlaces = 28 := rfl
    omega
  rw [hmagnitude, hmax] at hrange
  obtain ⟨y, r, hround, hr, hnearest⟩ :=
    exists_roundInDecimal rfl hleast hrange (min 308 precision).toNat
  have hmin : min (min 308 precision).toNat Decimal.maxPlaces = min precision.toNat 28 := by
    have : Decimal.maxPlaces = 28 := rfl
    omega
  rw [hmin, ← hvalue] at hr
  refine ⟨r, hr, fun r' hr' => hr.unique hr', ?_⟩
  rw [roundPlaces_eq hx hprecision, hround]
  exact hnearest

/-- A negative tie that carries through nines. -/
theorem isNearest_roundPlaces_of_nines :
    (-0.9995 : Float).isFinite = true ∧
      Decimal.ofText? (Notation.plain.text (-0.9995)).toList = some ⟨true, 9995, -4⟩ ∧
      IsNearest (roundPlaces (-0.9995) 3) (-1) := by
  have hfinite : (-0.9995 : Float).isFinite = true := by decide +kernel
  have htext : Decimal.ofText? (Notation.plain.text (-0.9995)).toList = some ⟨true, 9995, -4⟩ := by
    decide +kernel
  obtain ⟨d, hd, hround⟩ := isNearest_roundPlaces hfinite
  obtain rfl := Option.some.inj (htext.symm.trans hd)
  have hvalue : Decimal.value ⟨true, 9995, -4⟩ = -9995 / 10000 := by
    norm_num [Decimal.value, Decimal.magnitude]
  have hone : RoundsTo 3 (-9995 / 10000) (-1) := by
    refine ⟨⟨-1000, by norm_num⟩, ?_, fun _ => ?_⟩
    · norm_num [abs_of_neg]
    · norm_num [abs_of_neg]
  obtain ⟨r, -, hunique, hnearest⟩ := hround (by decide) (by norm_num [Decimal.magnitude]) 3 (by decide)
  rw [hvalue] at hunique
  rw [← hunique (-1) hone] at hnearest
  exact ⟨hfinite, htext, hnearest⟩

end Number
end PriceFormula
