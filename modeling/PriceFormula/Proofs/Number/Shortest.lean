import PriceFormula.Number.Notation
import PriceFormula.Proofs.Number.Reading
import PriceFormula.Proofs.Number.Sign

namespace PriceFormula.Number

open Float.Model UnpackedFloat

private theorem gridPoint_unsigned (places count : ℕ) (exponent : ℤ) :
    (gridPoint places count exponent).negative = false := by
  rw [gridPoint]
  split <;> rfl

theorem le_exponent_gridPoint (places count : ℕ) (exponent : ℤ) :
    exponent ≤ (gridPoint places count exponent).exponent := by
  rw [gridPoint]
  split
  · exact Int.le_add_of_nonneg_right (Int.natCast_nonneg places)
  · exact le_refl exponent

/-- A decimal is only ever proposed after it was read back, and it is a point of the grid. -/
theorem exists_gridPoint_of_shortestWith {tieUp : ℕ → Bool} {x : Float} {num den places : ℕ}
    {d : Decimal} (h : shortestWith tieUp x num den places = some d) :
    ∃ count, d = gridPoint places count (leadingExponent num den - (places - 1 : ℕ)) ∧
      d.toFloat = x := by
  unfold shortestWith at h
  extract_lets exponent scaledNum scaledDen below lower upper upperNearer at h
  split at h
  · rename_i hlower hupper
    obtain rfl := Option.some.inj h
    split
    · exact ⟨_, rfl, of_decide_eq_true hupper⟩
    · exact ⟨_, rfl, of_decide_eq_true hlower⟩
  · rename_i hlower _
    obtain rfl := Option.some.inj h
    exact ⟨_, rfl, of_decide_eq_true hlower⟩
  · rename_i _ hupper
    obtain rfl := Option.some.inj h
    exact ⟨_, rfl, of_decide_eq_true hupper⟩
  · nomatch h

theorem exactDecimal_magnitude (m : ℕ) (e : ℤ) :
    (exactDecimal m e).magnitude = m * 2 ^ e := by
  unfold exactDecimal Decimal.magnitude
  split
  · rename_i he
    obtain ⟨n, rfl⟩ := Int.eq_ofNat_of_zero_le he
    simp [Nat.shiftLeft_eq]
  · rename_i he
    obtain ⟨n, hn⟩ := Int.eq_ofNat_of_zero_le (by omega : 0 ≤ -e)
    obtain rfl : e = -n := by omega
    have hten : (10 : ℚ) ^ n = 2 ^ n * 5 ^ n := by
      rw [← mul_pow]
      norm_num
    rw [neg_neg, Int.toNat_natCast, zpow_neg, zpow_neg, zpow_natCast, zpow_natCast, hten,
      Nat.pow_eq]
    push_cast
    field_simp

theorem exactDecimal_unsigned (m : ℕ) (e : ℤ) : (exactDecimal m e).negative = false := by
  rw [exactDecimal]
  split <;> rfl

section Finite
variable {x : Float} {s : Sign} {m : ℕ} {e : ℤ} {hm : 0 < m} (h : parts x = .finite s m e hm)
include h

theorem parts_abs : parts x.abs = .finite .positive m e hm := by
  obtain ⟨hcanonical, hlarge⟩ := canonical_of_parts h
  have habs : x.abs = packed (parts x).abs := rfl
  rw [habs, h]
  exact parts_packed hcanonical hlarge

theorem exactDecimal_reads_back : (exactDecimal m e).toFloat = x.abs := by
  have habs := parts_abs h
  have hpos : 0 < (exactDecimal m e).magnitude := by
    rw [exactDecimal_magnitude]
    positivity
  rw [Decimal.toFloat_eq_packed (exactDecimal_unsigned m e) hpos, exactDecimal_magnitude,
    rounded_canonical (canonical_of_parts habs).1 _ hm, ← eq_packed_of_parts habs]

/-- The shortest decimal is the sign and an unsigned decimal other than zero, which reads back as
the magnitude of the float. -/
theorem exists_shortest (tieUp : ℕ → Bool) :
    ∃ d : Decimal, d.negative = false ∧ 0 < d.magnitude ∧ d.toFloat = x.abs ∧
      shortest tieUp x = { d with negative := isNegative x } := by
  obtain ⟨d, hd, hsign, hfloat⟩ : ∃ d : Decimal,
      d = ((List.range 17).findSome? fun n => shortestWith tieUp x.abs (fraction m e).1
        (fraction m e).2 (n + 1)).getD (exactDecimal m e) ∧
      d.negative = false ∧ d.toFloat = x.abs := by
    cases hsome : (List.range 17).findSome? fun n =>
        shortestWith tieUp x.abs (fraction m e).1 (fraction m e).2 (n + 1) with
    | some d =>
      obtain ⟨n, -, hn⟩ := List.exists_of_findSome?_eq_some hsome
      obtain ⟨count, rfl, hfloat⟩ := exists_gridPoint_of_shortestWith hn
      exact ⟨_, rfl, gridPoint_unsigned _ _ _, hfloat⟩
    | none => exact ⟨_, rfl, exactDecimal_unsigned m e, exactDecimal_reads_back h⟩
  refine ⟨d, hsign, Decimal.magnitude_pos.mpr (Nat.pos_of_ne_zero fun hzero => ?_), hfloat, ?_⟩
  · have hdecimal : d = ⟨false, 0, d.exponent⟩ := by
      rw [← hsign, ← hzero]
    have hparts : parts x.abs = .zero .positive := by
      rw [← hfloat, hdecimal, Decimal.toFloat_zero]
      rfl
    rw [parts_abs h] at hparts
    nomatch hparts
  · unfold shortest isNegative
    rw [h]
    cases s with
    | negative => exact hd ▸ rfl
    | positive =>
      have hunsigned : { d with negative := false } = d := by rw [← hsign]
      simp only [hunsigned]
      exact hd.symm

end Finite

theorem abs_eq_of_positive {x : Float} {m : ℕ} {e : ℤ} {hm : 0 < m}
    (h : parts x = .finite .positive m e hm) : x.abs = x := by
  have habs : x.abs = packed (parts x).abs := rfl
  rw [habs, h]
  exact (eq_packed_of_parts h).symm

section IsFinite
variable {x : Float} (hx : x.isFinite = true)
include hx

/-- A finite float is its magnitude with its sign, which zeros have as well. -/
theorem signed_abs : (if isNegative x then -x.abs else x.abs) = x := by
  have habs : x.abs = packed (parts x).abs := rfl
  have hneg : -x.abs = packed (parts x.abs).neg := rfl
  rw [isFinite_eq] at hx
  unfold isNegative
  cases hparts : parts x with
  | notANumber => rw [hparts] at hx; cases hx
  | infinity s => rw [hparts] at hx; cases hx
  | zero s =>
    rw [hparts] at habs
    rw [eq_packed_of_parts_zero hparts] at habs ⊢
    cases s with
    | positive => exact habs
    | negative =>
      rw [if_pos rfl, habs]
      rfl
  | finite s m e hm =>
    cases s with
    | positive => exact abs_eq_of_positive hparts
    | negative =>
      rw [if_pos rfl, hneg, parts_abs hparts]
      exact (eq_packed_of_parts hparts).symm

/-- The shortest decimal of a finite float is its sign and an unsigned decimal that reads back as
its magnitude. -/
theorem exists_shortest_of_isFinite (tieUp : ℕ → Bool) :
    ∃ d : Decimal, d.negative = false ∧ d.toFloat = x.abs ∧
      shortest tieUp x = { d with negative := isNegative x } := by
  rw [isFinite_eq] at hx
  cases hparts : parts x with
  | notANumber => rw [hparts] at hx; cases hx
  | infinity s => rw [hparts] at hx; cases hx
  | zero s =>
    have habs : x.abs = packed (parts x).abs := rfl
    refine ⟨⟨false, 0, 0⟩, rfl, ?_, ?_⟩
    · rw [Decimal.toFloat_zero, habs, hparts]
      rfl
    · rw [shortest, hparts]
  | finite s m e hm =>
    obtain ⟨d, hsign, -, hfloat, hshortest⟩ := exists_shortest hparts tieUp
    exact ⟨d, hsign, hfloat, hshortest⟩

/-- The shortest decimal reads back. -/
theorem toFloat_shortest (tieUp : ℕ → Bool) : (shortest tieUp x).toFloat = x := by
  obtain ⟨d, hsign, hfloat, hshortest⟩ := exists_shortest_of_isFinite hx tieUp
  have hsigned := signed_abs hx
  rwa [hshortest, Decimal.toFloat_signed hsign, hfloat]

end IsFinite

/-- Only zero is written with the digit zero, and then without a power of ten. -/
theorem shortest_exponent_eq_zero (tieUp : ℕ → Bool) (x : Float)
    (hzero : (shortest tieUp x).digits = 0) : (shortest tieUp x).exponent = 0 := by
  cases hparts : parts x with
  | finite s m e hm =>
    obtain ⟨d, -, hpos, -, hshortest⟩ := exists_shortest hparts tieUp
    have hd := Decimal.magnitude_pos.mp hpos
    rw [hshortest] at hzero
    exact absurd hzero hd.ne'
  | _ =>
    rw [shortest, hparts]

end PriceFormula.Number

namespace PriceFormula.Notation

/-- A finite float is written as its shortest decimal. -/
theorem toList_text (style : Notation) {x : Float} (hx : x.isFinite = true) :
    (style.text x).toList = style.decimalText (Number.shortest style.tieUp x) := by
  have hnan : x.isNaN = false := by
    rw [Number.isFinite_eq] at hx
    change (Number.parts x).isNaN = false
    cases h : Number.parts x <;> rw [h] at hx <;> first | rfl | nomatch hx
  have hinf : x.isInf = false := by
    rw [Number.isFinite_eq] at hx
    change (Number.parts x).isInf = false
    cases h : Number.parts x <;> rw [h] at hx <;> first | rfl | nomatch hx
  rw [text, hnan, hinf, if_neg Bool.false_ne_true, if_neg Bool.false_ne_true, String.toList_ofList]

end PriceFormula.Notation
