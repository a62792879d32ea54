import PriceFormula.Proofs.Number.Whole

/-! Floats that are whole numbers. Their shortest decimals have no digits behind the point, because
the search comes to all the digits up to the point before it goes on to places behind it. -/

namespace PriceFormula.Number

open Float.Model UnpackedFloat

/-- Finite floats of the same value are equal, up to the sign of a zero. -/
theorem beq_of_value_eq {x y : Float} (hx : x.isFinite = true) (hy : y.isFinite = true)
    (h : value x = value y) : (x == y) = true := by
  have hbeq : (x == y) = (parts x).beq (parts y) := rfl
  have hpos {m : ℕ} {e : ℤ} (hm : 0 < m) : (0 : ℚ) < m * 2 ^ e := by positivity
  rw [hbeq]
  rcases finite_cases hx with ⟨s, hparts⟩ | ⟨s, m, e, hm, hparts⟩ <;>
    rcases finite_cases hy with ⟨t, hparts'⟩ | ⟨t, n, f, hn, hparts'⟩
  · rw [hparts, hparts']
    rfl
  · have habs := abs_value_of_parts hparts'
    rw [← h, value_of_zero hparts, abs_zero] at habs
    exact absurd habs (hpos hn).ne
  · have habs := abs_value_of_parts hparts
    rw [h, value_of_zero hparts', abs_zero] at habs
    exact absurd habs (hpos hm).ne
  · have habs : (m : ℚ) * 2 ^ e = n * 2 ^ f := by
      rw [← abs_value_of_parts hparts, ← abs_value_of_parts hparts', h]
    have hsign : s = t := by
      rw [value_of_parts hparts, value_of_parts hparts', ← habs] at h
      have := hpos (e := e) hm
      cases s <;> cases t <;> simp only [withSign] at h <;> first | rfl | linarith
    have hsame := rounded_canonical (canonical_of_parts hparts).1 s hm
    rw [habs, hsign, rounded_canonical (canonical_of_parts hparts').1 t hn] at hsame
    rw [hparts, hparts', hsign, ← hsame]
    cases t <;> simp [UnpackedFloat.beq, UnpackedFloat.compare]

private theorem lt_pow_length_toDigits (n : ℕ) : n < 10 ^ (Nat.toDigits 10 n).length :=
  (Nat.length_toDigits_le_iff (by decide) Nat.length_toDigits_pos).mp le_rfl

section Places
variable {N num den : ℕ} (hN : 0 < N) (hden : 0 < den) (hnum : num = N * den)
include hN hden hnum

private theorem leadingExponent_whole :
    leadingExponent num den = (Nat.toDigits 10 N).length - 1 := by
  rw [leadingExponent, hnum, if_pos (Nat.le_mul_of_pos_left den hN), Nat.mul_div_cancel _ hden]

/-- With all the digits up to the point, a whole number that reads back is found. -/
theorem shortestWith_whole (tieUp : ℕ → Bool) {x : Float} (hx : (Decimal.mk false N 0).toFloat = x) :
    shortestWith tieUp x num den (Nat.toDigits 10 N).length ≠ none := by
  have hlength := Nat.length_toDigits_pos (b := 10) (n := N)
  have hexponent :
      leadingExponent num den - ((Nat.toDigits 10 N).length - 1 : ℕ) = 0 := by
    rw [leadingExponent_whole hN hden hnum]
    omega
  have hgrid : gridPoint (Nat.toDigits 10 N).length N 0 = ⟨false, N, 0⟩ :=
    if_neg (lt_pow_length_toDigits N).ne
  -- with as many places as digits before the point the grid is that of the whole numbers
  unfold shortestWith
  simp only [hexponent, lt_self_iff_false, if_false, Int.natAbs_zero, Nat.pow_eq, pow_zero, mul_one]
  rw [hnum, Nat.mul_div_cancel _ hden, hgrid, decide_eq_true hx]
  split <;> simp_all

end Places

private theorem findSome?_range_eq_some {α : Type} {f : ℕ → Option α} {n : ℕ} {b : α}
    (h : (List.range n).findSome? f = some b) : ∃ i, f i = some b ∧ ∀ k < i, f k = none := by
  obtain ⟨before, i, after, hrange, hi, hnone⟩ := List.findSome?_eq_some_iff.mp h
  have hget (k : ℕ) (hk : k < n) : (before ++ i :: after)[k]? = some k := by
    rw [← hrange]
    exact List.getElem?_range hk
  have hlength : before.length < n := by
    have := congrArg List.length hrange
    simp at this
    omega
  have hlast := hget before.length hlength
  rw [List.getElem?_append_right le_rfl, Nat.sub_self] at hlast
  obtain rfl := Option.some.inj hlast
  refine ⟨before.length, hi, fun k hk => hnone k ?_⟩
  have hmem := hget k (hk.trans hlength)
  rw [List.getElem?_append_left hk] at hmem
  exact List.mem_of_getElem? hmem

/-- A number that no mantissa holds has all its binary digits up to the point. -/
theorem exponent_nonneg_of_large {x : Float} {s : Sign} {m : ℕ} {e : ℤ} {hm : 0 < m}
    (h : parts x = .finite s m e hm) (hlarge : 2 ^ 53 ≤ |value x|) : 0 ≤ e := by
  by_contra hneg
  have hlt : (m : ℚ) < 2 ^ 53 := by exact_mod_cast (canonical_of_parts h).1.lt
  have hle : (m : ℚ) * 2 ^ e ≤ m :=
    mul_le_of_le_one_right (Nat.cast_nonneg m) (zpow_le_one_of_nonpos₀ (by norm_num) (by omega))
  rw [abs_value_of_parts h] at hlarge
  linarith

section Whole
variable {m N : ℕ} {e : ℤ} (hvalue : (m : ℚ) * 2 ^ e = N)
include hvalue

private theorem fraction_whole : (fraction m e).1 = N * (fraction m e).2 := by
  have hfraction := fraction_eq m e
  rw [hvalue] at hfraction
  exact_mod_cast hfraction

private theorem pos_of_whole (hm : 0 < m) : 0 < N := by
  have hpos : (0 : ℚ) < N := hvalue ▸ by positivity
  exact_mod_cast hpos

end Whole

section Finite
variable {x : Float} {s : Sign} {m : ℕ} {e : ℤ} {hm : 0 < m} (h : parts x = .finite s m e hm)
  {N : ℕ} (hvalue : (m : ℚ) * 2 ^ e = N)
include h hvalue

private theorem toFloat_whole : (Decimal.mk false N 0).toFloat = x.abs := by
  rw [← exactDecimal_reads_back h]
  refine Decimal.toFloat_congr rfl (exactDecimal_unsigned m e) ?_
  rw [exactDecimal_magnitude, hvalue, Decimal.magnitude, zpow_zero, mul_one]

private theorem shortestWith_length (tieUp : ℕ → Bool) :
    shortestWith tieUp x.abs (fraction m e).1 (fraction m e).2 ((Nat.toDigits 10 N).length - 1 + 1) ≠
      none := by
  rw [Nat.sub_add_cancel Nat.length_toDigits_pos]
  exact shortestWith_whole (pos_of_whole hvalue hm) (fraction_den_pos m e) (fraction_whole hvalue) tieUp
    (toFloat_whole h hvalue)

private theorem exponent_nonneg_of_found {tieUp : ℕ → Bool} {d : Decimal}
    (hfind : ((List.range 17).findSome? fun n =>
      shortestWith tieUp x.abs (fraction m e).1 (fraction m e).2 (n + 1)) = some d) :
    0 ≤ d.exponent := by
  obtain ⟨i, hi, hnone⟩ := findSome?_range_eq_some hfind
  have hlength := Nat.length_toDigits_pos (b := 10) (n := N)
  have hfirst : i ≤ (Nat.toDigits 10 N).length - 1 := by
    by_contra hlate
    exact shortestWith_length h hvalue tieUp (hnone _ (by omega))
  obtain ⟨count, rfl, -⟩ := exists_gridPoint_of_shortestWith hi
  refine le_trans ?_ (le_exponent_gridPoint _ _ _)
  rw [leadingExponent_whole (pos_of_whole hvalue hm) (fraction_den_pos m e) (fraction_whole hvalue)]
  omega

private theorem exponent_nonneg_of_missed {tieUp : ℕ → Bool}
    (hfind : ((List.range 17).findSome? fun n =>
      shortestWith tieUp x.abs (fraction m e).1 (fraction m e).2 (n + 1)) = none) :
    0 ≤ (exactDecimal m e).exponent := by
  have hlong : 2 ^ 53 ≤ N := by
    by_contra hshort
    have hle : (Nat.toDigits 10 N).length ≤ 16 :=
      (Nat.length_toDigits_le_iff (by decide) (by decide)).mpr (by omega)
    exact shortestWith_length h hvalue tieUp
      (List.findSome?_eq_none_iff.mp hfind _ (List.mem_range.mpr (by omega)))
  have hlarge : 2 ^ 53 ≤ |value x| := by
    rw [abs_value_of_parts h, hvalue]
    exact_mod_cast hlong
  rw [exactDecimal, if_pos (exponent_nonneg_of_large h hlarge)]

private theorem shortest_exponent_nonneg_of_parts (tieUp : ℕ → Bool) :
    0 ≤ (shortest tieUp x).exponent := by
  have hexponent : 0 ≤ (((List.range 17).findSome? fun n => shortestWith tieUp x.abs (fraction m e).1
      (fraction m e).2 (n + 1)).getD (exactDecimal m e)).exponent := by
    cases hfind : (List.range 17).findSome? fun n => shortestWith tieUp x.abs (fraction m e).1
      (fraction m e).2 (n + 1) with
    | some d => exact exponent_nonneg_of_found h hvalue hfind
    | none => exact exponent_nonneg_of_missed h hvalue hfind
  unfold shortest
  rw [h]
  cases s <;> exact hexponent

end Finite

/-- The shortest decimal of a whole number has no digits behind the point. -/
theorem shortest_exponent_nonneg {x : Float} (hx : x.isFinite = true) {n : ℤ} (hn : value x = n)
    (tieUp : ℕ → Bool) : 0 ≤ (shortest tieUp x).exponent := by
  rcases finite_cases hx with ⟨s, hparts⟩ | ⟨s, m, e, hm, hparts⟩
  · rw [shortest, hparts]
  · refine shortest_exponent_nonneg_of_parts hparts (N := n.natAbs) ?_ tieUp
    rw [← abs_value_of_parts hparts, hn, Nat.cast_natAbs, Int.cast_abs]

end PriceFormula.Number
