import PriceFormula.Proofs.Json.Readings

/-! Every written float can be read. The magnitude that is read may lie next to the float that was
written, but it never leaves the finite floats: within the limit of scaling because no factor is
rounded far enough, and for the two largest floats by their digits. -/

namespace PriceFormula.Json

open Float.Model UnpackedFloat Number

section Positive
variable {x : Float} {m : ℕ} {e : ℤ} {hm : 0 < m} (h : parts x = .finite .positive m e hm)
include h

/-- A decimal of a float below the two largest ones is within the limit of scaling. -/
theorem magnitude_le_scaleLimit {d : Decimal} (hsign : d.negative = false) (hpos : 0 < d.magnitude)
    (hd : d.toFloat = x) (hsmall : e < mostBinaryExponent ∨ m + 3 ≤ 2 ^ 53) :
    d.magnitude ≤ scaleLimit := by
  obtain ⟨hcanonical, hexponent⟩ := canonical_of_parts h
  rw [← hd, Decimal.toFloat_eq_packed hsign hpos] at h
  refine (le_of_parts_packed_rounded hpos h).trans ?_
  rw [scaleLimit]
  rcases hsmall with hlower | hmantissa
  · have hm : (m : ℚ) + 1 ≤ 2 ^ 53 := by exact_mod_cast Nat.succ_le_of_lt hcanonical.lt
    calc ((m : ℚ) + 1 / 2) * 2 ^ e ≤ 2 ^ 53 * 2 ^ (mostBinaryExponent - 1) := by
          gcongr
          · linarith
          · norm_num
          · omega
      _ = 2 ^ 52 * 2 ^ mostBinaryExponent := by
          rw [zpow_sub_one₀ two_ne_zero]
          ring
      _ ≤ (2 ^ 53 - 5 / 2) * 2 ^ mostBinaryExponent := by
          gcongr
          norm_num
  · have hm : (m : ℚ) + 3 ≤ 2 ^ 53 := by exact_mod_cast hmantissa
    exact mul_le_mul (by linarith only [hm]) (zpow_le_zpow_right₀ (by norm_num) hexponent)
      (by positivity) (by norm_num)

end Positive

def largestDigits : List String := ["7976931348623157", "7976931348623155"]

private def largestParts (i : Fin 2) :
    NumberParts := ⟨['1'], some largestDigits[i].toList, some 308⟩

private theorem wellFormed_largestParts (i : Fin 2) : (largestParts i).WellFormed := by
  have hdigits : ∀ i : Fin 2, largestDigits[i].toList ≠ [] ∧
      largestDigits[i].toList.all Char.isDigit = true := by
    decide +kernel
  refine ⟨List.cons_ne_nil _ _, by simp [largestParts], fun _ => rfl, ?_, ?_⟩
  · rintro _ ⟨⟩
    exact (hdigits i).1
  · rintro _ ⟨⟩
    exact List.all_eq_true.mp (hdigits i).2

private theorem written_largestParts : ∀ i : Fin 2,
    writtenFloat (packed (.finite .positive (2 ^ 53 - 1 - i) mostBinaryExponent (by omega))) =
        (largestParts i).text ∧
      (magnitude? ['1'] largestDigits[i].toList 308).isSome = true := by
  decide +kernel

/-- Every positive float is written as a number that has a magnitude. -/
theorem exists_readsAs {x : Float} (hx : x.isFinite = true) (hpos : 0 < x) :
    ∃ y, ReadsAs magnitude? x y := by
  obtain ⟨m, e, hm, hparts⟩ := finite_positive_iff.mp ⟨hx, hpos⟩
  obtain ⟨hcanonical, hexponent⟩ := canonical_of_parts hparts
  by_cases hsmall : e < mostBinaryExponent ∨ m + 3 ≤ 2 ^ 53
  · obtain ⟨p, hlays, hmagnitude, hvalue, htext⟩ := exists_writtenFloat_positive hx hpos
    obtain ⟨y, hy⟩ := Option.isSome_iff_exists.mp <| isSome_magnitude? <|
      magnitude_le_scaleLimit hparts rfl hmagnitude hvalue hsmall
    exact ⟨y, p, hlays.wellFormed, hlays.isFloat, htext, hy⟩
  · obtain ⟨hlarge, hfull⟩ := not_or.mp hsmall
    obtain rfl : e = mostBinaryExponent := by omega
    have hlt := hcanonical.lt
    obtain ⟨i, rfl⟩ : ∃ i : Fin 2, m = 2 ^ 53 - 1 - i :=
      ⟨⟨2 ^ 53 - 1 - m, by omega⟩, by simp only; omega⟩
    obtain ⟨htext, hsome⟩ := written_largestParts i
    obtain ⟨y, hy⟩ := Option.isSome_iff_exists.mp hsome
    rw [eq_packed_of_parts hparts]
    exact ⟨y, largestParts i, wellFormed_largestParts i, .inr (Option.some_ne_none _), htext, hy⟩

end PriceFormula.Json
