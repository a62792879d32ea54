import PriceFormula.Proofs.Number.Arithmetic

/-! How far rounding moves a number: by half a unit of the float it is rounded to, which is a part
in `2 ^ 53` of a number that is not subnormal. -/

namespace PriceFormula.Number

open Float.Model UnpackedFloat

section Rounded
variable {q : ℚ} {s t : Sign} {m : ℕ} {e : ℤ} {hm : 0 < m}

/-- The mantissa is that of the number at its exponent, or a carry of the same value. -/
theorem mantissaOf_mul_of_rounded (h : rounded s q = .finite t m e hm) :
    (m : ℚ) * 2 ^ e = mantissaOf q * 2 ^ exponentOf q := by
  unfold rounded at h
  split at h
  · cases h
  · split at h
    · rename_i hcarry
      obtain ⟨-, rfl, rfl⟩ := UnpackedFloat.finite.inj h
      rw [hcarry, zpow_add_one₀ two_ne_zero]
      push_cast
      ring
    · obtain ⟨-, rfl, rfl⟩ := UnpackedFloat.finite.inj h
      rfl

/-- A number that is not subnormal grows by at most a part in `2 ^ 53`. -/
theorem rounded_le (hq : 0 < q) (hnormal : exponentOf q ≠ -1074)
    (h : rounded s q = .finite t m e hm) : (m : ℚ) * 2 ^ e ≤ q * (1 + 1 / 2 ^ 53) := by
  have hhalf := abs_le.mp (abs_mantissaOf_sub_le hq)
  have hfull := le_div_exponentOf hq hnormal
  calc (m : ℚ) * 2 ^ e = mantissaOf q * 2 ^ exponentOf q := mantissaOf_mul_of_rounded h
    _ ≤ q / 2 ^ exponentOf q * (1 + 1 / 2 ^ 53) * 2 ^ exponentOf q := by
      gcongr
      linarith
    _ = q * (1 + 1 / 2 ^ 53) := by field_simp

private theorem le_of_rounded (hq : 0 < q) (h : rounded s q = .finite t m e hm) :
    q ≤ (m + 1 / 2) * 2 ^ e := by
  have hhalf := abs_le.mp (abs_mantissaOf_sub_le hq)
  have hvalue := mantissaOf_mul_of_rounded h
  have hexponent : (2 : ℚ) ^ exponentOf q ≤ 2 ^ e := by
    refine zpow_le_zpow_right₀ (by norm_num) ?_
    unfold rounded at h
    split at h
    · cases h
    · split at h <;> obtain ⟨-, -, rfl⟩ := UnpackedFloat.finite.inj h <;> omega
  calc q = q / 2 ^ exponentOf q * 2 ^ exponentOf q := by field_simp
    _ ≤ (mantissaOf q + 1 / 2) * 2 ^ exponentOf q := by
      gcongr
      linarith
    _ = m * 2 ^ e + 1 / 2 * 2 ^ exponentOf q := by rw [hvalue]; ring
    _ ≤ m * 2 ^ e + 1 / 2 * 2 ^ e := by gcongr
    _ = (m + 1 / 2) * 2 ^ e := by ring

end Rounded

/-- A number from one up is not rounded to zero. -/
theorem exists_rounded {q : ℚ} (hone : 1 ≤ q) (s : Sign) :
    ∃ m e, ∃ hm : 0 < m, rounded s q = .finite s m e hm ∧ exponentOf q ≠ -1074 := by
  have hq : 0 < q := lt_of_lt_of_le one_pos hone
  have hlog : 0 ≤ Int.log 2 q :=
    (Int.zpow_le_iff_le_log (b := 2) (by decide) hq).mp (by exact_mod_cast hone)
  have hnormal : exponentOf q ≠ -1074 := by
    unfold exponentOf
    omega
  have hzero : mantissaOf q ≠ 0 := by
    have := le_mantissaOf hq hnormal
    omega
  unfold rounded
  rw [dif_neg hzero]
  split
  · exact ⟨2 ^ 52, exponentOf q + 1, by decide, rfl, hnormal⟩
  · exact ⟨mantissaOf q, exponentOf q, Nat.pos_of_ne_zero hzero, rfl, hnormal⟩

theorem packed_of_large {m : ℕ} {e : ℤ} {hm : 0 < m} (h : mostBinaryExponent < e) (s : Sign) :
    packed (.finite s m e hm) = packed (.infinity s) := by
  unfold packed Float.Model.pack
  simp only [pack_overflow hm h]

section Floats
variable {q : ℚ} {s t : Sign} {m : ℕ} {e : ℤ} {hm : 0 < m}

/-- A rounding that packs to a finite float is what this float holds. -/
theorem parts_packed_rounded (hq : 0 < q) (hrounded : rounded s q = .finite t m e hm)
    (hfinite : (parts (packed (rounded s q))).isFinite = true) :
    parts (packed (rounded s q)) = .finite t m e hm := by
  rw [hrounded] at hfinite ⊢
  rcases Int.lt_or_le mostBinaryExponent e with hlarge | hle
  · rw [packed_of_large hlarge] at hfinite
    cases t <;> cases hfinite
  · exact parts_packed (canonical_of_rounded hq hrounded) hle

/-- A number from one up to the threshold is rounded to a float hardly above it. -/
theorem exists_parts_packed_rounded (hone : 1 ≤ q) (h : q < overflowThreshold) (s : Sign) :
    ∃ m e, ∃ hm : 0 < m, parts (packed (rounded s q)) = .finite s m e hm ∧
      (m : ℚ) * 2 ^ e ≤ q * (1 + 1 / 2 ^ 53) := by
  have hq : 0 < q := lt_of_lt_of_le one_pos hone
  obtain ⟨m, e, hm, hrounded, hnormal⟩ := exists_rounded hone s
  exact ⟨m, e, hm, parts_packed_rounded hq hrounded (isFinite_packed_rounded hq h s),
    rounded_le hq hnormal hrounded⟩

/-- A number from one up is not rounded below one. -/
theorem one_le_of_parts_packed_rounded (hone : 1 ≤ q)
    (h : parts (packed (rounded s q)) = .finite t m e hm) : 1 ≤ (m : ℚ) * 2 ^ e := by
  have hq : 0 < q := lt_of_lt_of_le one_pos hone
  have hlog : 0 ≤ Int.log 2 q :=
    (Int.zpow_le_iff_le_log (b := 2) (by decide) hq).mp (by exact_mod_cast hone)
  have hexponent : -52 ≤ exponentOf q := by
    unfold exponentOf
    omega
  have hmantissa : (2 ^ 52 : ℚ) ≤ mantissaOf q := by
    exact_mod_cast le_mantissaOf hq (by omega)
  cases hrounded : rounded s q with
  | finite u n f hn =>
    have hparts := parts_packed_rounded hq hrounded (by rw [h]; rfl)
    obtain ⟨rfl, rfl, rfl⟩ := UnpackedFloat.finite.inj (hparts.symm.trans h)
    rw [mantissaOf_mul_of_rounded hrounded]
    calc (1 : ℚ) = 2 ^ 52 * 2 ^ (-52 : ℤ) := by norm_num
      _ ≤ mantissaOf q * 2 ^ exponentOf q := by
        gcongr
        norm_num
  | zero u =>
    rw [hrounded] at h
    cases u <;> cases h
  | infinity u =>
    rw [hrounded] at h
    cases u <;> cases h
  | notANumber =>
    rw [hrounded] at h
    cases h

/-- A number lies at most half a unit above the float it is rounded to. -/
theorem le_of_parts_packed_rounded (hq : 0 < q)
    (h : parts (packed (rounded s q)) = .finite t m e hm) : q ≤ (m + 1 / 2) * 2 ^ e := by
  cases hrounded : rounded s q with
  | finite u n f hn =>
    have hparts := parts_packed_rounded hq hrounded (by rw [h]; rfl)
    obtain ⟨rfl, rfl, rfl⟩ := UnpackedFloat.finite.inj (hparts.symm.trans h)
    exact le_of_rounded hq hrounded
  | zero u =>
    rw [hrounded] at h
    cases u <;> cases h
  | infinity u =>
    rw [hrounded] at h
    cases u <;> cases h
  | notANumber =>
    rw [hrounded] at h
    cases h

theorem lt_overflowThreshold_of_parts {x : Float} (h : parts x = .finite s m e hm) :
    (m : ℚ) * 2 ^ e < overflowThreshold := by
  obtain ⟨hcanonical, hexponent⟩ := canonical_of_parts h
  have hmantissa : (m : ℚ) + 1 ≤ 2 ^ 53 := by exact_mod_cast Nat.succ_le_of_lt hcanonical.lt
  calc (m : ℚ) * 2 ^ e ≤ (2 ^ 53 - 1) * 2 ^ mostBinaryExponent := by
        gcongr
        · linarith
        · norm_num
    _ < overflowThreshold := by
      unfold overflowThreshold
      gcongr
      norm_num

/-- A finite float divided by one that is not below one is finite. -/
theorem isFinite_div {x y : Float} (hx : x.isFinite = true) (hy : parts y = .finite s m e hm)
    (hone : 1 ≤ (m : ℚ) * 2 ^ e) : (x / y).isFinite = true := by
  have hdiv : x / y = packed (UnpackedFloat.div Format.binary64 (parts x) (parts y)) := rfl
  have hfinite : (parts x).isFinite = true := hx
  cases hparts : parts x with
  | notANumber => rw [hparts] at hfinite; cases hfinite
  | infinity u => rw [hparts] at hfinite; cases hfinite
  | zero u =>
    have hzero : UnpackedFloat.div Format.binary64 (.zero u) (.finite s m e hm) =
        .zero (u / s) := rfl
    rw [hdiv, hparts, hy, hzero]
    cases u / s <;> rfl
  | finite u n f hn =>
    rw [div_eq_packed hparts hy]
    refine isFinite_packed_rounded (by positivity) ?_ _
    exact (div_le_self (by positivity) hone).trans_lt (lt_overflowThreshold_of_parts hparts)

end Floats

end PriceFormula.Number
