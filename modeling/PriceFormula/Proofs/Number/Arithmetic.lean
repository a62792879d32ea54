import PriceFormula.Proofs.Number.Packing

namespace PriceFormula.Number

open Float.Model UnpackedFloat

/-- Rounding a number that has at least as many bits as a float. -/
theorem roundWithAccuracy_exact {m : ℕ} {e : ℤ} (hm : 0 < m) (s : Sign)
    (he : e ≤ exponentOf (m * 2 ^ e)) :
    roundWithAccuracy Format.binary64 s m e .exact = rounded s (m * 2 ^ e) := by
  refine roundWithAccuracy_eq (by positivity) s ?_ he fun h => absurd h hm.ne'
  rw [mul_div_cancel_right₀ _ (by positivity)]
  exact ofMantissaAndAccuracy_exact m

private theorem le_exponentOf {m : ℕ} {e : ℤ} (hm : 0 < m) (h : e ≤ -1074 ∨ 2 ^ 52 ≤ m) :
    e ≤ exponentOf (m * 2 ^ e) := by
  rcases h with h | h
  · exact h.trans (le_max_right _ _)
  · have hexact : (m : ℚ) * 2 ^ e / 2 ^ e = m := mul_div_cancel_right₀ _ (by positivity)
    have hlog : Int.log 2 ((m : ℚ) * 2 ^ e) = m.log2 + e :=
      log_eq_log2_add hm.ne' hexact.ge (by rw [hexact]; exact lt_add_one _)
    have := (Nat.le_log2 hm.ne').mpr h
    refine le_trans ?_ (le_max_left _ _)
    omega

theorem mul_finite {s₁ s₂ : Sign} {m₁ m₂ : ℕ} {e₁ e₂ : ℤ} (h₁ : 0 < m₁) (h₂ : 0 < m₂)
    (h : e₁ + e₂ ≤ -1074 ∨ 2 ^ 52 ≤ m₁ * m₂) :
    UnpackedFloat.mul Format.binary64 (.finite s₁ m₁ e₁ h₁) (.finite s₂ m₂ e₂ h₂) =
      rounded (s₁ * s₂) (m₁ * 2 ^ e₁ * (m₂ * 2 ^ e₂)) := by
  have hvalue : (m₁ : ℚ) * 2 ^ e₁ * (m₂ * 2 ^ e₂) = (m₁ * m₂ : ℕ) * 2 ^ (e₁ + e₂) := by
    rw [zpow_add₀ two_ne_zero, Nat.cast_mul]
    ring
  have hpos := Nat.mul_pos h₁ h₂
  rw [hvalue, ← roundWithAccuracy_exact hpos _ (le_exponentOf hpos h)]
  rfl

private theorem le_log_fraction {a b : ℕ} (ha : 0 < a) (hb : 0 < b) (e : ℤ) :
    (a.log2 : ℤ) - (b.log2 + 1) + e ≤ Int.log 2 ((a : ℚ) / b * 2 ^ e) := by
  apply (Int.zpow_le_iff_le_log (by decide) (by positivity)).mp
  have hnum : ((2 ^ a.log2 : ℕ) : ℚ) ≤ a := by
    exact_mod_cast (Nat.le_log2 ha.ne').mp le_rfl
  have hden : (b : ℚ) ≤ ((2 ^ (b.log2 + 1) : ℕ) : ℚ) := by
    exact_mod_cast ((Nat.log2_lt hb.ne').mp (Nat.lt_succ_self _)).le
  push_cast at hnum hden
  have hsucc : (b.log2 : ℤ) + 1 = (b.log2 + 1 : ℕ) := by push_cast; rfl
  rw [Nat.cast_ofNat, zpow_add₀ two_ne_zero, zpow_sub₀ two_ne_zero, zpow_natCast, hsucc,
    zpow_natCast]
  gcongr

theorem div_finite {s₁ s₂ : Sign} {m₁ m₂ : ℕ} {e₁ e₂ : ℤ} (h₁ : 0 < m₁) (h₂ : 0 < m₂) :
    UnpackedFloat.div Format.binary64 (.finite s₁ m₁ e₁ h₁) (.finite s₂ m₂ e₂ h₂) =
      rounded (s₁ / s₂) (m₁ * 2 ^ e₁ / (m₂ * 2 ^ e₂)) := by
  have hvalue : (m₁ : ℚ) * 2 ^ e₁ / (m₂ * 2 ^ e₂) = m₁ / m₂ * 2 ^ (e₁ - e₂) := by
    rw [zpow_sub₀ two_ne_zero]
    field_simp
  have hpos : (0 : ℚ) < m₁ / m₂ * 2 ^ (e₁ - e₂) := by positivity
  have hlog := le_log_fraction h₁ h₂ (e₁ - e₂)
  -- the model divides at an exponent low enough to fill the mantissa
  obtain ⟨t, ht⟩ : ∃ t, t = min (e₁ - e₂)
      (max ((m₁.log2 : ℤ) + 1 + e₁ - (m₂.log2 + 1 + e₂) - 53) (-1074)) := ⟨_, rfl⟩
  obtain ⟨n, hn⟩ := Int.le.dest (by omega : t ≤ e₁ - e₂)
  have hdiv : UnpackedFloat.div Format.binary64 (.finite s₁ m₁ e₁ h₁) (.finite s₂ m₂ e₂ h₂) =
      roundWithAccuracy Format.binary64 (s₁ / s₂) (m₁ <<< n / m₂) t
        (accuracyOfFraction (m₁ <<< n % m₂) m₂) := by
    have hshift : (e₁ - e₂ - t).toNat = n := by omega
    unfold UnpackedFloat.div divCore
    simp only [targetExponent_eq, totalExponent, ← ht, hshift]
  have hquotient : (m₁ : ℚ) / m₂ * 2 ^ (e₁ - e₂) / 2 ^ t = (m₁ <<< n : ℕ) / m₂ := by
    rw [← hn, zpow_add₀ two_ne_zero, zpow_natCast, Nat.shiftLeft_eq]
    push_cast
    field_simp
  rw [hdiv, hvalue]
  refine roundWithAccuracy_eq hpos _ ?_ ?_ fun hzero => ?_
  · rw [ofMantissaAndAccuracy_fraction _ h₂, hquotient]
  · rw [exponentOf]
    omega
  · have hsmall : (m₁ : ℚ) / m₂ * 2 ^ (e₁ - e₂) < 2 ^ t := by
      rw [← div_lt_one (by positivity), hquotient, div_lt_one (by positivity)]
      exact_mod_cast (Nat.div_eq_zero_iff_lt h₂).mp hzero
    have := (Int.lt_zpow_iff_log_lt (b := 2) (by decide) hpos).mp (by exact_mod_cast hsmall)
    omega

/-- Rounding at any exponent, which is lowered first where the mantissa is short. -/
theorem round_eq {m : ℕ} (hm : 0 < m) (s : Sign) (e : ℤ) :
    UnpackedFloat.round Format.binary64 s m e = rounded s (m * 2 ^ e) := by
  have hexact : (m : ℚ) * 2 ^ e / 2 ^ e = m := mul_div_cancel_right₀ _ (by positivity)
  have hlog : Int.log 2 ((m : ℚ) * 2 ^ e) = m.log2 + e :=
    log_eq_log2_add hm.ne' hexact.ge (by rw [hexact]; exact lt_add_one _)
  obtain ⟨n, hn⟩ : ∃ n : ℕ, n = (e - max ((m.log2 : ℤ) + 1 + e - 53) (-1074)).toNat := ⟨_, rfl⟩
  have hvalue : (m : ℚ) * 2 ^ e = (m <<< n : ℕ) * 2 ^ (e - n) := by
    rw [Nat.shiftLeft_eq, zpow_sub₀ two_ne_zero, zpow_natCast]
    push_cast
    field_simp
  have hpos : 0 < m <<< n := by
    rw [Nat.shiftLeft_eq]
    positivity
  unfold UnpackedFloat.round decreaseExponent
  simp only [targetExponent_eq, totalExponent, ← hn]
  rw [hvalue]
  apply roundWithAccuracy_exact hpos s
  rw [← hvalue, exponentOf, hlog]
  omega

section Floats
variable {x y : Float} {s₁ s₂ : Sign} {m₁ m₂ : ℕ} {e₁ e₂ : ℤ} {h₁ : 0 < m₁} {h₂ : 0 < m₂}

theorem mul_eq_packed (hx : parts x = .finite s₁ m₁ e₁ h₁) (hy : parts y = .finite s₂ m₂ e₂ h₂) :
    x * y = packed (rounded (s₁ * s₂) (m₁ * 2 ^ e₁ * (m₂ * 2 ^ e₂))) := by
  have hbits : e₁ + e₂ ≤ -1074 ∨ 2 ^ 52 ≤ m₁ * m₂ := by
    obtain ⟨hc₁, -⟩ := canonical_of_parts hx
    obtain ⟨hc₂, -⟩ := canonical_of_parts hy
    by_cases he₁ : e₁ = -1074
    · by_cases he₂ : e₂ = -1074
      · omega
      · exact .inr ((hc₂.full he₂).trans (Nat.le_mul_of_pos_left _ h₁))
    · exact .inr ((hc₁.full he₁).trans (Nat.le_mul_of_pos_right _ h₂))
  have hmul : x * y = packed (UnpackedFloat.mul Format.binary64 (parts x) (parts y)) := rfl
  rw [hmul, hx, hy, mul_finite h₁ h₂ hbits]

theorem div_eq_packed (hx : parts x = .finite s₁ m₁ e₁ h₁) (hy : parts y = .finite s₂ m₂ e₂ h₂) :
    x / y = packed (rounded (s₁ / s₂) (m₁ * 2 ^ e₁ / (m₂ * 2 ^ e₂))) := by
  have hdiv : x / y = packed (UnpackedFloat.div Format.binary64 (parts x) (parts y)) := rfl
  rw [hdiv, hx, hy, div_finite h₁ h₂]

end Floats

end PriceFormula.Number
