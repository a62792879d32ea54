import PriceFormula.Expr.Evaluation
import PriceFormula.Proofs.Except
import PriceFormula.Proofs.Number.Whole

/-! The remainder operator. It divides integer parts that are kept within 64 bits. The remainder of
integer parts within 64 bits is exact, whatever their size. -/

namespace PriceFormula

namespace Number

/-- Keeping within bounds changes no number within them. -/
theorem keptWithin_eq_self {bits : ℕ} {n : ℤ} (hlow : -2 ^ bits ≤ n) (hhigh : n < 2 ^ bits) :
    keptWithin bits n = n := by
  rw [keptWithin]
  omega

/-- Only zero is kept as zero. -/
theorem keptWithin_eq_zero_iff {bits : ℕ} (hbits : 0 < bits) {n : ℤ} :
    keptWithin bits n = 0 ↔ n = 0 := by
  have htwo : (2 : ℤ) ≤ 2 ^ bits := by
    exact_mod_cast Nat.le_self_pow hbits.ne' 2
  rw [keptWithin]
  omega

private theorem tmod_eq_self {a b : ℤ} (h : a.natAbs < b.natAbs) : a.tmod b = a := by
  have hnatAbs := Int.natAbs_tmod a b
  rw [Nat.mod_eq_of_lt h] at hnatAbs
  rcases Int.le_total 0 a with ha | ha
  · have := Int.tmod_nonneg b ha
    omega
  · have := Int.tmod_nonneg b (Int.neg_nonneg_of_nonpos ha)
    rw [Int.neg_tmod] at this
    omega

/-- Keeping both numbers within 64 bits changes no remainder where the dividend lies within them. Only
the least integer of 64 bits may be changed by a divisor beyond them. -/
private theorem tmod_keptWithin {a b : ℤ} (hfits : FitsMantissa a.natAbs) (hlow : -2 ^ 63 ≤ a)
    (hhigh : a < 2 ^ 63) (hleast : a = -2 ^ 63 → -2 ^ 63 ≤ b ∧ b < 2 ^ 63) :
    (keptWithin 63 a).tmod (keptWithin 63 b) = a.tmod b := by
  rw [keptWithin_eq_self hlow hhigh]
  by_cases hb : -2 ^ 63 ≤ b ∧ b < 2 ^ 63
  · rw [keptWithin_eq_self hb.1 hb.2]
  · have hne := hfits.ne_largest
    have ha : a ≠ -2 ^ 63 := fun h => hb (hleast h)
    rw [tmod_eq_self (b := b) (by omega), tmod_eq_self]
    rw [keptWithin]
    omega

private theorem value_ofInt_tmod {l r : Float} (hl : l.isFinite = true) (hr : r.isFinite = true)
    (hne : integerPart r ≠ 0) (hlow : -2 ^ 63 ≤ integerPart l) (hhigh : integerPart l < 2 ^ 63) :
    let remainder := (integerPart l).tmod (integerPart r)
    (Float.ofInt remainder).isFinite = true ∧ value (Float.ofInt remainder) = remainder := by
  intro remainder
  have hnatAbs : remainder.natAbs = (integerPart l).natAbs % (integerPart r).natAbs :=
    Int.natAbs_tmod _ _
  have hfits : FitsMantissa remainder.natAbs := by
    rw [hnatAbs]
    exact (fitsMantissa_integerPart hl).mod (fitsMantissa_integerPart hr) (Int.natAbs_pos.mpr hne)
  have hle := Nat.mod_le (integerPart l).natAbs (integerPart r).natAbs
  exact value_ofInt (by omega) hfits

end Number

open Number

private theorem integerRemainder_eq {l r : Float} (hl : l.isFinite = true)
    (hr : r.isFinite = true) :
    integerRemainder l r =
      if integerPart r = 0 then .error .divisionByZero
      else .ok (Float.ofInt ((keptWithin 63 (integerPart l)).tmod (keptWithin 63 (integerPart r)))) := by
  rw [integerRemainder]
  simp only [truncate_eq hl, truncate_eq hr, keptWithin_eq_zero_iff (by decide : 0 < 63)]

namespace Expr

private theorem eval_modulo {b : Bindings} {left right : Expr} {l r : Value}
    (hl : eval b left = .ok l)
    (hr : eval b right = .ok r) :
    eval b (.binary .modulo left right) =
      (integerRemainder l.toNumber r.toNumber).map .number := by
  have hdecided : BinaryOp.decided? .modulo l = none := by
    unfold BinaryOp.decided?
    cases l.holds <;> rfl
  rw [eval_binary, hl, ok_bind]
  simp only [hdecided]
  rw [hr]
  rfl

/-- The remainder operator on operands that evaluate to finite numbers. It fails exactly for a divisor
with integer part zero, and otherwise it gives a number. Where the integer part of the dividend is
within 64 bits, this is the exact remainder of the integer parts; only the least of these dividends
needs the divisor within 64 bits as well. -/
theorem eval_remainder {b : Bindings} {left right : Expr} {l r : Value} (hl : eval b left = .ok l)
    (hr : eval b right = .ok r) (hlfinite : l.toNumber.isFinite = true)
    (hrfinite : r.toNumber.isFinite = true) :
    let dividend := integerPart l.toNumber
    let divisor := integerPart r.toNumber
    (divisor = 0 → eval b (.binary .modulo left right) = .error .divisionByZero) ∧
    (divisor ≠ 0 →
      eval b (.binary .modulo left right) =
        .ok (.number (Float.ofInt ((keptWithin 63 dividend).tmod (keptWithin 63 divisor)))) ∧
      (-2 ^ 63 ≤ dividend → dividend < 2 ^ 63 →
        (dividend = -2 ^ 63 → -2 ^ 63 ≤ divisor ∧ divisor < 2 ^ 63) →
        ∃ x, eval b (.binary .modulo left right) = .ok (.number x) ∧ x.isFinite = true ∧
          value x = dividend.tmod divisor ∧ |value x| < |(divisor : ℚ)| ∧
          (0 ≤ dividend → 0 ≤ value x) ∧ (dividend ≤ 0 → value x ≤ 0))) := by
  intro dividend divisor
  have heval := eval_modulo hl hr
  rw [integerRemainder_eq hlfinite hrfinite] at heval
  refine ⟨fun hzero => ?_, fun hne => ?_⟩
  · rw [heval, if_pos hzero]
    rfl
  rw [if_neg hne] at heval
  refine ⟨heval, fun hlow hhigh hleast => ?_⟩
  rw [tmod_keptWithin (fitsMantissa_integerPart hlfinite) hlow hhigh hleast] at heval
  obtain ⟨hfinite, hvalue⟩ := value_ofInt_tmod hlfinite hrfinite hne hlow hhigh
  have hnatAbs : (dividend.tmod divisor).natAbs = dividend.natAbs % divisor.natAbs :=
    Int.natAbs_tmod _ _
  refine ⟨_, heval, hfinite, hvalue, ?_, fun hdividend => ?_, fun hdividend => ?_⟩
  · have hlt := Nat.mod_lt dividend.natAbs (Int.natAbs_pos.mpr hne)
    have habs : |dividend.tmod divisor| < |divisor| := by
      rw [Int.abs_eq_natAbs, Int.abs_eq_natAbs, hnatAbs]
      exact_mod_cast hlt
    rw [hvalue]
    exact_mod_cast habs
  · rw [hvalue]
    exact_mod_cast Int.tmod_nonneg divisor hdividend
  · have hneg := Int.tmod_nonneg divisor (Int.neg_nonneg_of_nonpos hdividend)
    rw [Int.neg_tmod] at hneg
    rw [hvalue]
    exact_mod_cast Int.nonpos_of_neg_nonneg hneg

/-- A dividend of 63 bits and a divisor with a fraction. -/
theorem eval_remainder_of_large_dividend :
    let dividend := Expr.number (-9223372036854774784)
    let divisor := Expr.number 1000.7
    ∃ x, eval .empty (.binary .modulo dividend divisor) = .ok (.number x) ∧ x.isFinite = true ∧
      value x = -784 := by
  intro dividend divisor
  have hl : eval .empty dividend = .ok (.number (-9223372036854774784)) := rfl
  have hr : eval .empty divisor = .ok (.number 1000.7) := rfl
  have hdividend : integerPart (-9223372036854774784) = -9223372036854774784 := by decide +kernel
  have hdivisor : integerPart 1000.7 = 1000 := by decide +kernel
  obtain ⟨-, hremainder⟩ := eval_remainder hl hr (by decide +kernel) (by decide +kernel)
  rw [Value.toNumber, Value.toNumber, hdividend, hdivisor] at hremainder
  obtain ⟨-, hexact⟩ := hremainder (by decide)
  obtain ⟨x, heval, hfinite, hvalue, -⟩ := hexact (by decide) (by decide) (by decide)
  refine ⟨x, heval, hfinite, hvalue.trans ?_⟩
  have hmod : (-9223372036854774784 : ℤ).tmod 1000 = -784 := by decide
  rw [hmod]
  norm_num

/-- A dividend beyond 64 bits is taken as the largest integer of 64 bits, which leaves another
remainder. -/
theorem remainder_of_clamped_dividend :
    eval .empty (.binary .modulo (.number 1e19) (.number 10)) = .ok (.number 7) ∧
      integerPart 1e19 = 10 ^ 19 ∧ integerPart 10 = 10 ∧ (10 ^ 19 : ℤ).tmod 10 = 0 ∧
      value 7 = 7 := by
  refine ⟨?_, ?_, ?_, ?_, ?_⟩ <;> decide +kernel

end Expr
end PriceFormula
