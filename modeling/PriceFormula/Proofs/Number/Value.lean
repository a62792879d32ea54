import PriceFormula.Proofs.Number.Range
import PriceFormula.Proofs.Number.Shortest

namespace PriceFormula.Number

open Float.Model UnpackedFloat

def withSign (s : Sign) (q : ℚ) : ℚ :=
  match s with
  | .negative => -q
  | .positive => q

section WithSign
variable (s t : Sign) (p q : ℚ)

theorem abs_withSign : |withSign s q| = |q| := by
  cases s with
  | negative => exact abs_neg q
  | positive => rfl

theorem withSign_withSign : withSign s (withSign s q) = q := by
  cases s with
  | negative => exact neg_neg q
  | positive => rfl

theorem withSign_sub : withSign s p - withSign s q = withSign s (p - q) := by
  cases s with
  | negative => exact (neg_sub_neg p q).trans (neg_sub p q).symm
  | positive => rfl

theorem withSign_mul : withSign (s * t) (p * q) = withSign s p * withSign t q := by
  cases s <;> cases t
  · exact (neg_mul_neg p q).symm
  · exact (neg_mul p q).symm
  · exact (mul_neg p q).symm
  · rfl

theorem withSign_div : withSign (s / t) (p / q) = withSign s p / withSign t q := by
  cases s <;> cases t
  · exact (neg_div_neg_eq p q).symm
  · exact (neg_div q p).symm
  · exact (div_neg p).symm
  · rfl

end WithSign

/-- The exact value of a finite float. Other floats count as zero. -/
def value (x : Float) : ℚ :=
  match parts x with
  | .finite s m e _ => withSign s (m * 2 ^ e)
  | _ => 0

def mantissa (x : Float) : ℕ :=
  match parts x with
  | .finite _ m _ _ => m
  | _ => 0

section Parts
variable {x : Float} {s : Sign} {m : ℕ} {e : ℤ} {hm : 0 < m}

theorem value_of_parts (h : parts x = .finite s m e hm) : value x = withSign s (m * 2 ^ e) := by
  rw [value, h]

theorem value_of_zero (h : parts x = .zero s) : value x = 0 := by
  rw [value, h]

theorem finite_cases (hx : x.isFinite = true) :
    (∃ s, parts x = .zero s) ∨ ∃ s m e, ∃ hm : 0 < m, parts x = .finite s m e hm := by
  rw [isFinite_eq] at hx
  cases hparts : parts x with
  | notANumber => rw [hparts] at hx; cases hx
  | infinity s => rw [hparts] at hx; cases hx
  | zero s => exact .inl ⟨s, rfl⟩
  | finite s m e hm => exact .inr ⟨s, m, e, hm, rfl⟩

theorem exists_parts_of_value_ne_zero (hx : x.isFinite = true) (h : value x ≠ 0) :
    ∃ s m e, ∃ hm : 0 < m, parts x = .finite s m e hm :=
  (finite_cases hx).resolve_left fun ⟨_, hzero⟩ => h (value_of_zero hzero)

theorem isFinite_of_parts (h : parts x = .finite s m e hm) : x.isFinite = true := by
  rw [isFinite_eq, h]
  rfl

theorem abs_value_of_parts (h : parts x = .finite s m e hm) : |value x| = m * 2 ^ e := by
  rw [value_of_parts h, abs_withSign, abs_of_nonneg (by positivity)]

end Parts

section Finite
variable {x : Float} (hx : x.isFinite = true)
include hx

theorem value_abs : value x.abs = |value x| := by
  rcases finite_cases hx with ⟨s, hparts⟩ | ⟨s, m, e, hm, hparts⟩
  · have habs : parts x.abs = .zero .positive := by
      have habs : x.abs = packed (parts x).abs := rfl
      rw [habs, hparts]
      cases s <;> rfl
    rw [value_of_zero hparts, value_of_zero habs, abs_zero]
  · rw [value_of_parts (parts_abs hparts), abs_value_of_parts hparts]
    rfl

private theorem parts_neg : parts (-x) = (parts x).neg := by
  have hneg : -x = packed (parts x).neg := rfl
  rcases finite_cases hx with ⟨s, hparts⟩ | ⟨s, m, e, hm, hparts⟩
  · rw [hneg, hparts]
    cases s <;> rfl
  · obtain ⟨hcanonical, he⟩ := canonical_of_parts hparts
    rw [hneg, hparts]
    exact parts_packed hcanonical he

theorem value_neg : value (-x) = -value x := by
  have hneg := parts_neg hx
  rcases finite_cases hx with ⟨s, hparts⟩ | ⟨s, m, e, hm, hparts⟩
  · rw [hparts] at hneg
    rw [value_of_zero hparts, value_of_zero hneg, neg_zero]
  · rw [hparts] at hneg
    rw [value_of_parts hparts, value_of_parts hneg]
    cases s with
    | negative => exact (neg_neg _).symm
    | positive => rfl

theorem mantissa_neg : mantissa (-x) = mantissa x := by
  have hneg := parts_neg hx
  rcases finite_cases hx with ⟨s, hparts⟩ | ⟨s, m, e, hm, hparts⟩
  · rw [hparts] at hneg
    rw [mantissa, mantissa, hparts, hneg]
    rfl
  · rw [hparts] at hneg
    rw [mantissa, mantissa, hparts, hneg]
    rfl

end Finite

end PriceFormula.Number
