import Mathlib
import PriceFormula.Number.Parts

namespace PriceFormula.Number

open Float.Model UnpackedFloat

theorem parts_zero : parts 0 = .zero .positive := by
  have hzero : (0 : Float) = Float.ofModel (Float.Model.pack (.zero .positive)) := by
    decide +kernel
  rw [hzero]
  rfl

theorem lt_iff (x y : Float) : x < y ↔ (parts x).lt (parts y) = true := decide_eq_true_iff

theorem beq_zero (x : Float) : (x == 0) = (parts x).beq (.zero .positive) := by
  rw [← parts_zero]
  rfl

theorem isFinite_eq (x : Float) : x.isFinite = (parts x).isFinite := rfl

/-- The finite floats above zero are those with a positive sign and a mantissa. -/
theorem finite_positive_iff {x : Float} :
    x.isFinite = true ∧ 0 < x ↔ ∃ m e hm, parts x = .finite .positive m e hm := by
  rw [isFinite_eq, lt_iff, parts_zero]
  cases parts x with
  | notANumber => simp [UnpackedFloat.isFinite]
  | infinity s => simp [UnpackedFloat.isFinite]
  | zero s => simp [UnpackedFloat.lt, UnpackedFloat.compare]
  | finite s m e hm =>
    cases s with
    | positive => simp [UnpackedFloat.isFinite, UnpackedFloat.lt, UnpackedFloat.compare, hm]
    | negative => simp [UnpackedFloat.lt, UnpackedFloat.compare]

end PriceFormula.Number
