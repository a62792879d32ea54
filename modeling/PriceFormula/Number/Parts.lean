namespace PriceFormula.Number

open Float.Model

def parts (x : Float) : UnpackedFloat :=
  UnpackedFloat.unpack Format.binary64 x.toBits.toBitVec

/-- Whether the sign bit is set. A NaN counts as unsigned. -/
def isNegative (x : Float) : Bool :=
  match parts x with
  | .infinity .negative | .zero .negative | .finite .negative _ _ _ => true
  | _ => false

def fraction (mantissa : Nat) (exponent : Int) : Nat × Nat :=
  if 0 ≤ exponent then (mantissa <<< exponent.toNat, 1)
  else (mantissa, 1 <<< (-exponent).toNat)

end PriceFormula.Number
