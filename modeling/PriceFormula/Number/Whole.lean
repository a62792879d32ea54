import PriceFormula.Number.Parts

namespace PriceFormula.Number

open Float.Model

/-- Replaces the magnitude `num / den` of a float that has a fractional binary part by the whole
number `rule sign num den`. The sign stays, also that of a zero; other floats are whole or not
finite and stay as they are. -/
def mapMagnitude (rule : UnpackedFloat.Sign → Nat → Nat → Nat) (x : Float) : Float :=
  match parts x with
  | .finite sign mantissa exponent _ =>
    if 0 ≤ exponent then x
    else
      let whole := Float.ofNat (rule sign mantissa (1 <<< (-exponent).toNat))
      match sign with
      | .negative => -whole
      | .positive => whole
  | _ => x

def ceiling : Float → Float :=
  mapMagnitude fun
    | .positive, num, den => (num + den - 1) / den
    | .negative, num, den => num / den

def floor : Float → Float :=
  mapMagnitude fun
    | .positive, num, den => num / den
    | .negative, num, den => (num + den - 1) / den

def nearest : Float → Float :=
  mapMagnitude fun _ num den => (2 * num + den) / (2 * den)

/-- The integer part, cut off toward zero and kept within the integers of `bits + 1` bits, one of
them for the sign. A NaN has integer part zero. -/
def truncate (bits : Nat) (x : Float) : Int :=
  let limit := 1 <<< bits
  match parts x with
  | .notANumber | .zero _ => 0
  | .infinity .negative => -limit
  | .infinity .positive => limit - 1
  | .finite sign mantissa exponent _ =>
    let (num, den) := fraction mantissa exponent
    let whole := num / den
    match sign with
    | .negative => -(min limit whole)
    | .positive => min (limit - 1) whole

end PriceFormula.Number
