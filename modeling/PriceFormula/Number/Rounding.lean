import PriceFormula.Number.Notation
import PriceFormula.Number.Whole

/-! Rounding a float to decimal places, halves away from zero. The shortest decimal of the value is
rounded, so `1.955` goes to `1.96` although the float lies below it. -/

namespace PriceFormula

namespace Decimal

def roundTo (places : Nat) (d : Decimal) : Decimal :=
  if -(places : Int) ≤ d.exponent then d
  else
    let unit := Nat.pow 10 (-(places : Int) - d.exponent).toNat
    ⟨d.negative, (2 * d.digits + unit) / (2 * unit), -(places : Int)⟩

def maxPlaces : Nat := 28

def maxMagnitude : Nat := 1 <<< 96 - 1

def inRange (d : Decimal) : Bool :=
  if 0 ≤ d.exponent then d.digits * Nat.pow 10 d.exponent.toNat ≤ maxMagnitude
  else d.digits ≤ maxMagnitude * Nat.pow 10 (-d.exponent).toNat

def unsignZero (d : Decimal) : Decimal :=
  if d.digits = 0 then { d with negative := false } else d

end Decimal

namespace Number

/-- The power `10 ^ n` in float arithmetic, by repeated squaring from the lowest bit of `n` up,
for `n` below 512. -/
def powerOfTen (n : Nat) : Float :=
  ((List.range 9).foldl
    (fun (product, square) bit =>
      (if n.testBit bit then product * square else product, square * square))
    ((1 : Float), (10 : Float))).1

/-- Rounding in decimal, where the value fits: first to twenty-eight places, then to the places
asked for. A zero result has no sign. -/
def roundInDecimal? (value : Float) (places : Nat) : Option Float :=
  let d := (shortest Notation.plain.tieUp value).roundTo Decimal.maxPlaces
  if d.inRange then some (d.roundTo (min places Decimal.maxPlaces)).unsignZero.toFloat
  else none

/-- Rounding by scaling up and down again. A value whose scaled form overflows has no fractional
digits and stays. -/
def roundByScaling (value : Float) (places : Nat) : Float :=
  let factor := powerOfTen places
  let scaled := value * factor
  if scaled.isFinite then nearest scaled / factor else value

/-- Rounds to `precision` decimal places, or for a negative precision to tens, hundreds and so on,
halves away from zero. Precisions are taken within 308 of zero, and only finite values change. -/
def roundPlaces (value : Float) (precision : Int) : Float :=
  if !value.isFinite then value
  else
    let precision := max (-308) (min 308 precision)
    if precision < 0 then
      let factor := powerOfTen precision.natAbs
      nearest (value / factor) * factor
    else
      (roundInDecimal? value precision.toNat).getD (roundByScaling value precision.toNat)

end Number
end PriceFormula
