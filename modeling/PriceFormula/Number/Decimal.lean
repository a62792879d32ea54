namespace PriceFormula

/-- The number `digits * 10 ^ exponent`, negated when `negative` holds. -/
structure Decimal where
  negative : Bool
  digits : Nat
  exponent : Int
deriving DecidableEq, Repr

namespace Decimal

/-- The float nearest to the decimal, a tie going to the even neighbour.
Beyond the largest float it is an infinity, and zero keeps its sign. -/
def toFloat (d : Decimal) : Float :=
  let magnitude := Float.ofScientific d.digits (d.exponent < 0) d.exponent.natAbs
  if d.negative then -magnitude else magnitude

def ofRuns (whole fraction : List Char) (exponent : Int) : Decimal where
  negative := false
  digits := Nat.ofDigitChars 10 (whole ++ fraction) 0
  exponent := exponent - fraction.length

end Decimal
end PriceFormula
