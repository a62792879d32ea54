/-! The magnitude of a JSON number that becomes a float. Only as many digits as fit sixty-four bits
take part, and their power of ten is applied in float arithmetic. So a number of many digits or of
an extreme power may end next to the float nearest to it. -/

namespace PriceFormula.Json

/-- Appends decimal digits to a number while it fits sixty-four bits, and counts those appended. -/
def appendDigits : Nat → List Char → Nat × Nat
  | n, [] => (n, 0)
  | n, c :: rest =>
    let longer := 10 * n + (c.toNat - '0'.toNat)
    if longer < 1 <<< 64 then
      let (m, count) := appendDigits longer rest
      (m, count + 1)
    else (n, 0)

def floatPower (n : Nat) : Float := Float.ofScientific 1 false n

def mostExponent : Nat := 308

/-- The number `significand * 10 ^ exponent`, none beyond the finite floats. It is scaled by one
power of ten where there is one, and a small number by a second one; what would need a third is
zero. -/
def scaled? (significand : Nat) (exponent : Int) : Option Float :=
  let f := Float.ofNat significand
  let n := exponent.natAbs
  if 0 ≤ exponent then
    if n ≤ mostExponent then some (f * floatPower n) |>.filter Float.isFinite
    else if significand = 0 then some 0
    else none
  else if n ≤ mostExponent then some (f / floatPower n)
  else if n ≤ 2 * mostExponent then
    some (f / floatPower mostExponent / floatPower (n - mostExponent))
  else some 0

/-- The magnitude of the number written as `whole.fraction` times a power of ten. A whole digit that
does not fit counts as a place, a fractional one ends the digits. -/
def magnitude? (whole fraction : List Char) (power : Int) : Option Float :=
  let (significand, wholeCount) := appendDigits 0 whole
  let (significand, fractionCount) := appendDigits significand fraction
  scaled? significand (power + (whole.length - wholeCount : Nat) - fractionCount)

end PriceFormula.Json
