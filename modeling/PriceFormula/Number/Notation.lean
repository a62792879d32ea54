import PriceFormula.Number.Shortest

namespace PriceFormula

structure Notation where
  /-- Whether a number whose leading digit stands for `10 ^ e` is written without a power of ten. -/
  positional : Int → Bool
  wholeEnding : List Char
  /-- Whether a tie between two shortest forms goes to the upper, given the lower one's digits. -/
  tieUp : Nat → Bool

namespace Notation

/-- Prices and the numbers in messages are written in full, never with a power of ten. A tie goes
up. -/
def plain : Notation where
  positional _ := true
  wholeEnding := []
  tieUp _ := true

/-- JSON numbers show that they are floats: a whole number ends in `.0`, and from `10 ^ 16` on and
below `10 ^ -5` a power of ten follows. A tie goes to the even digit. -/
def json : Notation where
  positional e := -5 ≤ e ∧ e ≤ 15
  wholeEnding := ['.', '0']
  tieUp lower := lower % 2 = 1

def positionalText (style : Notation) (ds : List Char) (exponent : Int) : List Char :=
  let point : Int := ds.length + exponent
  if point ≤ 0 then '0' :: '.' :: (List.replicate (-point).toNat '0' ++ ds)
  else if ds.length ≤ point then ds ++ List.replicate exponent.toNat '0' ++ style.wholeEnding
  else ds.take point.toNat ++ '.' :: ds.drop point.toNat

def scientificText (ds : List Char) (exponent : Int) : List Char :=
  let power : Int := ds.length - 1 + exponent
  let sign := if power < 0 then '-' else '+'
  let mantissa :=
    match ds with
    | d :: e :: rest => d :: '.' :: e :: rest
    | _ => ds
  mantissa ++ 'e' :: sign :: Nat.toDigits 10 power.natAbs

def decimalText (style : Notation) (d : Decimal) : List Char :=
  let ds := Nat.toDigits 10 d.digits
  let body :=
    if style.positional (ds.length - 1 + d.exponent) then style.positionalText ds d.exponent
    else scientificText ds d.exponent
  if d.negative then '-' :: body else body

def text (style : Notation) (x : Float) : String :=
  if x.isNaN then "NaN"
  else if x.isInf then (if Number.isNegative x then "-inf" else "inf")
  else String.ofList (style.decimalText (Number.shortest style.tieUp x))

end Notation
end PriceFormula
