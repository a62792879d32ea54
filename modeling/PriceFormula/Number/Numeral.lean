import PriceFormula.Number.Decimal

namespace PriceFormula.Numeral

def digitRun (s : List Char) : List Char := s.takeWhile Char.isDigit

/-- The power of ten written as `e`, an optional sign and digits, with the length of that text.
Without a digit after the `e` nothing is read. -/
def powerOfTen (s : List Char) : Int × Nat :=
  match s with
  | mark :: rest =>
    if mark = 'e' ∨ mark = 'E' then
      match rest with
      | '-' :: tail => signed tail 2 (-1)
      | '+' :: tail => signed tail 2 1
      | _ => signed rest 1 1
    else (0, 0)
  | [] => (0, 0)
where
  signed (tail : List Char) (before : Nat) (sign : Int) : Int × Nat :=
    let digits := digitRun tail
    if digits = [] then (0, 0)
    else (sign * Nat.ofDigitChars 10 digits 0, before + digits.length)

def fractionAt (s : List Char) : List Char × Nat :=
  match s with
  | '.' :: tail => (digitRun tail, (digitRun tail).length + 1)
  | _ => ([], 0)

/-- The longest numeral a text starts with: its value and its length.
A point needs a digit before or after it. -/
def scan (s : List Char) : Option (Decimal × Nat) :=
  let whole := digitRun s
  let (fraction, fractionLength) := fractionAt (s.drop whole.length)
  if whole = [] ∧ fraction = [] then none
  else
    let mantissaLength := whole.length + fractionLength
    let (power, powerLength) := powerOfTen (s.drop mantissaLength)
    some (.ofRuns whole fraction power, mantissaLength + powerLength)

end PriceFormula.Numeral
