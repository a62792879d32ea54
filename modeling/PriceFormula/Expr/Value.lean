namespace PriceFormula

inductive Value where
  | number (value : Float)
  | boolean (value : Bool)
deriving DecidableEq

namespace Value

def toNumber : Value → Float
  | number n => n
  | boolean true => 1
  | boolean false => 0

def holds : Value → Bool
  | number n => n != 0 && !n.isNaN
  | boolean b => b

def isTrue : Value → Bool
  | boolean true => true
  | _ => false

/-- Loose equality: numbers compare as numbers, and with a truth value on either side the truth
views compare. -/
def looselyEqual : Value → Value → Bool
  | number l, number r => l == r
  | l, r => l.holds == r.holds

def strictlyEqual : Value → Value → Bool
  | number l, number r => l == r
  | boolean l, boolean r => l == r
  | _, _ => false

end Value
end PriceFormula
