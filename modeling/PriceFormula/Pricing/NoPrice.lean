import PriceFormula.Expr.Error
import PriceFormula.Formula.Unready
import PriceFormula.Number.Notation

namespace PriceFormula

inductive NoPrice where
  | failed (error : ExprError)
  | negative (value : Float)
  | zero
  | notFinite (value : Float)
  | noCase
  | unready (reason : Option Unready)
deriving DecidableEq

namespace NoPrice

def message : NoPrice → String
  | failed error => error.message
  | negative value => "The price is less than zero. =" ++ Notation.plain.text value
  | zero => "The price is equal zero."
  | notFinite _ => "The price is not a finite number."
  | noCase => "Undefined result!"
  | unready _ => "Invalid data!"

def detail : NoPrice → String
  | failed error => error.message
  | negative value | notFinite value => Notation.plain.text value
  | unready (some reason) => reason.message
  | zero | noCase | unready none => ""

end NoPrice
end PriceFormula
