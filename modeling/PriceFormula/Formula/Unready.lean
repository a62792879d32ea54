import PriceFormula.Text.Quoted

namespace PriceFormula

inductive Unready where
  | unknownMode (mode : String)
  | noExpression
  | noLines
  /-- References without a numeric binding, by the names users know. -/
  | unboundVariables (names : List String)
deriving DecidableEq, Repr

def Unready.message : Unready → String
  | unknownMode mode => "Invalid calculation mode: " ++ Text.quoted mode
  | noExpression => "Prepared expression has incorrect type: expected an expression string"
  | noLines => "Prepared expression has incorrect type: expected a list of conditions"
  | unboundVariables names => "Missing variables: " ++ ", ".intercalate names

end PriceFormula
