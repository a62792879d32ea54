namespace PriceFormula

inductive ExprError where
  | malformed (message : String) (position : Nat) (expression : String)
  | unknownFunction (name : String) (position : Nat)
  | argumentCount (function : String) (expected : String) (actual : Nat)
  | unboundVariable (name : String)
  | divisionByZero
deriving DecidableEq, Repr

def ExprError.message : ExprError → String
  | malformed message position expression =>
    message ++ " around position " ++ toString position ++ " for expression `" ++ expression
      ++ "`."
  | unknownFunction name position =>
    "The function \"" ++ name ++ "\" does not exist around position " ++ toString position ++ "."
  | argumentCount function expected actual =>
    "Wrong number of arguments for " ++ function ++ ": expected " ++ expected ++ ", got "
      ++ toString actual ++ "."
  | unboundVariable name => "Variable \"" ++ name ++ "\" is not valid."
  | divisionByZero => "Division by zero."

end PriceFormula
