namespace PriceFormula

inductive BinaryOp where
  | add | subtract | multiply | divide | modulo | power
  | equal | notEqual | identical | notIdentical
  | less | lessEqual | greater | greaterEqual
  | and | or
deriving DecidableEq, Repr

/-- The operators before one operand. A plus sign there leaves no trace. -/
inductive UnaryOp where
  | negate | not
deriving DecidableEq, Repr

/-- An expression. Variables carry their name with colons marked; a call carries a function name
that need not be known. -/
inductive Expr where
  | number (value : Float)
  | boolean (value : Bool)
  | var (name : String)
  | binary (op : BinaryOp) (left right : Expr)
  | unary (op : UnaryOp) (operand : Expr)
  | call (name : String) (arguments : List Expr)

/-- How loosely an operator binds. Operators of one level stand in a chain and group to the left,
except at level zero, where the power operator groups to the right. -/
def BinaryOp.level : BinaryOp → Nat
  | power => 0
  | multiply | divide | modulo => 1
  | add | subtract => 2
  | equal | notEqual | identical | notIdentical | less | lessEqual | greater | greaterEqual => 3
  | and => 4
  | or => 5

end PriceFormula
