import PriceFormula.Expr.Value
import PriceFormula.Number.Rounding

namespace PriceFormula

inductive Function where
  | abs | ceil | floor | max | min | pow | round | sqrt
deriving DecidableEq, Repr

namespace Function

def all : List Function := [abs, ceil, floor, max, min, pow, round, sqrt]

def name : Function → String
  | abs => "abs"
  | ceil => "ceil"
  | floor => "floor"
  | max => "max"
  | min => "min"
  | pow => "pow"
  | round => "round"
  | sqrt => "sqrt"

/-- The function with a name in any mixture of cases. Only ASCII letters have two cases here. -/
def find? (name : String) : Option Function :=
  let lowered := name.map Char.toLower
  all.find? fun f => f.name = lowered

def leastCount : Function → Nat
  | pow => 2
  | _ => 1

def mostCount : Function → Option Nat
  | max | min => none
  | pow | round => some 2
  | _ => some 1

def argument (missing : Nat → Float) (arguments : List Value) (index : Nat) : Float :=
  (arguments[index]?.map Value.toNumber).getD (missing index)

/-- The greatest of some numbers. One that is not a number is passed over, of equal ones the last
is kept, which tells for zeros of either sign, and of none it is negative infinity. -/
def greatest (numbers : List Float) : Float :=
  numbers.foldl (fun best n => if best ≤ n then n else best) (-(1 / 0))

def least (numbers : List Float) : Float :=
  numbers.foldl (fun best n => if n ≤ best then n else best) (1 / 0)

/-- The value of a call in which `missing i` stands for the argument at `i` where there is none.
Arguments beyond those a function looks at are ignored. -/
def applyWith (missing : Nat → Float) (f : Function) (arguments : List Value) : Value :=
  let first := argument missing arguments 0
  let second := argument missing arguments 1
  .number <| match f with
    | abs => first.abs
    | ceil => Number.ceiling first
    | floor => Number.floor first
    | max => greatest (arguments.map Value.toNumber)
    | min => least (arguments.map Value.toNumber)
    | pow => Float.pow first second
    | round => Number.roundPlaces first (Number.truncate 31 second)
    | sqrt => first.sqrt

def apply (f : Function) (arguments : List Value) : Value := f.applyWith (fun _ => 0) arguments

end Function
end PriceFormula
