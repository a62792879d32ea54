import PriceFormula.Number.Notation

namespace PriceFormula

/-- A JSON value. A number written without point and power of ten is an integer if it lies between
`-2 ^ 63` and `2 ^ 64 - 1`, and otherwise a finite float. -/
inductive Json where
  | null
  | bool (value : Bool)
  | integer (value : Int)
  | float (value : Float)
  | string (value : String)
  | array (items : List Json)
  | object (members : List (String × Json))

namespace Json

def insertMember (key : String) (value : Json) : List (String × Json) → List (String × Json)
  | [] => [(key, value)]
  | (k, v) :: rest =>
    if key < k then (key, value) :: (k, v) :: rest
    else if key = k then (key, value) :: rest
    else (k, v) :: insertMember key value rest

def member? (key : String) : Json → Option Json
  | object members => (members.find? fun m => m.1 = key).map Prod.snd
  | _ => none

def string? : Json → Option String
  | string s => some s
  | _ => none

def number? : Json → Option Float
  | integer n => some (Float.ofInt n)
  | float x => some x
  | _ => none

def numeral? : Json → Option String
  | integer n => some (toString n)
  | float x => some (Notation.json.text x)
  | _ => none

end Json
end PriceFormula
