import PriceFormula.Json.Reader

namespace PriceFormula.CommandLine

/-- Reads `name=value`. The value is a JSON value where it is the text of one, and otherwise the
text itself. -/
def parseBinding (argument : String) : Except String (String × Json) :=
  let cs := argument.toList
  let name := cs.takeWhile (· ≠ '=')
  if name.length = cs.length then .error ("expected NAME=VALUE, got '" ++ argument ++ "'")
  else if name = [] then .error ("missing variable name in '" ++ argument ++ "'")
  else
    let value := String.ofList (cs.drop (name.length + 1))
    .ok (String.ofList name,
      match Json.ofText value with
      | .ok j => j
      | .error _ => .string value)

end PriceFormula.CommandLine
