import PriceFormula.Json.Basic
import PriceFormula.Text.Hex

namespace PriceFormula.Json

/-- A character inside a JSON string. Only quotes, backslashes and characters below the space are
escaped, by a letter where there is one and otherwise by four hexadecimal digits. -/
def writtenChar (c : Char) : List Char :=
  if c = '"' ∨ c = '\\' then ['\\', c]
  else if c = '\x08' then ['\\', 'b']
  else if c = '\x0c' then ['\\', 'f']
  else if c = '\n' then ['\\', 'n']
  else if c = '\r' then ['\\', 'r']
  else if c = '\t' then ['\\', 't']
  else if c.toNat < 0x20 then '\\' :: 'u' :: Text.hexText 4 c.toNat
  else [c]

def writtenString (s : String) : List Char :=
  '"' :: (s.toList.flatMap writtenChar ++ ['"'])

def writtenFloat (x : Float) : List Char :=
  if x.isFinite then (Notation.json.text x).toList else ['n', 'u', 'l', 'l']

mutual

def write : Json → List Char
  | null => ['n', 'u', 'l', 'l']
  | bool true => ['t', 'r', 'u', 'e']
  | bool false => ['f', 'a', 'l', 's', 'e']
  | integer n => (toString n).toList
  | float x => writtenFloat x
  | string s => writtenString s
  | array items => '[' :: (writeItems items ++ [']'])
  | object members => '{' :: (writeMembers members ++ ['}'])

def writeItems : List Json → List Char
  | [] => []
  | [item] => write item
  | item :: rest => write item ++ ',' :: writeItems rest

def writeMembers : List (String × Json) → List Char
  | [] => []
  | [(key, value)] => writtenString key ++ ':' :: write value
  | (key, value) :: rest => writtenString key ++ ':' :: write value ++ ',' :: writeMembers rest

end

def text (j : Json) : String := String.ofList (write j)

end PriceFormula.Json
