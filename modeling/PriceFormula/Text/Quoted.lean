import PriceFormula.Text.Hex
import PriceFormula.Text.Hidden

namespace PriceFormula.Text

private def quotedChar (c : Char) : List Char :=
  if c = '\x00' then ['\\', '0']
  else if c = '\t' then ['\\', 't']
  else if c = '\r' then ['\\', 'r']
  else if c = '\n' then ['\\', 'n']
  else if c = '\\' ∨ c = '"' then ['\\', c]
  else if isHidden c then '\\' :: 'u' :: '{' :: (hexText 0 c.toNat ++ ['}'])
  else [c]

def quoted (s : String) : String :=
  String.ofList ('"' :: (s.toList.flatMap quotedChar ++ ['"']))

end PriceFormula.Text
