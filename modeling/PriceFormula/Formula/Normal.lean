import PriceFormula.Text.Entity
import PriceFormula.Text.Marker

/-! The normal form of formula text, which is what the parser reads. Formulas are stored with HTML
entities, put references in braces, use a decimal comma and separate arguments by semicolons. -/

namespace PriceFormula

namespace Normal

def constantCall : List Char := ['c', 'o', 'n', 's', 't', 'a', 'n', 't', '(']

/-- Drops braces, turns the decimal comma into a point, `constant(` into a parenthesis and the
semicolon into the argument comma, and marks colons. The comma goes before the semicolon, so that
a separator never becomes a point. -/
def respell (s : List Char) : List Char :=
  let unbraced := s.filter fun c => c ≠ '{' ∧ c ≠ '}'
  let pointed := unbraced.map fun c => if c = ',' then '.' else c
  let grouped := Text.replace constantCall ['('] pointed
  let separated := grouped.map fun c => if c = ';' then ',' else c
  Text.Marker.mark separated

def form (s : List Char) : List Char := respell (Text.Entity.decode (Text.Marker.mark s))

end Normal

def normalForm (s : String) : String := String.ofList (Normal.form s.toList)

end PriceFormula
