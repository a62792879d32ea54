import PriceFormula.Text.Segment

/-! The marker for colons. Field names may hold colons, identifiers may not: inside formulas and as
keys of bindings a colon is written `__p__`. -/

namespace PriceFormula.Text

namespace Marker

def marker : List Char := ['_', '_', 'p', '_', '_']

def mark (s : List Char) : List Char :=
  s.flatMap fun c => if c = ':' then marker else [c]

def unmark (s : List Char) : List Char := replace marker [':'] s

end Marker

def markColons (s : String) : String := String.ofList (Marker.mark s.toList)

def unmarkColons (s : String) : String := String.ofList (Marker.unmark s.toList)

end PriceFormula.Text
