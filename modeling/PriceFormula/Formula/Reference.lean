import Std.Data.TreeSet
import PriceFormula.Text.Segment

namespace PriceFormula.Reference

/-- Recognises a nonempty name between an opening brace and the next closing one. The name may
itself hold opening braces. -/
def find : Text.Finder (List Char)
  | '{', rest =>
    let name := rest.takeWhile (· ≠ '}')
    if name ≠ [] ∧ name.length < rest.length then some (name, name.length + 1) else none
  | _, _ => none

def occurrences (s : List Char) : List (List Char) :=
  (Text.Segment.cut find s).filterMap fun
    | .found name _ => some name
    | .plain _ => none

def namesIn (s : String) : Std.TreeSet String :=
  .ofList ((occurrences s.toList).map String.ofList)

end PriceFormula.Reference
