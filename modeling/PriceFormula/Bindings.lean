import Std.Data.TreeMap
import PriceFormula.Json.Basic
import PriceFormula.Text.Marker

namespace PriceFormula

/-- What a caller supplies for a formula: JSON values by name, in ascending order of names. -/
abbrev Supplied := Std.TreeMap String Json

/-- Numbers by name. The names have their colons marked, so that two spellings of one name meet in
the same binding, and the numbers are finite. -/
structure Bindings where
  values : Std.TreeMap String Float

namespace Bindings

def empty : Bindings := ⟨∅⟩

def insert (b : Bindings) (name : String) (value : Float) : Bindings :=
  if value.isFinite then ⟨b.values.insert (Text.markColons name) value⟩ else b

def get? (b : Bindings) (name : String) : Option Float := b.values[name]?

def contains (b : Bindings) (name : String) : Bool := b.values.contains name

def size (b : Bindings) : Nat := b.values.size

def names (b : Bindings) : List String := b.values.keys

def toList (b : Bindings) : List (String × Float) := b.values.toList

def ofList (pairs : List (String × Float)) : Bindings :=
  pairs.foldl (fun b (name, value) => b.insert name value) empty

def ofSupplied (supplied : Supplied) : Bindings :=
  ofList (supplied.toList.filterMap fun (name, value) => value.number?.map (name, ·))

@[simp] theorem get?_empty (name : String) : empty.get? name = none := by simp [empty, get?]

/-- A finite value is found under the marked name and hides an earlier one. -/
theorem get?_insert (b : Bindings) (name other : String) (value : Float) :
    (b.insert name value).get? other =
      if value.isFinite ∧ Text.markColons name = other then some value else b.get? other := by
  by_cases h : value.isFinite <;> simp [insert, get?, h, Std.TreeMap.getElem?_insert]

theorem contains_eq_isSome_get? (b : Bindings) (name : String) :
    b.contains name = (b.get? name).isSome :=
  Std.TreeMap.contains_eq_isSome_getElem?

end Bindings
end PriceFormula
