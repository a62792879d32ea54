import PriceFormula.Bindings
import PriceFormula.Formula.Normal
import PriceFormula.Formula.Reference
import PriceFormula.Formula.Stored
import PriceFormula.Formula.Unready
import PriceFormula.Text.Blank

namespace PriceFormula

inductive Mode where
  | single | conditional | undefined
deriving DecidableEq, Repr

def StoredFormula.declaredMode (f : StoredFormula) : Mode :=
  if f.mode = "oneline" then .single
  else if f.mode = "conditional" then .conditional
  else .undefined

structure FormulaText where
  /-- The stored text with colons marked, which still has its braces. -/
  source : String
  /-- The normal form, which is parsed. -/
  normal : String
deriving DecidableEq

def FormulaText.ofStored (s : String) : FormulaText := ⟨Text.markColons s, normalForm s⟩

structure Case where
  condition : FormulaText
  result : FormulaText
deriving DecidableEq

inductive Formula where
  | single (expression : FormulaText)
  | conditional (cases : List Case)
deriving DecidableEq

namespace Case

/-- The text of a field of a line: a string, or a number as it is written. Anything else counts as
empty. -/
def fieldText (line : Json) (field : String) : String :=
  match line.member? field with
  | some (.string s) => s
  | some j => j.numeral?.getD ""
  | none => ""

/-- The case of a line. Only lines of type `condition` and `else` have one, and an `else` line
without a condition always applies. -/
def ofLine? (line : Json) : Option Case := do
  let kind ← (line.member? "type").bind Json.string?
  if kind = "condition" ∨ kind = "else" then
    let stated := fieldText line "if"
    let condition := if kind = "else" ∧ stated.toList.all Text.isBlank then "true" else stated
    some ⟨.ofStored condition, .ofStored (fieldText line "then")⟩
  else none

end Case

namespace Formula

def inMode (mode : Mode) (f : StoredFormula) : Except Unready Formula :=
  match mode, f.expr with
  | .single, .string s => .ok (.single (.ofStored s))
  | .single, _ => .error .noExpression
  | .conditional, .array lines => .ok (.conditional (lines.filterMap Case.ofLine?))
  | .conditional, _ => .error .noLines
  | .undefined, _ => .error (.unknownMode f.mode)

def ofStored (f : StoredFormula) : Except Unready Formula := inMode f.declaredMode f

def mode : Formula → Mode
  | single _ => .single
  | conditional _ => .conditional

/-- The text that is searched for references: all fields one after another, without separator. -/
def searchedText : Formula → String
  | single expression => expression.source
  | conditional cases => String.join (cases.flatMap fun c => [c.condition.source, c.result.source])

def references (f : Formula) : Std.TreeSet String := Reference.namesIn f.searchedText

def unbound (f : Formula) (b : Bindings) : List String :=
  f.references.toList.filter fun name => !b.contains name

def checkBound (f : Formula) (b : Bindings) : Except Unready Unit :=
  if f.unbound b = [] then .ok ()
  else .error (.unboundVariables ((f.unbound b).map Text.unmarkColons))

def bindingsFrom (f : Formula) (supplied : Supplied) : Except Unready Bindings := do
  let b := Bindings.ofSupplied supplied
  f.checkBound b
  .ok b

end Formula
end PriceFormula
