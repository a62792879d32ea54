import PriceFormula.Expr.Evaluation
import PriceFormula.Expr.Parser
import PriceFormula.Formula.Basic
import PriceFormula.Pricing.Answer

/-! Pricings: a stored formula with supplied values, from the check that it is ready to the price.
Texts are parsed when the price needs them. -/

namespace PriceFormula

structure BoundFormula where
  formula : Formula
  bindings : Bindings

def BoundFormula.ofStored (f : StoredFormula) (supplied : Supplied) :
    Except Unready BoundFormula := do
  let formula ← Formula.ofStored f
  let bindings ← formula.bindingsFrom supplied
  .ok ⟨formula, bindings⟩

def asPrice (value : Float) : Except NoPrice Float :=
  if !value.isFinite then .error (.notFinite value)
  else if value < 0 then .error (.negative value)
  else if value == 0 then .error .zero
  else .ok value

def FormulaText.value (t : FormulaText) (b : Bindings) : Except NoPrice Value :=
  (Expr.parse t.normal >>= Expr.eval b).mapError .failed

def FormulaText.price (t : FormulaText) (b : Bindings) : Except NoPrice Float := do
  let v ← t.value b
  asPrice v.toNumber

/-- The price of the first case whose condition is true. A condition that fails ends the search,
and a number does not count as true. -/
def Case.firstPrice (b : Bindings) : List Case → Except NoPrice Float
  | [] => .error .noCase
  | c :: rest => do
    let v ← c.condition.value b
    if v.isTrue then c.result.price b else firstPrice b rest

def BoundFormula.price (f : BoundFormula) : Except NoPrice Float :=
  match f.formula with
  | .single expression => expression.price f.bindings
  | .conditional cases => Case.firstPrice f.bindings cases

structure Pricing where
  mode : Mode
  bound : Except Unready BoundFormula
  wording : Wording

namespace Pricing

def ofStored (f : StoredFormula) (supplied : Supplied) : Pricing where
  mode := f.declaredMode
  bound := BoundFormula.ofStored f supplied
  wording := .standard

def inWording (p : Pricing) (w : Wording) : Pricing := { p with wording := w }

def bound? (p : Pricing) : Option BoundFormula := p.bound.toOption

def isReady (p : Pricing) : Bool := p.bound?.isSome

def unready? (p : Pricing) : Option Unready :=
  match p.bound with
  | .ok _ => none
  | .error e => some e

def references (p : Pricing) : Std.TreeSet String :=
  match p.bound? with
  | some f => f.formula.references
  | none => ∅

def price (p : Pricing) : Except NoPrice Float :=
  match p.bound with
  | .ok f => f.price
  | .error e => .error (.unready (some e))

def answer (p : Pricing) : Answer := .ofPrice p.wording p.price

end Pricing
end PriceFormula
