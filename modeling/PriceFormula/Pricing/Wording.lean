import PriceFormula.Json.Reader
import PriceFormula.Json.Writer
import PriceFormula.Pricing.NoPrice
import PriceFormula.Text.Segment

namespace PriceFormula

inductive Topic where
  | unready | unknownMode | wrongShape | unboundVariables | badExpression
  | divisionByZero | negative | zero | notFinite | noCase
deriving DecidableEq, Repr

namespace Topic

def all : List Topic :=
  [unready, unknownMode, wrongShape, unboundVariables, badExpression,
    divisionByZero, negative, zero, notFinite, noCase]

def key : Topic → String
  | unready => "invalid_data"
  | unknownMode => "invalid_mode"
  | wrongShape => "invalid_shape"
  | unboundVariables => "missing_variables"
  | badExpression => "syntax_error"
  | divisionByZero => "division_by_zero"
  | negative => "negative_price"
  | zero => "zero_price"
  | notFinite => "not_finite"
  | noCase => "undefined_result"

def ofKey? (key : String) : Option Topic := all.find? fun topic => topic.key = key

def standardTemplate : Topic → String
  | unready => "Invalid data!"
  | unknownMode => "Invalid calculation mode."
  | wrongShape => "Prepared expression has incorrect type."
  | unboundVariables => "\x7bdetail\x7d"
  | badExpression => "\x7bdetail\x7d"
  | divisionByZero => "Division by zero."
  | negative => "The price is less than zero. =\x7bdetail\x7d"
  | zero => "The price is equal zero."
  | notFinite => "The price is not a finite number."
  | noCase => "Undefined result!"

end Topic

def Unready.topic : Unready → Topic
  | unknownMode _ => .unknownMode
  | noExpression | noLines => .wrongShape
  | unboundVariables _ => .unboundVariables

/-- The topic under which a pricing error is told. Every expression error but division by zero is
told as a bad expression. -/
def NoPrice.topic : NoPrice → Topic
  | failed .divisionByZero => .divisionByZero
  | failed _ => .badExpression
  | negative _ => .negative
  | zero => .zero
  | notFinite _ => .notFinite
  | noCase => .noCase
  | unready _ => .unready

structure Wording where
  replaced : Topic → Option String

namespace Wording

def standard : Wording := ⟨fun _ => none⟩

def set (w : Wording) (topic : Topic) (template : String) : Wording :=
  ⟨fun t => if t = topic then some template else w.replaced t⟩

def template (w : Wording) (topic : Topic) : String :=
  (w.replaced topic).getD topic.standardTemplate

def placeholder : List Char := ['{', 'd', 'e', 't', 'a', 'i', 'l', '}']

def fill (w : Wording) (topic : Topic) (detail : String) : String :=
  String.ofList (Text.replace placeholder detail.toList (w.template topic).toList)

def message (w : Wording) (e : NoPrice) : String := w.fill e.topic e.detail

def toList (w : Wording) : List (Topic × String) :=
  Topic.all.filterMap fun topic => (w.replaced topic).map (topic, ·)

def toJson (w : Wording) : Json :=
  .object (w.toList.map fun (topic, template) => (topic.key, .string template))

def text (w : Wording) : String := w.toJson.text

def readField (w : Wording) (key : String) : Except Json.Fault (Json.Reader Wording) :=
  match Topic.ofKey? key with
  | none => .error .unfit
  | some topic => .ok fun s => do
    let (template, s) ← Json.Reader.text s
    .ok (w.set topic template, s)

def read : Json.Reader Wording := fun s =>
  match Json.Reader.skipBlank s with
  | '{' :: rest => Json.Reader.objectTail true readField standard rest
  | s => Json.Reader.refuse s

def ofText (s : String) : Except Json.Fault Wording := Json.Reader.complete read s

end Wording
end PriceFormula
