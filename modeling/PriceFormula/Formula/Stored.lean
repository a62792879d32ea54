import PriceFormula.Json.Reader
import PriceFormula.Json.Writer

/-! Formulas as they are stored: a mode and a JSON payload that may have any shape. Whether the
payload suits the mode is a question for later. -/

namespace PriceFormula

structure StoredFormula where
  mode : String
  expr : Json

structure Line where
  kind : String
  condition : String
  result : String
deriving DecidableEq

namespace Line

def when (condition result : String) : Line := ⟨"condition", condition, result⟩

def otherwise (result : String) : Line := ⟨"else", "", result⟩

def toJson (line : Line) : Json :=
  .object [("if", .string line.condition), ("then", .string line.result),
    ("type", .string line.kind)]

structure Fields where
  kind : Option String
  condition : Option String
  result : Option String

namespace Fields

def read (fields : Fields) (name : String) : Except Json.Fault (Json.Reader Fields) :=
  if name = "type" then
    if fields.kind.isSome then .error .unfit
    else .ok fun s => do
      let (t, s) ← Json.Reader.text s
      .ok ({ fields with kind := some t }, s)
  else if name = "if" then
    if fields.condition.isSome then .error .unfit
    else .ok fun s => do
      let (t, s) ← Json.Reader.text s
      .ok ({ fields with condition := some t }, s)
  else if name = "then" then
    if fields.result.isSome then .error .unfit
    else .ok fun s => do
      let (t, s) ← Json.Reader.text s
      .ok ({ fields with result := some t }, s)
  else .ok (Json.Reader.skipped fields)

/-- The line with these fields. It has to have a type, the other fields are empty by default. -/
def line (fields : Fields) : Except Json.Fault Line :=
  match fields.kind with
  | some kind => .ok ⟨kind, fields.condition.getD "", fields.result.getD ""⟩
  | none => .error .unfit

end Fields

def readArray : Json.Reader Line := fun s => do
  match ← Json.Reader.item? true s with
  | none => .error .unfit
  | some s => do
    let (kind, s) ← Json.Reader.text s
    match ← Json.Reader.item? false s with
    | none => do
      let s ← Json.Reader.closeArray s
      .ok (⟨kind, "", ""⟩, s)
    | some s => do
      let (condition, s) ← Json.Reader.text s
      match ← Json.Reader.item? false s with
      | none => do
        let s ← Json.Reader.closeArray s
        .ok (⟨kind, condition, ""⟩, s)
      | some s => do
        let (result, s) ← Json.Reader.text s
        let s ← Json.Reader.closeArray s
        .ok (⟨kind, condition, result⟩, s)

def read : Json.Reader Line := fun s => do
  match Json.Reader.skipBlank s with
  | '[' :: rest => readArray rest
  | '{' :: rest => do
    let (fields, rest) ← Json.Reader.objectTail true Fields.read ⟨none, none, none⟩ rest
    let line ← fields.line
    .ok (line, rest)
  | s => Json.Reader.refuse s

def ofText (s : String) : Except Json.Fault Line := Json.Reader.complete read s

end Line

namespace StoredFormula

def single (expr : String) : StoredFormula := ⟨"oneline", .string expr⟩

def conditional (lines : List Line) : StoredFormula :=
  ⟨"conditional", .array (lines.map Line.toJson)⟩

def toJson (f : StoredFormula) : Json := .object [("mode", .string f.mode), ("expr", f.expr)]

def text (f : StoredFormula) : String := f.toJson.text

def readPayload (reading : Json.FloatReading) : Json.Reader Json :=
  Json.Reader.valueBy reading true (Json.depthLimit - 1)

def readField (reading : Json.FloatReading) (fields : Option String × Option Json) (name : String) :
    Except Json.Fault (Json.Reader (Option String × Option Json)) :=
  if name = "mode" then
    if fields.1.isSome then .error .unfit
    else .ok fun s => do
      let (t, s) ← Json.Reader.text s
      .ok ((some t, fields.2), s)
  else if name = "expr" then
    if fields.2.isSome then .error .unfit
    else .ok fun s => do
      let (j, s) ← readPayload reading s
      .ok ((fields.1, some j), s)
  else .ok (Json.Reader.skipped fields)

def readArray (reading : Json.FloatReading) : Json.Reader StoredFormula := fun s => do
  match ← Json.Reader.item? true s with
  | none => do
    let s ← Json.Reader.closeArray s
    .ok (⟨"", .null⟩, s)
  | some s => do
    let (mode, s) ← Json.Reader.text s
    match ← Json.Reader.item? false s with
    | none => do
      let s ← Json.Reader.closeArray s
      .ok (⟨mode, .null⟩, s)
    | some s => do
      let (expr, s) ← readPayload reading s
      let s ← Json.Reader.closeArray s
      .ok (⟨mode, expr⟩, s)

/-- Reads a formula from an object or an array. A missing mode is empty, a missing payload null. -/
def read (reading : Json.FloatReading) : Json.Reader StoredFormula := fun s => do
  match Json.Reader.skipBlank s with
  | '[' :: rest => readArray reading rest
  | '{' :: rest => do
    let (fields, rest) ← Json.Reader.objectTail true (readField reading) (none, none) rest
    .ok (⟨fields.1.getD "", fields.2.getD .null⟩, rest)
  | s => Json.Reader.refuse s

def ofTextBy (reading : Json.FloatReading) (s : String) : Except Json.Fault StoredFormula :=
  Json.Reader.complete (read reading) s

def ofText (s : String) : Except Json.Fault StoredFormula := ofTextBy Json.magnitude? s

end StoredFormula
end PriceFormula
