import PriceFormula.Pricing.Wording

namespace PriceFormula

inductive Answer where
  | price (value : Float)
  | message (text : String)
deriving DecidableEq

namespace Answer

def ofPrice (w : Wording) : Except NoPrice Float → Answer
  | .ok value => price value
  | .error e => message (w.message e)

inductive Status where
  | success
  | error
deriving DecidableEq, Repr

def Status.word : Status → String
  | success => "success"
  | error => "error"

def Status.ofWord? (word : String) : Option Status :=
  [success, error].find? fun status => status.word = word

def status : Answer → Status
  | price _ => .success
  | message _ => .error

def hasPrice (a : Answer) : Bool := a.status = .success

def price? : Answer → Option Float
  | price value => some value
  | message _ => none

def message? : Answer → Option String
  | price _ => none
  | message text => some text

def payload : Answer → Json
  | price value => .float value
  | message text => .string text

def toJson (a : Answer) : Json :=
  .object [("status", .string a.status.word), ("payload", a.payload)]

def text (a : Answer) : String := a.toJson.text

inductive Progress where
  | start
  | known (status : Status)
  /-- The payload was read before the status and waits for it. -/
  | waiting (payload : Json)
  | finished (answer : Answer)

namespace Progress

def readWord : Json.Reader Status := fun s => do
  let (word, s) ← Json.Reader.text s
  match Status.ofWord? word with
  | some status => .ok (status, s)
  | none => .error .unfit

/-- Reads a status: its word, or an object that has null under the word and nothing else. -/
def readStatus : Json.Reader Status := fun s =>
  match Json.Reader.skipBlank s with
  | [] => .error .unfinished
  | '"' :: rest => readWord ('"' :: rest)
  | '{' :: rest =>
    match Json.Reader.skipBlank rest with
    | [] => .error .unfinished
    | '"' :: rest => do
      let (status, rest) ← readWord ('"' :: rest)
      let rest ← Json.Reader.colon rest
      let (_, rest) ← Json.Reader.nothing rest
      let rest ← Json.Reader.closeObject rest
      .ok (status, rest)
    | _ => .error .malformed
  | _ => .error .malformed

def readPayload (reading : Json.FloatReading) : Status → Json.Reader Answer
  | .success, s => do
    let (value, s) ← Json.Reader.number reading s
    .ok (.price value, s)
  | .error, s => do
    let (text, s) ← Json.Reader.text s
    .ok (.message text, s)

def ofParts (status : Status) (payload : Json) : Except Json.Fault Answer :=
  match status, payload.number?, payload.string? with
  | .success, some value, _ => .ok (.price value)
  | .error, _, some text => .ok (.message text)
  | _, _, _ => .error .unfit

def readField (reading : Json.FloatReading) (progress : Progress) (name : String) :
    Except Json.Fault (Json.Reader Progress) :=
  if name = "status" then
    match progress with
    | start => .ok fun s => do
      let (status, s) ← readStatus s
      .ok (known status, s)
    | waiting payload => .ok fun s => do
      let (status, s) ← readStatus s
      let answer ← ofParts status payload
      .ok (finished answer, s)
    | _ => .error .unfit
  else if name = "payload" then
    match progress with
    | start => .ok fun s => do
      let (payload, s) ← Json.Reader.valueBy reading true (Json.depthLimit - 1) s
      .ok (waiting payload, s)
    | known status => .ok fun s => do
      let (answer, s) ← readPayload reading status s
      .ok (finished answer, s)
    | _ => .error .unfit
  else .ok (Json.Reader.skipped progress)

end Progress

def readArray (reading : Json.FloatReading) : Json.Reader Answer := fun s => do
  match ← Json.Reader.item? true s with
  | none => .error .unfit
  | some s => do
    let (given, s) ← Progress.readWord s
    match ← Json.Reader.item? false s with
    | none => .error .unfit
    | some s => do
      let (answer, s) ← Progress.readPayload reading given s
      let s ← Json.Reader.closeArray s
      .ok (answer, s)

def read (reading : Json.FloatReading) : Json.Reader Answer := fun s => do
  match Json.Reader.skipBlank s with
  | '[' :: rest => readArray reading rest
  | '{' :: rest => do
    match ← Json.Reader.objectTail true (Progress.readField reading) .start rest with
    | (.finished answer, rest) => .ok (answer, rest)
    | _ => .error .unfit
  | s => Json.Reader.refuse s

def ofTextBy (reading : Json.FloatReading) (s : String) : Except Json.Fault Answer :=
  Json.Reader.complete (read reading) s

def ofText (s : String) : Except Json.Fault Answer := ofTextBy Json.magnitude? s

end Answer
end PriceFormula
