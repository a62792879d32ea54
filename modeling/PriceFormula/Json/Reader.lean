import PriceFormula.Json.Basic
import PriceFormula.Json.Magnitude
import PriceFormula.Number.Numeral
import PriceFormula.Text.Hex
import PriceFormula.Text.Segment

/-! Reading JSON text from left to right. The first problem met is the one reported, so readers of
particular shapes check their fields as they go.

A value can be kept or skipped. A skipped value only has to be well formed: its numbers may have
any size, its escapes may be lone surrogates, and it may nest to any depth.

How digits become a float is left open in the readers that keep numbers. -/

namespace PriceFormula.Json

inductive Fault where
  | unfinished
  /-- The text is not JSON, or beyond a limit of what can be kept. -/
  | malformed
  /-- The text is JSON but not of the shape asked for. -/
  | unfit
deriving DecidableEq, Repr

abbrev Reader (α : Type) := List Char → Except Fault (α × List Char)

/-- A reading of floats: the float of the number written as `whole.fraction` times a power of ten,
none beyond the finite floats. -/
abbrev FloatReading := (whole fraction : List Char) → (power : Int) → Option Float

def depthLimit : Nat := 127

namespace Reader

def skipBlank (s : List Char) : List Char :=
  s.dropWhile fun c => c = ' ' ∨ c = '\n' ∨ c = '\t' ∨ c = '\r'

def word : List Char → Reader Unit
  | [], s => .ok ((), s)
  | _ :: _, [] => .error .unfinished
  | e :: expected, c :: s => if c = e then word expected s else .error .malformed

/-- Four hexadecimal digits. They are missing only if fewer than four bytes are left. -/
def hexQuad (s : List Char) : Except Fault Nat :=
  let quad := s.take 4
  if quad.length = 4 ∧ quad.all (fun c => (Text.hexDigit? c).isSome) then .ok (Text.hexValue quad)
  else if Text.width quad < 4 then .error .unfinished
  else .error .malformed

def isLeading (n : Nat) : Bool := 0xD800 ≤ n && n ≤ 0xDBFF

def isTrailing (n : Nat) : Bool := 0xDC00 ≤ n && n ≤ 0xDFFF

def trailing (s : List Char) : Except Fault Nat :=
  match s with
  | [] | ['\\'] => .error .unfinished
  | '\\' :: 'u' :: rest => do
    let n ← hexQuad rest
    if isTrailing n then .ok n else .error .malformed
  | _ => .error .malformed

def escape (keep : Bool) (s : List Char) : Except Fault (Char × Nat) :=
  match s with
  | [] => .error .unfinished
  | 'b' :: _ => .ok ('\x08', 1)
  | 'f' :: _ => .ok ('\x0c', 1)
  | 'n' :: _ => .ok ('\n', 1)
  | 'r' :: _ => .ok ('\r', 1)
  | 't' :: _ => .ok ('\t', 1)
  | 'u' :: rest => do
    let n ← hexQuad rest
    if !keep then .ok (Char.ofNat n, 5)
    else if isTrailing n then .error .malformed
    else if isLeading n then do
      let m ← trailing (rest.drop 4)
      .ok (Char.ofNat (0x10000 + (n - 0xD800) * 0x400 + (m - 0xDC00)), 11)
    else .ok (Char.ofNat n, 5)
  | c :: _ => if c = '"' ∨ c = '\\' ∨ c = '/' then .ok (c, 1) else .error .malformed

/-- The characters of a string after its first `skip` characters of text, up to and with the
closing quote. -/
def characters (keep : Bool) : (skip : Nat) → Reader (List Char)
  | _, [] => .error .unfinished
  | skip + 1, _ :: rest => characters keep skip rest
  | 0, c :: rest =>
    if c = '"' then .ok ([], rest)
    else if c = '\\' then do
      let (e, length) ← escape keep rest
      let (more, rest) ← characters keep length rest
      .ok (e :: more, rest)
    else if c.toNat < 0x20 then .error .malformed
    else do
      let (more, rest) ← characters keep 0 rest
      .ok (c :: more, rest)

def stringTail (keep : Bool) : Reader String := fun s => do
  let (cs, rest) ← characters keep 0 s
  .ok (String.ofList cs, rest)

/-- At least one digit. A kept number that stops before it is unfinished at the end of the text. -/
def someDigits (keep : Bool) : Reader (List Char) := fun s =>
  let run := Numeral.digitRun s
  if run ≠ [] then .ok (run, s.drop run.length)
  else if s = [] ∧ keep then .error .unfinished
  else .error .malformed

def wholeDigits (keep : Bool) : Reader (List Char) := fun s => do
  let (run, rest) ← someDigits keep s
  if run.head? = some '0' ∧ run.length ≠ 1 then .error .malformed else .ok (run, rest)

def fractionDigits (keep : Bool) : Reader (Option (List Char)) := fun s =>
  match s with
  | '.' :: rest => do
    let (run, rest) ← someDigits keep rest
    .ok (some run, rest)
  | _ => .ok (none, s)

def exponent (keep : Bool) : Reader (Option Int) := fun s =>
  match s with
  | mark :: rest =>
    if mark = 'e' ∨ mark = 'E' then do
      let (sign, rest) := match rest with
        | '-' :: rest => ((-1 : Int), rest)
        | '+' :: rest => (1, rest)
        | _ => (1, rest)
      let (run, rest) ← someDigits keep rest
      .ok (some (sign * Nat.ofDigitChars 10 run 0), rest)
    else .ok (none, s)
  | [] => .ok (none, s)

/-- The number with the given parts. Whole numbers beyond the integers, and minus zero, become
floats; a float beyond the finite ones cannot be kept. -/
def numberValue (reading : FloatReading) (negative : Bool) (whole : List Char)
    (fraction : Option (List Char)) (power : Option Int) : Except Fault Json :=
  let float : Except Fault Json :=
    match reading whole (fraction.getD []) (power.getD 0) with
    | some x => .ok (.float (if negative then -x else x))
    | none => .error .malformed
  match fraction, power with
  | none, none =>
    let n := Nat.ofDigitChars 10 whole 0
    if negative then (if 0 < n ∧ n ≤ 1 <<< 63 then .ok (.integer (-n)) else float)
    else if n < 1 <<< 64 then .ok (.integer n)
    else float
  | _, _ => float

def numberTail (reading : FloatReading) (keep negative : Bool) : Reader Json := fun s => do
  let (whole, s) ← wholeDigits keep s
  let (fraction, s) ← fractionDigits keep s
  let (power, s) ← exponent keep s
  if keep then do
    let n ← numberValue reading negative whole fraction power
    .ok (n, s)
  else .ok (.null, s)

def item? (first : Bool) (s : List Char) : Except Fault (Option (List Char)) :=
  match skipBlank s with
  | [] => .error .unfinished
  | c :: rest =>
    if c = ']' then .ok none
    else if first then .ok (some (c :: rest))
    else if c = ',' then
      match skipBlank rest with
      | [] => .error .unfinished
      | d :: rest => if d = ']' then .error .malformed else .ok (some (d :: rest))
    else .error .malformed

def closeArray (s : List Char) : Except Fault (List Char) :=
  match skipBlank s with
  | [] => .error .unfinished
  | c :: rest => if c = ']' then .ok rest else .error .malformed

def closeObject (s : List Char) : Except Fault (List Char) :=
  match skipBlank s with
  | [] => .error .unfinished
  | c :: rest => if c = '}' then .ok rest else .error .malformed

def items {α : Type} (item : Reader α) : (turns : Nat) → (first : Bool) → Reader (List α)
  | 0, _, _ => .error .unfinished
  | turns + 1, first, s => do
    match ← item? first s with
    | none => do
      let s ← closeArray s
      .ok ([], s)
    | some s => do
      let (x, s) ← item s
      let (xs, s) ← items item turns false s
      .ok (x :: xs, s)

def member? (first : Bool) (s : List Char) : Except Fault (List Char ⊕ List Char) :=
  match skipBlank s with
  | [] => .error .unfinished
  | c :: rest =>
    if c = '}' then .ok (.inr rest)
    else if first then .ok (.inl (c :: rest))
    else if c = ',' then
      match skipBlank rest with
      | [] => .error .unfinished
      | d :: rest => .ok (.inl (d :: rest))
    else .error .malformed

def key (keep : Bool) : Reader String := fun s =>
  match s with
  | '"' :: rest => stringTail keep rest
  | _ => .error .malformed

def colon (s : List Char) : Except Fault (List Char) :=
  match skipBlank s with
  | [] => .error .unfinished
  | c :: rest => if c = ':' then .ok rest else .error .malformed

/-- The members of an object up to and with its closing brace, at most `turns - 1` of them. Each
key first decides, from what was gathered before, how its value is read into it. -/
def members {σ : Type} (keep : Bool) (field : σ → String → Except Fault (Reader σ)) :
    (turns : Nat) → (first : Bool) → σ → Reader σ
  | 0, _, _, _ => .error .unfinished
  | turns + 1, first, gathered, s => do
    match ← member? first s with
    | .inr s => .ok (gathered, s)
    | .inl s => do
      let (name, s) ← key keep s
      let read ← field gathered name
      let s ← colon s
      let (gathered, s) ← read s
      members keep field turns false gathered s

def arrayTail {α : Type} (item : Reader α) : Reader (List α) := fun s =>
  items item (s.length + 1) true s

def objectTail {σ : Type} (keep : Bool) (field : σ → String → Except Fault (Reader σ))
    (start : σ) : Reader σ := fun s =>
  members keep field (s.length + 1) true start s

def valueBy (reading : FloatReading) (keep : Bool) (depth : Nat) : Reader Json := fun s =>
  match skipBlank s with
  | [] => .error .unfinished
  | c :: rest =>
    match c with
    | 'n' => do
      let (_, rest) ← word ['u', 'l', 'l'] rest
      .ok (.null, rest)
    | 't' => do
      let (_, rest) ← word ['r', 'u', 'e'] rest
      .ok (.bool true, rest)
    | 'f' => do
      let (_, rest) ← word ['a', 'l', 's', 'e'] rest
      .ok (.bool false, rest)
    | '"' => do
      let (text, rest) ← stringTail keep rest
      .ok (.string text, rest)
    | '-' => numberTail reading keep true rest
    | '[' =>
      match depth with
      | 0 => .error .malformed
      | depth + 1 => do
        let (xs, rest) ← arrayTail (valueBy reading keep depth) rest
        .ok (.array xs, rest)
    | '{' =>
      match depth with
      | 0 => .error .malformed
      | depth + 1 => do
        let (ms, rest) ← objectTail keep (member keep (valueBy reading keep depth)) [] rest
        .ok (.object ms, rest)
    | c => if c.isDigit then numberTail reading keep false (c :: rest) else .error .malformed
where
  member (keep : Bool) (value : Reader Json) (gathered : List (String × Json)) (name : String) :
      Except Fault (Reader (List (String × Json))) :=
    .ok fun s => do
      let (v, s) ← value s
      .ok (if keep then insertMember name v gathered else gathered, s)

def value (keep : Bool) (depth : Nat) : Reader Json := valueBy magnitude? keep depth

def skipped {α : Type} (a : α) : Reader α := fun s => do
  let (_, rest) ← value false s.length s
  .ok (a, rest)

/-- Refuses the value at the head of a text for its shape. A scalar is read first, so that a
problem inside it comes before. -/
def refuse {α : Type} (s : List Char) : Except Fault α :=
  match s with
  | '[' :: _ | '{' :: _ => .error .unfit
  | _ => do
    let _ ← value true 0 s
    .error .unfit

def text : Reader String := fun s =>
  match skipBlank s with
  | '"' :: rest => stringTail true rest
  | s => refuse s

def nothing : Reader Unit := fun s =>
  match skipBlank s with
  | 'n' :: rest => word ['u', 'l', 'l'] rest
  | s => refuse s

def number (reading : FloatReading) : Reader Float := fun s => do
  match skipBlank s with
  | '[' :: _ | '{' :: _ => .error .unfit
  | s =>
    let (v, rest) ← valueBy reading true 0 s
    match v.number? with
    | some x => .ok (x, rest)
    | none => .error .unfit

def complete {α : Type} (reader : Reader α) (s : String) : Except Fault α := do
  let (a, rest) ← reader s.toList
  if skipBlank rest = [] then .ok a else .error .malformed

end Reader

def ofText (s : String) : Except Fault Json := Reader.complete (Reader.value true depthLimit) s

end PriceFormula.Json
