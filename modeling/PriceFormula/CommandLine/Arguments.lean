import PriceFormula.CommandLine.Binding
import PriceFormula.CommandLine.Usage

/-! Reading the arguments of the program. They are taken in order; the value of a switch is checked
when the argument after it has been seen to be one that is known. -/

namespace PriceFormula.CommandLine

inductive Source where
  | file (path : String)
  | expression (text : String)
deriving DecidableEq

structure Input where
  source : Source
  variablesFile : Option String
  bindings : List (String × Json)

inductive Command where
  | eval (input : Input) (messagesFile : Option String)
  | check (input : Input)
  | normalize (text : String)

inductive Stop where
  | refused (error : UsageError)
  | help
  | version

structure Scope where
  switches : List Switch
  /-- Whether one argument that is no switch is taken. -/
  takesText : Bool
  /-- The commands that may follow. -/
  commands : List String

namespace Scope

def program : Scope := ⟨[.verbose, .help, .version], false, ["eval", "check", "normalize", "help"]⟩

def eval : Scope := ⟨[.formula, .expr, .vars, .var, .messages, .verbose, .help], false, []⟩

def check : Scope := ⟨[.formula, .expr, .vars, .var, .verbose, .help], false, []⟩

def normalize : Scope := ⟨[.verbose, .help], true, []⟩

end Scope

structure Progress where
  /-- The switches with their values, in order. A switch without value has an empty one. -/
  entries : List (Switch × String)
  /-- The last switch with a value of its own, while it waits for the value or for its check. -/
  pending : Option (Switch × Option String)
  text : Option String

namespace Progress

def start : Progress := ⟨[], none, none⟩

private def has (p : Progress) (s : Switch) : Bool := p.entries.any fun e => e.1 = s

private def value? (p : Progress) (s : Switch) : Option String :=
  (p.entries.find? fun e => e.1 = s).map Prod.snd

private def enter (p : Progress) (s : Switch) (value : String) : Except Stop Progress :=
  if s ≠ .var ∧ p.has s then .error (.refused (.repeated s))
  else if s.namesFile ∧ value = "" then .error (.refused (.missingValue s))
  else
    match s, parseBinding value with
    | .var, .error reason => .error (.refused (.invalidValue value s reason))
    | _, _ => .ok { p with entries := p.entries ++ [(s, value)] }

private def settle (p : Progress) : Except Stop Progress :=
  match p.pending with
  | none => .ok p
  | some (s, none) => .error (.refused (.missingValue s))
  | some (s, some value) => { p with pending := none }.enter s value

private def takeFlag (p : Progress) (s : Switch) : Except Stop Progress := do
  let p ← p.settle
  match s with
  | .help => .error .help
  | .version => .error .version
  | s => p.enter s ""

private def takeAttached (p : Progress) (s : Switch) (value : String) : Except Stop Progress := do
  let p ← p.settle
  p.enter s value

private def takeOpen (p : Progress) (s : Switch) : Except Stop Progress := do
  let p ← p.settle
  .ok { p with pending := some (s, none) }

private def isWaiting (p : Progress) : Bool :=
  match p.pending with
  | some (_, none) => true
  | _ => false

end Progress

namespace Scope

private def readLong (scope : Scope) (p : Progress) (body : List Char) : Except Stop Progress :=
  let name := body.takeWhile (· ≠ '=')
  let attached :=
    if name.length < body.length then some (String.ofList (body.drop (name.length + 1))) else none
  match scope.switches.find? fun s => s.long.toList = name with
  | none => .error (.refused (.unexpectedArgument (String.ofList ('-' :: '-' :: name))))
  | some s =>
    match s.valueName?, attached with
    | some _, some value => p.takeAttached s value
    | some _, none => p.takeOpen s
    | none, some value => .error (.refused (.unexpectedValue value s))
    | none, none => p.takeFlag s

private def readShort (scope : Scope) (p : Progress) : List Char → Except Stop Progress
  | [] => .ok p
  | c :: rest =>
    match scope.switches.find? fun s => s.short? = some c with
    | none => .error (.refused (.unexpectedArgument (String.ofList ['-', c])))
    | some s =>
      if s.valueName?.isNone then do
        let p ← p.takeFlag s
        readShort scope p rest
      else
        match rest with
        | [] => p.takeOpen s
        | '=' :: value => p.takeAttached s (String.ofList value)
        | value => p.takeAttached s (String.ofList value)

private def readText (scope : Scope) (trailing : Bool) (p : Progress) (argument : String) :
    Except Stop Progress :=
  if scope.takesText ∧ p.text.isNone then .ok { p with text := some argument }
  else if scope.commands ≠ [] ∧ ¬(trailing ∧ argument ∈ scope.commands) then
    .error (.refused (.unknownCommand argument))
  else .error (.refused (.unexpectedArgument argument))

/-- Reads arguments up to their end or to a command, which is given back with the arguments behind
it. After a double dash nothing is a switch or a command. -/
def read (scope : Scope) : (trailing : Bool) → Progress → List String →
    Except Stop (Progress × Option (String × List String))
  | _, p, [] => do
    let p ← p.settle
    .ok (p, none)
  | trailing, p, argument :: rest =>
    if trailing then do
      let p ← scope.readText true p argument
      scope.read true p rest
    else if !p.isWaiting ∧ argument ∈ scope.commands then do
      let p ← p.settle
      .ok (p, some (argument, rest))
    else
      match argument.toList with
      | ['-', '-'] => scope.read true p rest
      | '-' :: '-' :: body => do
        let p ← scope.readLong p body
        scope.read false p rest
      | '-' :: c :: letters => do
        let p ← scope.readShort p (c :: letters)
        scope.read false p rest
      | _ =>
        match p.pending with
        | some (s, none) => scope.read false { p with pending := some (s, some argument) } rest
        | _ => do
          let p ← scope.readText false p argument
          scope.read false p rest

def readAll (scope : Scope) (arguments : List String) : Except Stop Progress := do
  let (p, _) ← scope.read false .start arguments
  .ok p

end Scope

namespace Input

private def ofProgress (p : Progress) : Except Stop Input := do
  let bindings := p.entries.filterMap fun
    | (.var, value) => (parseBinding value).toOption
    | _ => none
  let sources := p.entries.filter fun e => e.1 = .formula ∨ e.1 = .expr
  match sources with
  | [] => .error (.refused .missingArguments)
  | [(.formula, path)] => .ok ⟨.file path, p.value? .vars, bindings⟩
  | [(_, text)] => .ok ⟨.expression text, p.value? .vars, bindings⟩
  | first :: second :: _ => .error (.refused (.conflict first.1 second.1))

end Input

namespace Command

/-- The command in the arguments of an evaluation. Without a switch for it the messages file is the
one that the environment names. -/
private def ofEvalArguments (messagesDefault : Option String) (arguments : List String) :
    Except Stop Command := do
  let p ← Scope.eval.readAll arguments
  let p ←
    match messagesDefault with
    | some path => if p.has .messages then .ok p else p.enter .messages path
    | none => .ok p
  let input ← Input.ofProgress p
  .ok (.eval input (p.value? .messages))

private def ofCheckArguments (arguments : List String) : Except Stop Command := do
  let p ← Scope.check.readAll arguments
  let input ← Input.ofProgress p
  .ok (.check input)

private def ofNormalizeArguments (arguments : List String) : Except Stop Command := do
  let p ← Scope.normalize.readAll arguments
  match p.text with
  | some text => .ok (.normalize text)
  | none => .error (.refused .missingArguments)

private def ofHelpArguments : List String → Except Stop Command
  | [] => .error .help
  | name :: rest =>
    if name ∈ Scope.program.commands then
      match rest with
      | [] => .error .help
      | next :: _ => .error (.refused (.unknownCommand next))
    else .error (.refused (.unknownCommand name))

def ofArguments (messagesDefault : Option String) (arguments : List String) :
    Except Stop Command := do
  match ← Scope.program.read false .start arguments with
  | (_, some ("eval", rest)) => ofEvalArguments messagesDefault rest
  | (_, some ("check", rest)) => ofCheckArguments rest
  | (_, some ("normalize", rest)) => ofNormalizeArguments rest
  | (_, some (_, rest)) => ofHelpArguments rest
  | (p, none) =>
    .error (.refused (if p.entries = [] then .noArguments else .missingCommand))

end Command
end PriceFormula.CommandLine
