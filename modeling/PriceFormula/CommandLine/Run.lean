import PriceFormula.CommandLine.Arguments
import PriceFormula.Pricing.Basic

/-! Running the commands. Files come in as a function from paths to contents, which has none for
files that cannot be read; what the program prints and how it ends goes out as a report. -/

namespace PriceFormula.CommandLine

structure Report where
  exitCode : Nat
  output : String
  errorLine : Option String
deriving DecidableEq, Repr

private def firstLine (s : List Char) : List Char :=
  let line := s.takeWhile (· ≠ '\n')
  if line.length < s.length ∧ line.getLast? = some '\r' then line.dropLast else line

inductive LoadError where
  | unreadable (path : String)
  | badFormula (path : String)
  | badVariables (path : String)
  | variablesNotObject (path : String)
  | badMessages (path : String)
deriving DecidableEq, Repr

def LoadError.message : LoadError → String
  | unreadable path => "Failed to read '" ++ path ++ "'"
  | badFormula path => "Failed to parse formula '" ++ path ++ "'"
  | badVariables path => "Failed to parse variables '" ++ path ++ "'"
  | variablesNotObject path => "Variables file '" ++ path ++ "' must hold a JSON object"
  | badMessages path => "Failed to parse message table '" ++ path ++ "'"

/-- The line that tells of the error. A line break in the path ends it. -/
def LoadError.errorLine (e : LoadError) : String :=
  String.ofList (firstLine ("Error: " ++ e.message ++ "\n").toList)

abbrev Files := String → Option String

def readFile (files : Files) (path : String) : Except LoadError String :=
  match files path with
  | some contents => .ok contents
  | none => .error (.unreadable path)

namespace Input

def formula (files : Files) (input : Input) : Except LoadError StoredFormula :=
  match input.source with
  | .expression text => .ok (.single text)
  | .file path => do
    let contents ← readFile files path
    (StoredFormula.ofText contents).mapError fun _ => .badFormula path

def fileVariables (files : Files) (path : String) : Except LoadError Supplied := do
  let contents ← readFile files path
  match Json.ofText contents with
  | .ok (.object members) => .ok (.ofList members)
  | .ok _ => .error (.variablesNotObject path)
  | .error _ => .error (.badVariables path)

/-- The supplied values: those of the variables file, then the bindings in order, each in place of
an earlier value of its name. -/
def supplied (files : Files) (input : Input) : Except LoadError Supplied := do
  let fromFile ←
    match input.variablesFile with
    | some path => fileVariables files path
    | none => .ok ∅
  .ok (input.bindings.foldl (fun s (name, value) => s.insert name value) fromFile)

def pricing (files : Files) (input : Input) : Except LoadError Pricing := do
  let f ← input.formula files
  let s ← input.supplied files
  .ok (Pricing.ofStored f s)

end Input

def wordingIn (files : Files) (path : String) : Except LoadError Wording := do
  let contents ← readFile files path
  (Wording.ofText contents).mapError fun _ => .badMessages path

def modeName : Mode → String
  | .single => "Single"
  | .conditional => "Conditional"
  | .undefined => "Undefined"

def answerReport (a : Answer) : Report where
  exitCode := if a.hasPrice then 0 else 1
  output := a.text ++ "\n"
  errorLine := none

def readinessReport (p : Pricing) : Report :=
  let names := p.references.toList.map Text.unmarkColons
  let head :=
    "Mode: " ++ modeName p.mode ++ "\n"
      ++ (if names = [] then "" else "References: " ++ ", ".intercalate names ++ "\n")
  match p.unready? with
  | none => ⟨0, head ++ "Ready: yes\n", none⟩
  | some e => ⟨1, head ++ "Ready: no (" ++ e.message ++ ")\n", none⟩

namespace Command

def paths : Command → List String
  | eval input messagesFile => ofInput input ++ messagesFile.toList
  | check input => ofInput input
  | normalize _ => []
where
  ofInput (input : Input) : List String :=
    (match input.source with
      | .file path => [path]
      | .expression _ => []) ++ input.variablesFile.toList

def run (files : Files) : Command → Except LoadError Report
  | eval input messagesFile => do
    let p ← input.pricing files
    let w ←
      match messagesFile with
      | some path => wordingIn files path
      | none => .ok p.wording
    .ok (answerReport (p.inWording w).answer)
  | check input => do
    let p ← input.pricing files
    .ok (readinessReport p)
  | normalize text => .ok ⟨0, normalForm text ++ "\n", none⟩

def report (files : Files) (command : Command) : Report :=
  match command.run files with
  | .ok r => r
  | .error e => ⟨1, "", some e.errorLine⟩

end Command

def usage : String :=
  "Pricing formula evaluator\n\nUsage: " ++ programName ++ " [OPTIONS] <COMMAND>\n\n"
    ++ "Commands:\n"
    ++ "  eval       Evaluate a formula and print the outcome as JSON\n"
    ++ "  check      Report whether a formula is ready to be evaluated\n"
    ++ "  normalize  Print the normalized form of an expression\n"

namespace Stop

open Text.Terminal (bold plain)

/-- The line that tells of a usage error whose text is given. The error stream is taken to be no
terminal. -/
def errorLine (message : String) : String :=
  let text := bold "error:" ++ " " ++ message ++ UsageError.advice
  String.ofList (firstLine (plain text.toList))

def report : Stop → Report
  | refused e => ⟨2, "", e.message?.map errorLine⟩
  | help => ⟨0, usage, none⟩
  | version => ⟨0, programName ++ " " ++ programVersion ++ "\n", none⟩

end Stop

def run (messagesDefault : Option String) (files : Files) (arguments : List String) : Report :=
  match Command.ofArguments messagesDefault arguments with
  | .ok command => command.report files
  | .error stop => stop.report

end PriceFormula.CommandLine
