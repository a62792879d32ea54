import PriceFormula.CommandLine.Run

/-! The program: it reads the files that its arguments name, prints the report and ends with its
exit code. -/

namespace PriceFormula.CommandLine

private def readTextFile (path : String) : IO (Option String) :=
  try
    let contents ← IO.FS.readFile path
    pure (some contents)
  catch _ => pure none

end PriceFormula.CommandLine

open PriceFormula.CommandLine

def main (arguments : List String) : IO UInt32 := do
  let messagesDefault ← IO.getEnv "KALK_MESSAGES"
  let paths :=
    match Command.ofArguments messagesDefault arguments with
    | .ok command => command.paths
    | .error _ => []
  let contents ← paths.mapM fun path => do
    let text ← readTextFile path
    pure (path, text)
  let files := fun path => (contents.find? fun entry => entry.1 = path).bind Prod.snd
  let report := run messagesDefault files arguments
  IO.print report.output
  match report.errorLine with
  | some line => IO.eprintln line
  | none => pure ()
  pure (UInt32.ofNat report.exitCode)
