import PriceFormula.Text.Terminal

namespace PriceFormula.CommandLine

def programName : String := "kalk"

def programVersion : String := "0.1.0"

inductive Switch where
  | formula | expr | vars | var | messages | verbose | help | version
deriving DecidableEq, Repr

namespace Switch

def long : Switch → String
  | formula => "formula"
  | expr => "expr"
  | vars => "vars"
  | var => "var"
  | messages => "messages"
  | verbose => "verbose"
  | help => "help"
  | version => "version"

def short? : Switch → Option Char
  | formula => some 'f'
  | expr => some 'e'
  | messages => some 'm'
  | verbose => some 'v'
  | help => some 'h'
  | version => some 'V'
  | vars | var => none

def valueName? : Switch → Option String
  | formula => some "FORMULA"
  | expr => some "EXPR"
  | vars => some "VARS"
  | var => some "NAME=VALUE"
  | messages => some "MESSAGES"
  | verbose | help | version => none

def namesFile : Switch → Bool
  | formula | vars | messages => true
  | _ => false

def shown (s : Switch) : String :=
  match s.valueName? with
  | some name => "--" ++ s.long ++ " <" ++ name ++ ">"
  | none => "--" ++ s.long

end Switch

inductive UsageError where
  | unexpectedArgument (argument : String)
  | unexpectedValue (value : String) (switch : Switch)
  | missingValue (switch : Switch)
  | repeated (switch : Switch)
  /-- Two switches of which only one may stand, in the order given. -/
  | conflict (first second : Switch)
  | invalidValue (value : String) (switch : Switch) (reason : String)
  | missingArguments
  | unknownCommand (name : String)
  | missingCommand
  /-- No arguments at all, which shows how the program is used. -/
  | noArguments
deriving DecidableEq, Repr

namespace UsageError

open Text.Terminal (bold warned)

def message? : UsageError → Option String
  | unexpectedArgument argument =>
    some ("unexpected argument '" ++ warned argument ++ "' found")
  | unexpectedValue value switch =>
    some ("unexpected value '" ++ warned value ++ "' for '" ++ bold switch.shown
      ++ "' found; no more were expected")
  | missingValue switch =>
    some ("a value is required for '" ++ warned switch.shown ++ "' but none was supplied")
  | repeated switch =>
    some ("the argument '" ++ warned switch.shown ++ "' cannot be used multiple times")
  | conflict first second =>
    some ("the argument '" ++ warned first.shown ++ "' cannot be used with '"
      ++ warned second.shown ++ "'")
  | invalidValue value switch reason =>
    some ("invalid value '" ++ warned value ++ "' for '" ++ bold switch.shown ++ "': " ++ reason)
  | missingArguments => some "the following required arguments were not provided:"
  | unknownCommand name => some ("unrecognized subcommand '" ++ warned name ++ "'")
  | missingCommand =>
    some ("'" ++ warned programName ++ "' requires a subcommand but one was not provided")
  | noArguments => none

def advice : String := "\n\nFor more information, try '" ++ bold "--help" ++ "'.\n"

end UsageError

end PriceFormula.CommandLine
