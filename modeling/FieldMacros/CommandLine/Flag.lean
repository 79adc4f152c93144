/-!
# Flags

The options that take no value. Each has a long name, most have a letter that
can be combined with others behind one dash.
-/

namespace FieldMacros.CommandLine

inductive Flag where
  | check
  | verbose
  | quiet
  | help
  | version
  deriving DecidableEq

namespace Flag

/-- Every flag, in the order of the help text. -/
def all : List Flag := [check, verbose, quiet, help, version]

def longName : Flag → String
  | check => "check"
  | verbose => "verbose"
  | quiet => "quiet"
  | help => "help"
  | version => "version"

def letter? : Flag → Option Char
  | check => none
  | verbose => some 'v'
  | quiet => some 'q'
  | help => some 'h'
  | version => some 'V'

def asksForText : Flag → Bool
  | help | version => true
  | check | verbose | quiet => false

/-- The flag as messages show it; one that counts its uses has an ellipsis. -/
def shown (f : Flag) : String :=
  "--" ++ f.longName ++ (if f = verbose then "..." else "")

/-- The flag with a long name; names are never abbreviated. -/
def ofName? (name : List (Option Char)) : Option Flag :=
  all.find? fun f => f.longName.toList.map some == name

def ofLetter? (c : Char) : Option Flag :=
  all.find? fun f => f.letter? == some c

end Flag

end FieldMacros.CommandLine
