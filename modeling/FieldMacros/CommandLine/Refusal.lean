import FieldMacros.CommandLine.Flag
import FieldMacros.Console.Visible
import FieldMacros.Text.Numeral

/-!
# Refused command lines

What is wrong with a command line, and the report about it: a message, for some
faults a tip and a usage line, and a pointer to the help text. Of what the
arguments hold only the visible part is reported.
-/

namespace FieldMacros.CommandLine

/-- What is wrong with a command line. -/
inductive Fault where
  | unknownArgument (argument : String)
  | emptyOutfile
  | invalidDepth (value : String) (reason : NumeralFault)
  | notUtf8
  | unexpectedValue (flag : Flag) (value : String)
  | repeated (flag : Flag)
  | conflict (flag other : Flag)
  | missingOutfile
  deriving DecidableEq

/-- The message about a fault, with a view of what comes from the arguments. -/
def Fault.message (view : String → String) : Fault → String
  | unknownArgument a => "error: unexpected argument '" ++ view a ++ "' found"
  | emptyOutfile => "error: a value is required for '<OUTFILE>' but none was supplied"
  | invalidDepth v r => "error: invalid value '" ++ view v ++ "' for '[MAX_DEPTH]': " ++ r.message
  | notUtf8 => "error: invalid UTF-8 was detected in one or more arguments"
  | unexpectedValue f v =>
    "error: unexpected value '" ++ view v ++ "' for '" ++ f.shown ++
      "' found; no more were expected"
  | repeated f => "error: the argument '" ++ f.shown ++ "' cannot be used multiple times"
  | conflict f g =>
    "error: the argument '" ++ f.shown ++ "' cannot be used with '" ++ g.shown ++ "'"
  | missingOutfile => "error: the following required arguments were not provided:\n  <OUTFILE>"

inductive Tip where
  | similar (flag : Flag)
  | asValue (argument : String)
  deriving DecidableEq

def Tip.message (view : String → String) : Tip → String
  | similar f => "tip: a similar argument exists: '--" ++ f.longName ++ "'"
  | asValue a => "tip: to pass '" ++ view a ++ "' as a value, use '-- " ++ view a ++ "'"

/-- A usage line: for any command line, for those with certain arguments, or with everything that
a run takes as alternatives. -/
inductive Usage where
  | general
  | specific (flags : List Flag) (depthGiven : Bool)
  | alternatives (flag : Option Flag)
  deriving DecidableEq

namespace Usage

def programName : String := "mangrove-macrogen"

/-- The names of everything that a run takes. -/
def ofRun : List String :=
  ["OUTFILE", "MAX_DEPTH"] ++ (Flag.all.filter fun f => !f.asksForText).map Flag.shown

def render : Usage → String
  | general => "Usage: " ++ programName ++ " [OPTIONS] <OUTFILE> [MAX_DEPTH]"
  | specific flags depthGiven =>
    "Usage: " ++ programName ++ String.join (flags.map fun f => " " ++ f.shown) ++ " <OUTFILE> " ++
      (if depthGiven then "<MAX_DEPTH>" else "[MAX_DEPTH]")
  | alternatives flag =>
    "Usage: " ++ programName ++ (flag.elim "" fun f => " " ++ f.shown) ++
      " <" ++ "|".intercalate ofRun ++ ">"

end Usage

/-- A fault with what is said beside it. -/
structure Refusal where
  fault : Fault
  tip : Option Tip
  usage : Option Usage
  deriving DecidableEq

namespace Refusal

def plain (f : Fault) : Refusal := ⟨f, none, none⟩

def withUsage (f : Fault) (u : Usage) : Refusal := ⟨f, none, some u⟩

/-- The whole report, a blank line between its parts. -/
def report (view : String → String) (r : Refusal) : String :=
  r.fault.message view ++ "\n\n" ++ (r.tip.elim "" fun t => "  " ++ t.message view ++ "\n\n") ++
    (r.usage.elim "" fun u => u.render ++ "\n\n") ++ "For more information, try '--help'.\n"

def beforeBlankLine : List Char → List Char
  | '\n' :: '\n' :: _ => []
  | c :: cs => c :: beforeBlankLine cs
  | [] => []

/-- The beginning of the report: the message, or the part of it before a blank line that the
arguments have brought in. -/
def summary (r : Refusal) : String :=
  String.ofList (beforeBlankLine (r.report Console.visible).toList)

end Refusal

end FieldMacros.CommandLine
