import FieldMacros.CommandLine.Refusal
import FieldMacros.Text.Bytes

/-!
# Options

What a command line asks for, or why nothing can be done with it.
-/

namespace FieldMacros.CommandLine

/-- What a command line asks for. -/
structure Options where
  outfile : Bytes
  maxDepth : Int
  check : Bool
  verbose : Nat
  quiet : Bool
  deriving DecidableEq

def stdoutName : Bytes := Bytes.ofString "-"

def Options.writesToStdout (o : Options) : Bool :=
  o.outfile == stdoutName

/-- Why no options come out of a command line. -/
inductive Stop where
  | help
  | version
  | refused (r : Refusal)
  deriving DecidableEq

end FieldMacros.CommandLine
