import FieldMacros.CommandLine.Parse

/-!
# Canonical command lines

The options that a command line can ask for, and for each of them one command
line that does: its flags by their long names, then a `--`, so that no operand
is taken for a flag.
-/

namespace FieldMacros.CommandLine.Options

/-- Options that a command line can ask for. -/
def Admissible (o : Options) : Prop :=
  o.outfile ≠ [] ∧ Numeral.least ≤ o.maxDepth ∧ o.maxDepth ≤ Numeral.greatest ∧
    o.verbose ≤ Progress.countLimit ∧ ¬(o.quiet = true ∧ 0 < o.verbose)

instance (o : Options) : Decidable o.Admissible :=
  inferInstanceAs (Decidable (_ ∧ _ ∧ _ ∧ _ ∧ _))

def longArgument (f : Flag) : Bytes :=
  Bytes.ofString ("--" ++ f.longName)

/-- The canonical command line for the options. -/
def arguments (o : Options) : List Bytes :=
  (if o.check then [longArgument .check] else []) ++
    List.replicate o.verbose (longArgument .verbose) ++
    (if o.quiet then [longArgument .quiet] else []) ++
    [Bytes.ofString "--", o.outfile, Bytes.ofString o.maxDepth.repr]

end FieldMacros.CommandLine.Options
