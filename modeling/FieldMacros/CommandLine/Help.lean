import FieldMacros.CommandLine.Refusal

/-!
# Help and version texts
-/

namespace FieldMacros.CommandLine

def helpText : String :=
  "Generates `max_depth` levels of the MANGROVE_CHILD* macro and writes them to `outfile`.\n" ++
  "\n" ++
  Usage.general.render ++ "\n" ++
  "\n" ++
  "Arguments:\n" ++
  "  <OUTFILE>    File to write the generated header to, or `-` for stdout\n" ++
  "  [MAX_DEPTH]  Deepest MANGROVE_CHILD variant to generate. Defaults to BSON's nesting limit " ++
  "[default: 100]\n" ++
  "\n" ++
  "Options:\n" ++
  "      --check       Compare against the existing `outfile` instead of writing it\n" ++
  "  -v, --verbose...  Log more (repeat for debug output)\n" ++
  "  -q, --quiet       Only report errors\n" ++
  "  -h, --help        Print help\n" ++
  "  -V, --version     Print version\n"

def versionText : String :=
  Usage.programName ++ " 0.1.0\n"

end FieldMacros.CommandLine
