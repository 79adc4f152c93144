import FieldMacros.CommandLine.Options
import FieldMacros.Console.Status
import FieldMacros.Error
import FieldMacros.Header
import FieldMacros.Run.Notice

/-!
# Verdicts

What a run decides without touching files: whether a header is generated at
all, and what follows from the outcome of reading or writing it. A quiet run
decides the same and says less.
-/

namespace FieldMacros

open CommandLine (Options)

/-- The header of depth `d`, provided that the generator passes its self-check. -/
def Header.generate (d : Depth) : Except Error Header :=
  if Family.selfCheck then .ok (ofDepth d)
  else .error (.selfCheck Family.referenceDefinition
    (Family.variant Family.referenceDepth).definition)

@[simp]
theorem Header.generate_eq_ok (d : Depth) : Header.generate d = .ok (ofDepth d) := by
  simp [generate, Family.selfCheck_eq_true]

/-- The header that a run works with. A check of standard output is refused before the depth is
looked at. -/
def CommandLine.Options.header (o : Options) : Except Error Header := do
  if o.check && o.writesToStdout then .error .checkStdout
  else Header.generate (← Depth.accept o.maxDepth)

/-- How a run ends, and what it has said on the way. -/
structure Verdict where
  result : Except Error Unit
  notices : List Notice

namespace Verdict

def after (notices : List Notice) (v : Verdict) : Verdict :=
  { v with notices := notices ++ v.notices }

def generation (h : Header) : List Notice :=
  [.event .selfChecked] ++ (if h.depth.exceedsLimit then [.event (.tooDeep h.depth)] else []) ++
    [.event (.generated h.variants.length)]

def unlessQuiet (o : Options) (ps : List Console.Piece) : List Notice :=
  if o.quiet then [] else Notice.ofPieces ps

/-- A check of an existing text. -/
def comparison (o : Options) (existing generated : String) : Verdict :=
  if existing = generated then ⟨.ok (), unlessQuiet o (Console.upToDate o.outfile)⟩
  else ⟨.error (.outOfDate o.outfile), unlessQuiet o (Console.diff o.outfile existing generated)⟩

/-- A check of what reading the file has given. A missing file counts as an empty one. -/
def check (o : Options) (generated : String) : Except IoCause String → Verdict
  | .ok existing => comparison o existing generated
  | .error .notFound =>
    let v := comparison o "" generated
    { v with notices := .event (.nothingToCheck o.outfile) :: v.notices }
  | .error c => ⟨.error (.io o.outfile c), []⟩

def write (o : Options) (h : Header) (bytes : Nat) : Except Error Unit → Verdict
  | .ok () => ⟨.ok (), .event (.wrote o.outfile bytes) ::
      unlessQuiet o (Console.written o.outfile h.depth)⟩
  | .error e => ⟨.error e, []⟩

/-- What stands for standard output in an error. -/
def stdoutPath : Bytes := Bytes.ofString "<stdout>"

def print : Except IoCause Unit → Verdict
  | .ok () => ⟨.ok (), []⟩
  | .error c => ⟨.error (.io stdoutPath c), []⟩

end Verdict

end FieldMacros
