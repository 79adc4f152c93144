import FieldMacros.Console.Style
import FieldMacros.Depth
import FieldMacros.Diff.Script
import FieldMacros.Text.Bytes

/-!
# What a run tells its user

A status line after a successful write or check, and the differences that a
failed check has found.
-/

namespace FieldMacros.Console

def written (path : Bytes) (d : Depth) : List Piece :=
  [.style { Style.colored .green with bold := true }, .text "generated", .reset,
    .text (" MANGROVE_CHILD1..MANGROVE_CHILD" ++ d.level.repr ++ " -> " ++ path.display ++ "\n")]

def upToDate (path : Bytes) : List Piece :=
  [.style (.colored .green), .text (path.display ++ " is up to date\n"), .reset]

/-- Every line behind a mark, each on a line of its own. -/
def marked (mark : String) (lines : List String) : String :=
  String.join (lines.map fun l => mark ++ l ++ "\n")

/-- A chunk of a script: kept lines are only counted. -/
def chunk (c : Diff.Chunk) : List Piece :=
  let lines := Text.lines c.text
  match c.change with
  | .same =>
    [.style { Style.plain with dimmed := true },
      .text ("@@ " ++ lines.length.repr ++ " unchanged line(s) @@\n")]
  | .added => [.style (.colored .green), .text (marked "+" lines)]
  | .removed => [.style (.colored .red), .text (marked "-" lines)]

/-- The two lines that name the sides of a diff. -/
def diffTitle (path : Bytes) : String :=
  "--- " ++ path.display ++ " (on disk)\n+++ " ++ path.display ++ " (generated)\n"

/-- The differences from the text on disk to the generated one. -/
def diff (path : Bytes) (existing generated : String) : List Piece :=
  [.style { Style.colored .yellow with bold := true }, .text (diffTitle path), .reset] ++
    (Diff.script existing generated).flatMap chunk ++ [.reset]

end FieldMacros.Console
