import FieldMacros.Diff.Table
import FieldMacros.Text.Lines

/-!
# Edit scripts

A script tells how one text becomes another, in chunks of kept, removed and
added lines. `merge` reads it off both sides and their common lines: kept
lines while all three agree, then removed lines up to the next common line,
then added ones.
-/

namespace FieldMacros.Diff

inductive Change where
  | same
  | removed
  | added
  deriving DecidableEq

/-- Successive lines that share their fate. -/
structure Chunk where
  change : Change
  pieces : List String
  deriving DecidableEq

namespace Chunk

def text (c : Chunk) : String :=
  Text.join c.pieces

/-- The chunk with the given lines; no lines make no chunk. -/
def ofPieces (change : Change) : List String → List Chunk
  | [] => []
  | ps => [⟨change, ps⟩]

end Chunk

/-- How many leading items the three lists share. -/
def agreement : List String → List String → List String → Nat
  | x :: xs, y :: ys, z :: zs => if x = z ∧ y = z then agreement xs ys zs + 1 else 0
  | _, _, _ => 0

def beforeNext (commons : List String) (line : String) : Bool :=
  commons.head? != some line

/-- The script that turns `old` into `new`, given common lines of both. It ends where no chunk
can be read off, which does not happen while the common lines are a subsequence of both sides. -/
def merge (old new commons : List String) : List Chunk :=
  let k := agreement old new commons
  let rest := commons.drop k
  let gone := (old.drop k).takeWhile (beforeNext rest)
  let fresh := (new.drop k).takeWhile (beforeNext rest)
  let old' := (old.drop k).dropWhile (beforeNext rest)
  let new' := (new.drop k).dropWhile (beforeNext rest)
  if old'.length + new'.length < old.length + new.length then
    Chunk.ofPieces .same (old.take k) ++ Chunk.ofPieces .removed gone ++
      Chunk.ofPieces .added fresh ++ merge old' new' rest
  else []
termination_by old.length + new.length

def piecesOrNone (s : String) : List String :=
  if s = "" then [] else Text.pieces s

/-- The script from one text to another. The common lines go through their joined text, in which
a single empty line is nothing. -/
def script (existing generated : String) : List Chunk :=
  let commons := Text.join (common (Text.pieces existing) (Text.pieces generated))
  merge (piecesOrNone existing) (piecesOrNone generated) (piecesOrNone commons)

end FieldMacros.Diff
