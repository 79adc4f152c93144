/-!
# Common lines of two texts

`table a b` holds in row `i` and column `j` the length of a longest common
subsequence of the first `i + 1` items of `a` and the first `j + 1` of `b`.
`common a b` walks back from its last cell and keeps the items on which the
two agree. The cells are compared in reading order: what precedes the first
cell of a row is the last cell of the row above, so a walk along the first
column can leave the table before it has reached the first row.
-/

namespace FieldMacros.Diff

variable {α : Type} [DecidableEq α]

/-- The rest of a row, from the rest of the row above, the cell to the left and the cell above
that one. -/
def rowFrom (x : α) : List α → List Nat → Nat → Nat → List Nat
  | y :: ys, up :: ups, left, corner =>
    let n := if x = y then corner + 1 else max left up
    n :: rowFrom x ys ups n up
  | _, _, _, _ => []

def rowsBelow (ys : List α) : List Nat → List α → List (Array Nat)
  | _, [] => []
  | above, x :: xs =>
    let row := rowFrom x ys above 0 0
    row.toArray :: rowsBelow ys row xs

abbrev Table := Array (Array Nat)

/-- The table of two lists; above the first row everything is zero. -/
def table (xs ys : List α) : Table :=
  (rowsBelow ys (List.replicate ys.length 0) xs).toArray

def Table.cell (t : Table) (i j : Nat) : Nat :=
  (t.getD i #[]).getD j 0

/-- The cell that precedes row `i`, column `j` in reading order, in a table of the given width. -/
def Table.preceding (t : Table) (width i : Nat) : Nat → Nat
  | 0 => t.cell (i - 1) (width - 1)
  | j + 1 => t.cell i j

/-- Walks back from the corner of the first `i` rows and `j` columns and puts the items on which
both sides agree in front of `found`. -/
def walk (t : Table) (xs ys : Array α) : Nat → Nat → List α → List α
  | 0, _, found => found
  | _ + 1, 0, found => found
  | i + 1, j + 1, found =>
    if xs[i]? = ys[j]? then walk t xs ys i j (xs[i]?.toList ++ found)
    else if i = 0 ∨ t.cell (i - 1) j < t.preceding ys.size i j then walk t xs ys (i + 1) j found
    else walk t xs ys i (j + 1) found
termination_by i j => i + j

def common (xs ys : List α) : List α :=
  walk (table xs ys) xs.toArray ys.toArray xs.length ys.length []

end FieldMacros.Diff
