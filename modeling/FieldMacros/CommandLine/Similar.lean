import FieldMacros.CommandLine.Flag

/-!
# Similar names

An unknown long name is compared with the known ones by the Jaro similarity:
the mean of the shares of either name that match within a window, and of the
matches that are in order. It is computed in double precision, whose rounding
decides about names that are just at the threshold.
-/

namespace FieldMacros.CommandLine

namespace Similar

/-- The first position from `start` below `stop` that holds `c` and is not taken. -/
def matchFor (c : Char) (target : List Char) (taken : List Nat) (start stop : Nat) : Option Nat :=
  (List.range stop).find? fun j => start ≤ j && target[j]? == some c && !taken.contains j

/-- The characters of `source`, from position `i` on, that find a partner in `target` at most
`window` places away, with the partners' positions. -/
def partners (target : List Char) (window : Nat) :
    List Char → Nat → List Nat → List (Char × Nat)
  | [], _, _ => []
  | c :: cs, i, taken =>
    match matchFor c target taken (i - window) (min target.length (i + window + 1)) with
    | some j => (c, j) :: partners target window cs (i + 1) (j :: taken)
    | none => partners target window cs (i + 1) taken

def share (part whole : Nat) : Float := part.toFloat / whole.toFloat

/-- The Jaro similarity of two names, between zero and one. -/
def jaro (a b : List Char) : Float :=
  if a.isEmpty && b.isEmpty then 1
  else
    let window := max a.length b.length / 2 - 1
    let found := partners b window a 0 []
    let m := found.length
    let inOrder := (List.range b.length).filter fun j => (found.map Prod.snd).contains j
    let displaced := (found.zip inOrder).countP fun p => b[p.2]? != some p.1.1
    if m = 0 then 0
    else (share m a.length + share m b.length + share (m - displaced / 2) m) / 3

def threshold : Float := 0.7

/-- The flag whose long name is most similar to `name`, if any is similar enough; of equally
similar ones the last. -/
def flag? (name : List Char) : Option Flag :=
  let score (f : Flag) : Float := jaro name f.longName.toList
  (Flag.all.filter fun f => threshold < score f).foldl
    (fun best f => match best with
      | some g => if score f < score g then some g else some f
      | none => some f) none

end Similar

end FieldMacros.CommandLine
