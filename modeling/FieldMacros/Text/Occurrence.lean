/-!
# Occurrences of a text in another

An occurrence is a position from which the other text goes on with the given
one; occurrences may overlap. `behind?` cuts a text at the first one.
-/

namespace FieldMacros.Text

/-- How many positions of a text the given one begins at. -/
def occurrencesIn (needle : List Char) : List Char → Nat
  | [] => if needle.isEmpty then 1 else 0
  | c :: cs => (if needle.isPrefixOf (c :: cs) then 1 else 0) + occurrencesIn needle cs

def occurrences (needle s : String) : Nat :=
  occurrencesIn needle.toList s.toList

def behindIn? (needle : List Char) : List Char → Option (List Char)
  | [] => if needle.isEmpty then some [] else none
  | c :: cs =>
    if needle.isPrefixOf (c :: cs) then some ((c :: cs).drop needle.length)
    else behindIn? needle cs

/-- What follows the first occurrence of one text in another. -/
def behind? (needle s : String) : Option String :=
  (behindIn? needle.toList s.toList).map String.ofList

end FieldMacros.Text
