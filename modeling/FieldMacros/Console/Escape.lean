import FieldMacros.Console.Style

/-!
# Control sequences in a text

A control sequence is an escape character and an opening bracket, then whatever
comes up to the next `m`. `stripped` is the text without them, and `sequences`
lists what stood between bracket and `m` in each.
-/

namespace FieldMacros.Console

/-- What follows a control sequence of which the bracket has been read. -/
def afterSequence (cs : List Char) : List Char :=
  (cs.dropWhile (· != 'm')).drop 1

theorem length_afterSequence_le (cs : List Char) : (afterSequence cs).length ≤ cs.length := by
  have := (List.dropWhile_sublist (l := cs) (· != 'm')).length_le
  simp only [afterSequence, List.length_drop]
  omega

/-- A text without its control sequences. -/
def stripped : List Char → List Char
  | '\x1b' :: '[' :: cs => stripped (afterSequence cs)
  | c :: cs => c :: stripped cs
  | [] => []
termination_by cs => cs.length
decreasing_by
  · have := length_afterSequence_le cs
    simp only [List.length_cons]
    omega
  · simp

/-- What the control sequences of a text ask for, in order. -/
def sequences : List Char → List (List Char)
  | '\x1b' :: '[' :: cs => cs.takeWhile (· != 'm') :: sequences (afterSequence cs)
  | _ :: cs => sequences cs
  | [] => []
termination_by cs => cs.length
decreasing_by
  · have := length_afterSequence_le cs
    simp only [List.length_cons]
    omega
  · simp

end FieldMacros.Console
