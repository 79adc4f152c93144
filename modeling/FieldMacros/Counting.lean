import FieldMacros.Depth
import FieldMacros.Macro

/-!
# Argument counting

Four macros count the arguments of a call. `count` appends a descending
sequence of numbers to its arguments and `relay` passes all of them to the
selector, which returns whatever has landed on its parameter `N`: with `k`
arguments in front of it the sequence is shifted by `k`, and `N` meets the
number `k`. The selector and the sequence are written up to one bound, and their
sizes are told apart from it.
-/

namespace FieldMacros

/-- The selector and the sequence that count the arguments of one header's variants. -/
structure Counting where
  selector : Macro
  sequence : Macro
  deriving DecidableEq

namespace Counting

def selectorName : String := "MANGROVE_PP_ARG_N"

def sequenceName : String := "MANGROVE_PP_RSEQ_N"

def count : Macro where
  name := "MANGROVE_PP_NARG"
  params := []
  variadic := true
  body := "MANGROVE_PP_NARG_(__VA_ARGS__, MANGROVE_PP_RSEQ_N())"

/-- Lets its arguments be expanded before the selector sees them. -/
def relay : Macro where
  name := "MANGROVE_PP_NARG_"
  params := []
  variadic := true
  body := "MANGROVE_PP_ARG_N(__VA_ARGS__)"

/-- The arguments that can be counted beyond one for each level: the outermost type, and one more. -/
def margin : Nat := 2

/-- The bound of the loops that write the selector and the sequence. -/
def slots (d : Depth) : Nat :=
  d.level + margin

/-- How many placeholders the selector is said to have. -/
def placeholders (d : Depth) : Nat :=
  d.level + margin

def sequenceLength (d : Depth) : Nat :=
  placeholders d + 1

theorem slots_eq (d : Depth) : slots d = d.level + 2 := rfl

theorem placeholders_eq (d : Depth) : placeholders d = d.level + 2 := rfl

def placeholder (i : Nat) : String :=
  "_" ++ i.repr

/-- Returns its argument after the placeholders. -/
def selectorMacro (d : Depth) : Macro where
  name := selectorName
  params := (List.range (slots d)).map placeholder ++ ["N"]
  variadic := true
  body := "N"

def sequenceMacro (d : Depth) : Macro where
  name := sequenceName
  params := []
  variadic := false
  body := Macro.listing ((List.range (slots d + 1)).reverse.map Nat.repr)

def ofDepth (d : Depth) : Counting where
  selector := selectorMacro d
  sequence := sequenceMacro d

def render (c : Counting) : String :=
  c.selector.definition ++ "\n\n" ++ c.sequence.definition ++ "\n\n"

end Counting

end FieldMacros
