import FieldMacros.Log.Directive

/-!
# Log filters

A filter is a list of directives. Of those that speak for an event the most
special one decides whether it is logged, and of equally special ones the last;
an event that no directive speaks for is dropped. A filter is written as a list
with commas.
-/

namespace FieldMacros.Log

abbrev Filter := List Directive

namespace Filter

def upTo (l : Level) : Filter := [Directive.upTo l]

/-- The filter that a text stands for, if all of its items are directives. Without items only
errors are let through. -/
def parse? (s : String) : Option Filter :=
  match (s.toList.splitOn ',').filter (!·.isEmpty) with
  | [] => some (upTo .error)
  | items => items.mapM Directive.ofItem?

/-- The more special one of two directives; of equally special ones the second. -/
def moreSpecial (best : Option Directive) (d : Directive) : Option Directive :=
  match best with
  | some b => if d.lessSpecial b then some b else some d
  | none => some d

def deciding? (f : Filter) (e : Event) : Option Directive :=
  (f.filter (·.speaksFor e)).foldl moreSpecial none

def allows (f : Filter) (e : Event) : Bool :=
  (f.deciding? e).any (·.allows e)

end Filter

end FieldMacros.Log
