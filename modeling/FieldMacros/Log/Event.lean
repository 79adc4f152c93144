/-!
# Log events

What a run logs: a level, the part of the program that speaks, a message and
named values.
-/

namespace FieldMacros.Log

/-- How much an event matters; a filter at one level also lets through the ones before it. -/
inductive Level where
  | error
  | warn
  | info
  | debug
  | trace
  deriving DecidableEq

namespace Level

/-- The position of a level; what matters more comes first. -/
def rank : Level → Nat
  | error => 1
  | warn => 2
  | info => 3
  | debug => 4
  | trace => 5

def label : Level → String
  | error => "ERROR"
  | warn => " WARN"
  | info => " INFO"
  | debug => "DEBUG"
  | trace => "TRACE"

end Level

structure Event where
  level : Level
  target : String
  message : String
  values : List (String × String)
  deriving DecidableEq

/-- The names of an event's fields; the message is one of them. -/
def Event.fields (e : Event) : List String :=
  "message" :: e.values.map Prod.fst

def Event.line (e : Event) : String :=
  e.level.label ++ " " ++ e.target ++ ": " ++ e.message ++
    String.join (e.values.map fun v => " " ++ v.1 ++ "=" ++ v.2) ++ "\n"

end FieldMacros.Log
