import FieldMacros.Console.Style
import FieldMacros.Depth
import FieldMacros.Log.Filter
import FieldMacros.Text.Bytes

/-!
# Notices

What a run puts on standard error, in order: log events, which a filter may
drop, and styled pieces for its user. The events of the program are listed
here.
-/

namespace FieldMacros

inductive Notice where
  | event (e : Log.Event)
  | piece (p : Console.Piece)
  deriving DecidableEq

namespace Notice

def render (colors : Bool) (filter : Log.Filter) : Notice → String
  | event e => if filter.allows e then e.line else ""
  | piece p => p.render colors

def renderAll (colors : Bool) (filter : Log.Filter) (ns : List Notice) : String :=
  String.join (ns.map (render colors filter))

def ofPieces (ps : List Console.Piece) : List Notice :=
  ps.map piece

def logLines (filter : Log.Filter) (ns : List Notice) : List String :=
  ns.filterMap fun
    | event e => if filter.allows e then some e.line else none
    | piece _ => none

end Notice

namespace Log.Event

def selfChecked : Log.Event :=
  ⟨.debug, "mangrove_macrogen::child", "MANGROVE_CHILD3 matches reference definition", []⟩

def tooDeep (d : Depth) : Log.Event :=
  ⟨.warn, "mangrove_macrogen::document",
    "depth exceeds BSON's nesting limit of " ++ Depth.documentLimit.repr ++
      "; deeper macros can never match a document",
    [("max_depth", d.level.repr)]⟩

def generated (variants : Nat) : Log.Event :=
  ⟨.debug, "mangrove_macrogen::document", "generated child macros", [("variants", variants.repr)]⟩

def wrote (path : Bytes) (bytes : Nat) : Log.Event :=
  ⟨.info, "mangrove_macrogen::sink", "wrote document",
    [("path", path.display), ("bytes", bytes.repr)]⟩

def nothingToCheck (path : Bytes) : Log.Event :=
  ⟨.warn, "mangrove_macrogen::cli", "no existing file to check against",
    [("path", path.display)]⟩

end Log.Event

end FieldMacros
