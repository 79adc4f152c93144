/-!
# Styled terminal output

Output is a list of pieces: text, and changes of style between texts. A
terminal without colours shows the texts alone. On one with colours a style is
set by a reset followed by its attributes.
-/

namespace FieldMacros.Console

inductive Color where
  | red
  | green
  | yellow
  deriving DecidableEq

structure Style where
  color : Option Color
  bold : Bool
  dimmed : Bool
  deriving DecidableEq

namespace Style

def plain : Style := ⟨none, false, false⟩

def colored (c : Color) : Style := { plain with color := some c }

end Style

/-- One element of styled output. -/
inductive Piece where
  | style (s : Style)
  | reset
  | text (s : String)
  deriving DecidableEq

/-- A control sequence that selects one graphic rendition. -/
def escape (code : String) : String :=
  "\x1b[" ++ code ++ "m"

def resetSequence : String := escape "0"

def Color.sequence : Color → String
  | red => escape "31"
  | green => escape "32"
  | yellow => escape "33"

/-- Sets the style whatever came before. -/
def Style.sequence (s : Style) : String :=
  resetSequence ++ (if s.bold then escape "1" else "") ++ (if s.dimmed then escape "2" else "") ++
    s.color.elim "" Color.sequence

namespace Piece

def render (colors : Bool) : Piece → String
  | text s => s
  | style s => if colors then s.sequence else ""
  | reset => if colors then resetSequence else ""

end Piece

def render (colors : Bool) (ps : List Piece) : String :=
  String.join (ps.map (Piece.render colors))

/-- Whether a terminal gets colours: it has to have a type that knows them, and nobody may have
asked for none. -/
def wantsColors (terminal noColor : Option String) : Bool :=
  terminal.isSome && terminal != some "dumb" && noColor.isNone

@[simp]
theorem render_append (colors : Bool) (ps qs : List Piece) :
    render colors (ps ++ qs) = render colors ps ++ render colors qs := by
  simp [render]

end FieldMacros.Console
