/-!
# Preprocessor tokens

A text is read as identifiers, numbers and single punctuation characters; blanks
only separate them. A punctuator of several characters is as many tokens, which
changes no expansion, since expansion only looks at identifiers, parentheses and
commas.
-/

namespace FieldMacros

inductive Token where
  | identifier (name : String)
  | number (digits : String)
  | symbol (c : Char)
  deriving DecidableEq

namespace Token

def beginsIdentifier (c : Char) : Bool :=
  c.isAlpha || c == '_'

def continuesIdentifier (c : Char) : Bool :=
  c.isAlphanum || c == '_'

/-- A character that only separates tokens. -/
def isBlank (c : Char) : Bool :=
  c == ' ' || c == '\t' || c == '\n' || c == '\r'

theorem length_dropWhile_le (p : Char → Bool) (cs : List Char) :
    (cs.dropWhile p).length ≤ cs.length :=
  (List.dropWhile_sublist p).length_le

def ofChars : List Char → List Token
  | [] => []
  | c :: cs =>
    if isBlank c then ofChars cs
    else if beginsIdentifier c then
      identifier (String.ofList (c :: cs.takeWhile continuesIdentifier)) ::
        ofChars (cs.dropWhile continuesIdentifier)
    else if c.isDigit then
      number (String.ofList (c :: cs.takeWhile continuesIdentifier)) ::
        ofChars (cs.dropWhile continuesIdentifier)
    else symbol c :: ofChars cs
termination_by cs => cs.length
decreasing_by
  all_goals
    have := length_dropWhile_le continuesIdentifier cs
    simp only [List.length_cons]
    omega

def ofString (s : String) : List Token :=
  ofChars s.toList

end Token

end FieldMacros
