import FieldMacros.Macro
import FieldMacros.Preprocessor.Token

/-!
# Definitions read back

A line that defines a function-like macro is read back as the macro, and a text
as the macros that its lines define. A line that defines none is skipped.
-/

namespace FieldMacros.Macro

def directive : List Char := "#define ".toList

/-- The text between a pair of separators, without the blanks in front. -/
def trimmed (cs : List Char) : String :=
  String.ofList (cs.dropWhile Token.isBlank)

/-- The parameters in a list, and whether it ends with an ellipsis. -/
def readParams (cs : List Char) : List String × Bool :=
  if cs.all Token.isBlank then ([], false)
  else
    let items := (cs.splitOn ',').map trimmed
    if items.getLast? = some "..." then (items.dropLast, true) else (items, false)

/-- The macro that the rest of a directive defines, given its name: a list of parameters in
parentheses, a blank, and the body. -/
def readRest (name : String) : List Char → Option Macro
  | '(' :: rest =>
    match rest.dropWhile (· != ')') with
    | ')' :: ' ' :: body =>
      let params := readParams (rest.takeWhile (· != ')'))
      some ⟨name, params.1, params.2, String.ofList body⟩
    | _ => none
  | _ => none

def read? (line : String) : Option Macro :=
  if directive.isPrefixOf line.toList then
    let cs := line.toList.drop directive.length
    match cs.takeWhile Token.continuesIdentifier with
    | [] => none
    | name => readRest (String.ofList name) (cs.dropWhile Token.continuesIdentifier)
  else none

def readAll (text : String) : List Macro :=
  (Text.pieces text).filterMap read?

end FieldMacros.Macro
