import FieldMacros.Depth
import FieldMacros.Text.Blank
import FieldMacros.Text.Bytes
import FieldMacros.Text.Lines

/-!
# Errors

What ends a run early, as causes. The wording, the code and the advice of each
are functions of the cause.
-/

namespace FieldMacros

/-- Why an operation on a file or a stream failed. -/
inductive IoCause where
  | notFound
  | notADirectory
  | isADirectory
  | resourceBusy
  | nulInPath
  | nameTooLong
  | linkLoop
  | notUtf8
  | noSpace
  | other (text : String)
  deriving DecidableEq

def IoCause.message : IoCause → String
  | notFound => "No such file or directory (os error 2)"
  | notADirectory => "Not a directory (os error 20)"
  | isADirectory => "Is a directory (os error 21)"
  | resourceBusy => "Device or resource busy (os error 16)"
  | nulInPath => "file name contained an unexpected NUL byte"
  | nameTooLong => "File name too long (os error 36)"
  | linkLoop => "Too many levels of symbolic links (os error 40)"
  | notUtf8 => "stream did not contain valid UTF-8"
  | noSpace => "No space left on device (os error 28)"
  | other text => text

def decodeText (content : ByteArray) : Except IoCause String :=
  match String.fromUTF8? content with
  | some s => .ok s
  | none => .error .notUtf8

/-- What can end a run. -/
inductive Error where
  | invalidDepth (asked : Int)
  | selfCheck (expected actual : String)
  | io (path : Bytes) (cause : IoCause)
  | checkStdout
  | outOfDate (path : Bytes)
  deriving DecidableEq

namespace Error

def message : Error → String
  | invalidDepth asked => "invalid depth " ++ asked.repr ++ ": macro depth must be at least 1"
  | selfCheck _ _ => "generated MANGROVE_CHILD3 does not match the reference definition"
  | io path _ => "i/o error on " ++ path.display
  | checkStdout => "--check needs a file to compare against, not stdout"
  | outOfDate path => path.display ++ " is out of date"

def code : Error → String
  | invalidDepth _ => "macrogen::invalid_depth"
  | selfCheck _ _ => "macrogen::self_test"
  | io _ _ => "macrogen::io"
  | checkStdout => "macrogen::check_stdout"
  | outOfDate _ => "macrogen::out_of_date"

def help : Error → Option String
  | invalidDepth _ => some "pass a positive integer as the maximum depth"
  | selfCheck expected actual => some ("expected:\n" ++ expected ++ "\nactual:\n" ++ actual)
  | io _ _ => none
  | checkStdout => some "pass the path of the generated header instead of `-`"
  | outOfDate _ => some "rerun without --check to regenerate it"

/-- The failure underneath an i/o error. -/
def source : Error → Option String
  | io _ cause => some cause.message
  | _ => none

/-- The lines of a text behind a margin, without the spaces that end them. The first line has a
margin of its own. -/
def block (first margin text : String) : String :=
  let lines := (Text.pieces text).map fun l => String.ofList (Text.dropEnd (· == ' ') l.toList)
  first ++ ("\n" ++ margin).intercalate lines ++ "\n"

/-- The report that a run ends with. -/
def report (e : Error) : String :=
  "Error: " ++ e.code ++ "\n\n" ++ block "  × " "  │ " e.message ++
    (e.source.elim "" (block "  ╰─▶ " "      ")) ++ (e.help.elim "" (block "  help: " "        ")) ++
    "\n"

end Error

def Depth.accept (z : Int) : Except Error Depth :=
  match Depth.ofInt? z with
  | some d => .ok d
  | none => .error (.invalidDepth z)

end FieldMacros
