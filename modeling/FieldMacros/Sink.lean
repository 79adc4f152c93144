import FieldMacros.FileTree.Replace

/-!
# Sinks

A sink takes one complete text. A buffer keeps the last one; standard output
passes each one on or fails as a whole; a file is replaced by each one or kept.
-/

namespace FieldMacros

structure Buffer where
  content : String
  deriving DecidableEq

namespace Buffer

def empty : Buffer := ⟨""⟩

def write (_ : Buffer) (text : String) : Buffer := ⟨text⟩

end Buffer

/-- Where standard output leads: to something that takes every text, or to a full device. -/
inductive Stdout where
  | writable
  | full
  deriving DecidableEq

/-- How writing to standard output ends, and what arrives there. -/
def Stdout.put (text : String) : Stdout → Except IoCause Unit × String
  | writable => (.ok (), text)
  | full => (.error .noSpace, "")

/-- Replaces the file that its path names. -/
structure FileSink where
  path : Bytes
  deriving DecidableEq

namespace FileSink

def report (s : FileSink) (result : Except IoCause Unit) : Except Error Unit :=
  result.mapError (.io s.path)

def write (s : FileSink) (t : FileTree) (text : String) (disk : FileTree.Disk := .sound) :
    Except Error Unit × FileTree :=
  let (result, t') := t.replace s.path text.toUTF8 disk
  (s.report result, t')

end FileSink

end FieldMacros
