import FieldMacros.Error
import FieldMacros.Text.Bytes

/-!
# Paths

A path is a byte string that names an entry by the names that lead to it. Names
are separated by slashes; a slash at the end asks for a directory.
-/

namespace FieldMacros

structure Path where
  absolute : Bool
  names : List Bytes
  trailingSlash : Bool
  deriving DecidableEq

namespace Path

def slash : UInt8 := 0x2F

/-- The name of the directory itself. -/
def here : Bytes := [0x2E]

/-- The name of the parent directory. -/
def up : Bytes := [0x2E, 0x2E]

def nameLimit : Nat := 255

def pathLimit : Nat := 4095

def ofBytes (b : Bytes) : Path where
  absolute := b.head? == some slash
  names := (b.splitOn slash).filter (!·.isEmpty)
  trailingSlash := b.getLast? == some slash

/-- The steps that the path takes; one that asks for a directory ends inside it. -/
def steps (p : Path) : List Bytes :=
  if p.trailingSlash then p.names ++ [here] else p.names

/-- The names that lead to the directory of the path's last proper name. A path without one, or
with only one, is in the directory where it starts. -/
def folder (p : Path) : List Bytes :=
  (p.names.filter (· != here)).dropLast

/-- Names without those at the end that lead nowhere else. -/
def proper (names : List Bytes) : List Bytes :=
  (names.reverse.dropWhile fun name => name.isEmpty || name == here).reverse

/-- The directory of the path's last proper name as it is written; a path without a written one is
in the directory itself. -/
def folderText (b : Bytes) : Bytes :=
  let names := proper (proper (b.splitOn slash)).dropLast
  if names.isEmpty then here else [slash].intercalate names

/-- Whether a path can be handed to the operating system at all. -/
def usable (b : Bytes) : Except IoCause Unit :=
  if b.contains 0 then .error .nulInPath
  else if b.isEmpty then .error .notFound
  else if pathLimit < b.length then .error .nameTooLong
  else .ok ()

end Path

end FieldMacros
