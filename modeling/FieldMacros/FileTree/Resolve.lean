import FieldMacros.FileTree.Basic
import FieldMacros.FileTree.Path

/-!
# Resolving paths

A path is walked name by name through directories. A symbolic link on the way
is replaced by the steps of its target, at most forty times.
-/

namespace FieldMacros.FileTree

/-- How many links one walk follows. -/
def linkLimit : Nat := 40

/-- Walks from the directory `dir` and follows every link. The last step may lead to a location
that holds nothing. -/
def walk (t : FileTree) (links : Nat) (dir : Location) : List Bytes → Except IoCause Location
  | [] => .ok dir
  | name :: rest =>
    if name = Path.here then t.walk links dir rest
    else if name = Path.up then t.walk links dir.dropLast rest
    else if Path.nameLimit < name.length then .error .nameTooLong
    else
      match t.get? (dir ++ [name]) with
      | some (.directory _) => t.walk links (dir ++ [name]) rest
      | some (.file _ _) => if rest.isEmpty then .ok (dir ++ [name]) else .error .notADirectory
      | some (.link target) =>
        match links with
        | 0 => .error .linkLoop
        | links + 1 =>
          let p := Path.ofBytes target
          t.walk links (if p.absolute then [] else dir) (p.steps ++ rest)
      | none => if rest.isEmpty then .ok (dir ++ [name]) else .error .notFound
termination_by names => (links, names.length)

/-- The location that a usable path leads to, following links; it may hold nothing. -/
def locate (t : FileTree) (path : Bytes) : Except IoCause Location := do
  Path.usable path
  t.walk linkLimit [] (Path.ofBytes path).steps

/-- The location and the entry that a path leads to, following links. -/
def resolve (t : FileTree) (path : Bytes) : Except IoCause (Location × Entry) := do
  let l ← t.locate path
  match t.get? l with
  | some e => .ok (l, e)
  | none => .error .notFound

def directory (t : FileTree) (names : List Bytes) : Except IoCause Location := do
  let l ← t.walk linkLimit [] names
  match t.get? l with
  | some (.directory _) => .ok l
  | some _ => .error .notADirectory
  | none => .error .notFound

def read (t : FileTree) (path : Bytes) : Except IoCause ByteArray := do
  match ← t.resolve path with
  | (_, .file _ content) => .ok content
  | _ => .error .isADirectory

def readText (t : FileTree) (path : Bytes) : Except IoCause String :=
  t.read path >>= decodeText

end FieldMacros.FileTree
