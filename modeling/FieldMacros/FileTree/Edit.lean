import FieldMacros.FileTree.Resolve

/-!
# Other changes to a tree

What other programs do to a tree between two runs: write a file through links,
make directories and links, change a mode, remove an entry. A change that is
impossible leaves the tree alone.
-/

namespace FieldMacros.FileTree

/-- The mode of a new directory, apart from what it inherits. -/
def newDirectoryMode : Nat := 0o755

/-- The bit of a directory's mode that new directories in it inherit. -/
def inheritedBit : Nat := 0o2000

def modeBelow (t : FileTree) (dir : Location) : Nat :=
  newDirectoryMode ||| (((t.get? dir).bind Entry.mode?).getD 0 &&& inheritedBit)

/-- The tree with a file of the given mode and content where the path leads. -/
def writeFile (t : FileTree) (path : Bytes) (mode : Nat) (content : ByteArray) : FileTree :=
  match t.locate path with
  | .ok l => t.insert l (.file mode content)
  | .error _ => t

/-- Makes every missing directory on the way along the names. -/
def makeDirectoriesFrom (t : FileTree) (done : List Bytes) : List Bytes → FileTree
  | [] => t
  | name :: rest =>
    let names := done ++ [name]
    match t.walk linkLimit [] names with
    | .ok l =>
      match t.get? l with
      | none => (t.insert l (.directory (t.modeBelow l.dropLast))).makeDirectoriesFrom names rest
      | some _ => t.makeDirectoriesFrom names rest
    | .error _ => t

def makeDirectories (t : FileTree) (path : Bytes) : FileTree :=
  t.makeDirectoriesFrom [] (Path.ofBytes path).names

/-- The location that a path names in its directory, not followed. -/
def named? (t : FileTree) (path : Bytes) : Option Location :=
  let p := Path.ofBytes path
  match p.names.getLast?, t.directory p.names.dropLast with
  | some name, .ok dir => some (dir ++ [name])
  | _, _ => none

def makeLink (t : FileTree) (path target : Bytes) : FileTree :=
  (t.named? path).elim t fun l => t.insert l (.link target)

def setMode (t : FileTree) (path : Bytes) (mode : Nat) : FileTree :=
  match t.resolve path with
  | .ok ([], _) => { t with rootMode := mode }
  | .ok (l, e) => t.insert l (e.withMode mode)
  | .error _ => t

/-- Removes what the path names, with everything below it. -/
def remove (t : FileTree) (path : Bytes) : FileTree :=
  (t.named? path).elim t fun l => { t with entries := t.entries.filter fun p => !l.isPrefixOf p.1 }

end FieldMacros.FileTree
