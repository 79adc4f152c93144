import FieldMacros.FileTree.Resolve

/-!
# Replacing a file in one step

A file is never written in place. Its new content goes into a temporary file in
the same directory, which takes the mode of what the path leads to, is stored
and is then moved over the path. The move replaces the entry that the path
names, be it a link, so the old content stays until all of the new one is there.
A step that fails leaves the tree as it is by then, and the temporary file is
removed from it.
-/

namespace FieldMacros.FileTree

def newFileMode : Nat := 0o644

def temporaryMode : Nat := 0o600

/-- A length that no name in the tree, in a link of the tree or in the path exceeds. -/
def longestName (t : FileTree) (path : Bytes) : Nat :=
  (t.entries.map fun p => max (p.1.getLast?.getD []).length p.2.targetLength).foldl max path.length

/-- A name for a temporary file. It is longer than every name that the tree or the path mentions,
so it is new and nothing leads to it. -/
def temporaryName (t : FileTree) (path : Bytes) : Bytes :=
  Bytes.ofString ".tmp" ++ List.replicate (t.longestName path) 0x61

/-- The length of a temporary file's name outside of this model. -/
def temporaryNameLength : Nat := 10

/-- The length of the path under which the temporary file for a path is made. It leads from the
root of the file system, through the directory as it is written in the path. -/
def temporaryPathLength (t : FileTree) (path : Bytes) : Nat :=
  (if (Path.ofBytes path).absolute then 0 else t.rootLength + 1) + (Path.folderText path).length +
    1 + temporaryNameLength

/-- The root is not so deep that the path of a temporary file in it is too long. -/
def HasRoom (t : FileTree) : Prop :=
  t.temporaryPathLength Path.here ≤ Path.pathLimit

instance (t : FileTree) : Decidable t.HasRoom :=
  inferInstanceAs (Decidable (_ ≤ _))

theorem hasRoom_iff {t : FileTree} : t.HasRoom ↔ t.rootLength ≤ 4082 := by
  have hlength : t.temporaryPathLength Path.here = t.rootLength + 1 + 1 + 1 + 10 := rfl
  have hlimit : Path.pathLimit = 4095 := rfl
  rw [HasRoom, hlength, hlimit]
  omega

/-- An empty temporary file in the directory of the path, and its location. -/
def createTemporary (t : FileTree) (path : Bytes) : Except IoCause (FileTree × Location) := do
  let folder := (Path.ofBytes path).folder
  if folder.any (·.contains 0) then .error .nulInPath
  else if Path.pathLimit < t.temporaryPathLength path then .error .nameTooLong
  else
    let dir ← t.directory folder
    let l := dir ++ [t.temporaryName path]
    .ok (t.insert l (.file temporaryMode ByteArray.empty), l)

/-- The mode for a file that is to replace what the path leads to. -/
def replacementMode (t : FileTree) (path : Bytes) : Nat :=
  match t.resolve path with
  | .ok (_, e) => e.mode?.getD newFileMode
  | .error _ => newFileMode

/-- The location of the entry that a path names, which is not followed if it is a link. -/
def target (t : FileTree) (path : Bytes) : Except IoCause Location := do
  Path.usable path
  let p := Path.ofBytes path
  match p.names.getLast? with
  | none => .error .resourceBusy
  | some name => do
    let dir ← t.directory p.names.dropLast
    if name = Path.here ∨ name = Path.up then .error .resourceBusy
    else if Path.nameLimit < name.length then .error .nameTooLong
    else if p.trailingSlash then .error .notADirectory
    else
      match t.get? (dir ++ [name]) with
      | some (.directory _) => .error .isADirectory
      | _ => .ok (dir ++ [name])

def moveOver (t : FileTree) (source : Location) (path : Bytes) : Except IoCause FileTree := do
  let l ← t.target path
  match t.get? source with
  | some e => .ok ((t.erase source).insert l e)
  | none => .error .notFound

/-- What a disk refuses for reasons that no tree shows: the rest of a content after some bytes of
it, another mode, or the promise that a file is stored for good. -/
structure Disk where
  content : Option (Nat × IoCause)
  mode : Option IoCause
  sync : Option IoCause
  deriving DecidableEq

def Disk.sound : Disk := ⟨none, none, none⟩

/-- A step that has failed: why, and the tree as it is by then. -/
structure Interruption where
  cause : IoCause
  tree : FileTree

/-- Puts the content into the temporary file, or as much of it as the disk takes. -/
def fill (t : FileTree) (disk : Disk) (temporary : Location) (content : ByteArray) :
    Except Interruption FileTree :=
  match disk.content with
  | none => .ok (t.insert temporary (.file temporaryMode content))
  | some (n, c) => .error ⟨c, t.insert temporary (.file temporaryMode (content.extract 0 n))⟩

def changeMode (t : FileTree) (disk : Disk) (temporary : Location) (mode : Nat) :
    Except Interruption FileTree :=
  match disk.mode with
  | none => .ok ((t.get? temporary).elim t fun e => t.insert temporary (e.withMode mode))
  | some c => .error ⟨c, t⟩

def sync (t : FileTree) (disk : Disk) : Except Interruption FileTree :=
  match disk.sync with
  | none => .ok t
  | some c => .error ⟨c, t⟩

def persist (t : FileTree) (temporary : Location) (path : Bytes) : Except Interruption FileTree :=
  match t.moveOver temporary path with
  | .ok t' => .ok t'
  | .error c => .error ⟨c, t⟩

/-- A step on the way from an empty temporary file to the one that a path names. -/
inductive ReplaceStep where
  | fill (content : ByteArray)
  | takeMode (path : Bytes)
  | sync
  | moveOver (path : Bytes)

def ReplaceStep.all (path : Bytes) (content : ByteArray) : List ReplaceStep :=
  [.fill content, .takeMode path, .sync, .moveOver path]

def replaceStep (disk : Disk) (temporary : Location) (t : FileTree) :
    ReplaceStep → Except Interruption FileTree
  | .fill content => t.fill disk temporary content
  | .takeMode path => t.changeMode disk temporary (t.replacementMode path)
  | .sync => t.sync disk
  | .moveOver path => t.persist temporary path

/-- Makes an empty temporary file into the one that the path names. -/
def commit (t : FileTree) (disk : Disk) (temporary : Location) (path : Bytes)
    (content : ByteArray) : Except Interruption FileTree :=
  (ReplaceStep.all path content).foldlM (replaceStep disk temporary) t

theorem commit_eq (t : FileTree) (disk : Disk) (temporary : Location) (path : Bytes)
    (content : ByteArray) :
    t.commit disk temporary path content = (do
      let t ← t.fill disk temporary content
      let t ← t.changeMode disk temporary (t.replacementMode path)
      let t ← t.sync disk
      t.persist temporary path) := by
  simp only [commit, ReplaceStep.all, List.foldlM_cons, List.foldlM_nil, replaceStep, bind_pure]

/-- Replaces what a path names by a file with the given content. If that fails, the tree is as it
was. -/
def replace (t : FileTree) (path : Bytes) (content : ByteArray) (disk : Disk := .sound) :
    Except IoCause Unit × FileTree :=
  match t.createTemporary path with
  | .error c => (.error c, t)
  | .ok (t₁, temporary) =>
    match t₁.commit disk temporary path content with
    | .ok t₂ => (.ok (), t₂)
    | .error i => (.error i.cause, i.tree.erase temporary)

end FieldMacros.FileTree
