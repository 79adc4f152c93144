import FieldMacros.Run.Program

/-!
# The command

The outer layer: it takes arguments and the environment from the operating
system and carries out the action that the program answers with.
-/

namespace FieldMacros.Main

def causeOfCode (code : UInt32) (details : String) : IoCause :=
  match code.toNat with
  | 2 => .notFound
  | 16 => .resourceBusy
  | 20 => .notADirectory
  | 21 => .isADirectory
  | 28 => .noSpace
  | 36 => .nameTooLong
  | 40 => .linkLoop
  | n => .other (details ++ " (os error " ++ n.repr ++ ")")

def causeOf : IO.Error → IoCause
  | .alreadyExists _ code details => causeOfCode code details
  | .otherError code details => causeOfCode code details
  | .resourceBusy code details => causeOfCode code details
  | .resourceVanished code details => causeOfCode code details
  | .unsupportedOperation code details => causeOfCode code details
  | .hardwareFault code details => causeOfCode code details
  | .unsatisfiedConstraints code details => causeOfCode code details
  | .illegalOperation code details => causeOfCode code details
  | .protocolError code details => causeOfCode code details
  | .timeExpired code details => causeOfCode code details
  | .interrupted _ code details => causeOfCode code details
  | .noFileOrDirectory _ code details => causeOfCode code details
  | .invalidArgument _ code details => causeOfCode code details
  | .permissionDenied _ code details => causeOfCode code details
  | .resourceExhausted _ code details => causeOfCode code details
  | .inappropriateType _ code details => causeOfCode code details
  | .noSuchThing _ code details => causeOfCode code details
  | .unexpectedEof => .other "unexpected end of file"
  | .userError text => .other text

/-- Does something with the system and tells why it failed, if it did. -/
def attempt {α : Type} (action : IO α) : IO (Except IoCause α) := do
  match ← action.toBaseIO with
  | .ok a => pure (.ok a)
  | .error e => pure (.error (causeOf e))

def folderName (path : Bytes) : String :=
  let p := Path.ofBytes path
  let names := p.folder.map Bytes.display
  if p.absolute then "/" ++ "/".intercalate names
  else if names.isEmpty then "." else "/".intercalate names

def rights (mode : Nat) : IO.FileRight where
  user := access (mode / 64)
  group := access (mode / 8)
  other := access mode
where
  access (n : Nat) : IO.AccessRight :=
    { read := n.testBit 2, write := n.testBit 1, execution := n.testBit 0 }

def takeStep (handle : IO.FS.Handle) (temporary : String) : FileTree.ReplaceStep → IO Unit
  | .fill content => handle.write content
  -- No mode can be read here, so every file gets that of a new one.
  | .takeMode _ => IO.setAccessRights temporary (rights FileTree.newFileMode)
  | .sync => handle.flush
  | .moveOver path => IO.FS.rename temporary path.display

/-- Replaces a file through a temporary sibling, which is removed when that fails. -/
def replaceFile (path : Bytes) (content : ByteArray) : IO (Except IoCause Unit) := do
  let temporary := folderName path ++ "/.tmp" ++ (← IO.rand 100000 999999).repr
  match ← attempt (IO.FS.Handle.mk temporary .writeNew) with
  | .error c => pure (.error c)
  | .ok handle =>
    let steps := FileTree.ReplaceStep.all path content
    let result ← attempt (steps.forM (takeStep handle temporary))
    if let .error _ := result then
      let _ ← attempt (IO.FS.removeFile temporary)
    pure result

def send (stream : IO.FS.Stream) (text : String) : IO (Except IoCause Unit) :=
  attempt do
    stream.putStr text
    stream.flush

def carryOut {α : Type} : Action α → IO α
  | .done a => pure a
  | .read path next => do pure (next (← attempt (IO.FS.readBinFile path.display)))
  | .print text next => do pure (next (← send (← IO.getStdout) text))
  | .replace path content next => do pure (next (← replaceFile path content))

/-- Does what the command line asks for; the answer is the exit code. -/
def command (args : List String) : IO UInt32 := do
  let colors := Console.wantsColors (← IO.getEnv "TERM") (← IO.getEnv "NO_COLOR")
  let action := program (← IO.getEnv "RUST_LOG") colors (args.map Bytes.ofString)
  let ending ← carryOut action
  let _ ← send (← IO.getStderr) ending.stderr
  pure ending.exitCode.toUInt32

end FieldMacros.Main

def main (args : List String) : IO UInt32 :=
  FieldMacros.Main.command args
