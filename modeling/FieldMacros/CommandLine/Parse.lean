import FieldMacros.CommandLine.Options
import FieldMacros.CommandLine.Similar
import FieldMacros.CommandLine.Word
import FieldMacros.Depth

/-!
# Reading a command line

Arguments are read from left to right. The first operand is the output file and
the second the depth. An operand is kept pending and checked only when the next
operand or flag is taken, or at the end, so an unknown argument or a flag with a
value is refused before it. A number with a sign is an operand where the depth may stand.
-/

namespace FieldMacros.CommandLine

/-- What has been read so far. -/
structure Progress where
  flags : List Flag
  outfile : Option Bytes
  maxDepth : Option Int
  pending : Option Bytes
  deriving DecidableEq

namespace Progress

def start : Progress := ⟨[], none, none, none⟩

/-- How many operands have come, a pending one among them. -/
def operands (p : Progress) : Nat :=
  p.outfile.toList.length + p.maxDepth.toList.length + p.pending.toList.length

/-- The flags that have been used, each once and in the order of their last uses. -/
def used (p : Progress) : List Flag := p.flags.reverse.eraseDups.reverse

def depthGiven (p : Progress) : Bool :=
  p.maxDepth.isSome || (p.outfile.isSome && p.pending.isSome)

def usage (p : Progress) (more : List Flag) : Usage :=
  let flags := (p.used ++ more).eraseDups
  if flags.isEmpty && p.operands == 0 then .general else .specific flags p.depthGiven

/-- The usage line for a flag with a value. A pending operand does not count as an argument yet. -/
def usageWithValue (p : Progress) (f : Flag) : Usage :=
  if p.flags.isEmpty && p.outfile.isNone then .specific [f] false
  else .alternatives (if f.asksForText then some f else none)

/-- Checks a pending operand and takes it over. -/
def settle (p : Progress) : Except Stop Progress :=
  match p.pending with
  | none => .ok p
  | some b =>
    if p.outfile.isNone then
      if b.isEmpty then .error (.refused (.plain .emptyOutfile))
      else .ok { p with outfile := some b, pending := none }
    else
      match b.text? with
      | none => .error (.refused (.withUsage .notUtf8 .general))
      | some s =>
        match Numeral.read s.toList with
        | .error r => .error (.refused (.plain (.invalidDepth s r)))
        | .ok z => .ok { p with maxDepth := some z, pending := none }

/-- Takes a flag. Help and version end the reading; only `verbose` may be repeated. -/
def flag (p : Progress) (f : Flag) : Except Stop Progress := do
  let p ← p.settle
  match f with
  | .help => .error .help
  | .version => .error .version
  | .verbose => .ok { p with flags := p.flags ++ [f] }
  | .check | .quiet =>
    if f ∈ p.flags then .error (.refused (.withUsage (.repeated f) .general))
    else .ok { p with flags := p.flags ++ [f] }

/-- Takes a long flag, which must have no value; a value is refused before a pending operand
is checked. -/
def long (p : Progress) (name : List (Option Char)) (value : Option (List (Option Char))) :
    Except Stop Progress :=
  match Flag.ofName? name with
  | some f =>
    match value with
    | none => p.flag f
    | some v =>
      .error (.refused (.withUsage (.unexpectedValue f (Bytes.shown v)) (p.usageWithValue f)))
  | none =>
    let argument := "--" ++ Bytes.shown name
    match Similar.flag? (Bytes.shown name).toList with
    | some f =>
      .error (.refused ⟨.unknownArgument argument, some (.similar f), some (p.usage [f])⟩)
    | none =>
      .error (.refused ⟨.unknownArgument argument, some (.asValue argument), some (p.usage [])⟩)

/-- Takes the letters of a cluster one by one. Bytes that are no text end it. -/
def cluster (p : Progress) : List (Option Char) → Except Stop Progress
  | [] => .ok p
  | c :: rest =>
    match c.bind Flag.ofLetter? with
    | some f => do
      let p ← p.flag f
      p.cluster rest
    | none =>
      let argument := "-" ++ Bytes.shown (if c.isSome then [c] else c :: rest)
      .error (.refused ⟨.unknownArgument argument, some (.asValue argument), some .general⟩)

def operand (p : Progress) (b : Bytes) : Except Stop Progress :=
  if p.operands = 2 then
    .error (.refused (.withUsage (.unknownArgument b.display) .general))
  else do
    let p ← p.settle
    .ok { p with pending := some b }

/-- Reads the remaining arguments, among which flags may still come or not. -/
def readAll (p : Progress) (flagsAllowed : Bool) : List Bytes → Except Stop Progress
  | [] => p.settle
  | b :: rest =>
    if flagsAllowed then
      match Word.ofDecoded b.decode with
      | .terminator => p.readAll false rest
      | .operand => do (← p.operand b).readAll true rest
      | .long name value => do (← p.long name value).readAll true rest
      | .cluster letters =>
        if p.operands = 1 ∧ looksNumeric (Bytes.shown letters).toList then do
          (← p.operand b).readAll true rest
        else do (← p.cluster letters).readAll true rest
    else do (← p.operand b).readAll false rest

/-- Of two flags that exclude each other, the one whose last use came first and the other one. -/
def conflict? (p : Progress) : Option (Flag × Flag) :=
  if .quiet ∈ p.flags ∧ .verbose ∈ p.flags then
    if p.used.find? (fun f => f == .quiet || f == .verbose) = some .quiet then
      some (.quiet, .verbose)
    else some (.verbose, .quiet)
  else none

def countLimit : Nat := 255

def finish (p : Progress) : Except Stop Options :=
  match p.conflict? with
  | some (f, g) => .error (.refused (.withUsage (.conflict f g)
      (.specific (p.used.filter (· != g)) p.depthGiven)))
  | none =>
    match p.outfile with
    | none => .error (.refused (.withUsage .missingOutfile (.specific p.used p.depthGiven)))
    | some b => .ok {
        outfile := b
        maxDepth := p.maxDepth.getD Depth.documentLimit
        check := p.flags.contains .check
        verbose := min (p.flags.count .verbose) countLimit
        quiet := p.flags.contains .quiet }

end Progress

/-- The options that a command line, without the program's name, asks for. -/
def parse (args : List Bytes) : Except Stop Options := do
  (← Progress.start.readAll true args).finish

end FieldMacros.CommandLine
