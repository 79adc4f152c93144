/-!
# Patterns for values

A directive may compare the value of a field with a pattern. Whether a pattern
is one decides whether the whole filter is valid; what it matches never matters
here, because only spans have values to compare and a run opens no span. So
there is a check of the form and no matching.

A pattern is a regular expression without counted repetition, word boundaries,
classes by property and matching without case.
-/

namespace FieldMacros.Log.Pattern

def hexDigit? (c : Char) : Option Nat :=
  if c.isDigit then some (c.toNat - '0'.toNat)
  else if 'a' ≤ c && c ≤ 'f' then some (c.toNat - 'a'.toNat + 10)
  else if 'A' ≤ c && c ≤ 'F' then some (c.toNat - 'A'.toNat + 10)
  else none

/-- The character with a code of `n` hexadecimal digits, and what follows it. -/
def coded? (n : Nat) (cs : List Char) : Option (Char × List Char) := do
  let digits ← (cs.take n).mapM hexDigit?
  let code := digits.foldl (fun value d => value * 16 + d) 0
  if digits.length = n ∧ code.isValidChar then some (Char.ofNat code, cs.drop n) else none

/-- The character that the text behind a backslash stands for, if it stands for a character and not
for a position, and what follows it. -/
def escape? : List Char → Option (Option Char × List Char)
  | 'x' :: cs => (coded? 2 cs).map fun p => (some p.1, p.2)
  | 'u' :: cs => (coded? 4 cs).map fun p => (some p.1, p.2)
  | 'U' :: cs => (coded? 8 cs).map fun p => (some p.1, p.2)
  | 'a' :: cs => some (some '\x07', cs)
  | 'f' :: cs => some (some '\x0c', cs)
  | 't' :: cs => some (some '\t', cs)
  | 'n' :: cs => some (some '\n', cs)
  | 'r' :: cs => some (some '\r', cs)
  | 'v' :: cs => some (some '\x0b', cs)
  | 'A' :: cs | 'z' :: cs => some (none, cs)
  | c :: cs =>
    if c.isAlphanum || c == '<' || c == '>' || 0x7F < c.toNat then none else some (some c, cs)
  | [] => none

/-! ## Character classes -/

def asciiClasses : List String :=
  ["alnum", "alpha", "ascii", "blank", "cntrl", "digit", "graph", "lower", "print", "punct",
   "space", "upper", "word", "xdigit"]

/-- What follows a class that is named between colons, of which the opening bracket has been
read. -/
def namedClass? : List Char → Option (List Char)
  | ':' :: cs =>
    let cs := if cs.head? = some '^' then cs.drop 1 else cs
    let name := cs.takeWhile (· != ':')
    match cs.dropWhile (· != ':') with
    | ':' :: ']' :: rest => if asciiClasses.contains (String.ofList name) then some rest else none
    | _ => none
  | _ => none

/-- What follows the beginning of a class: a negation, and dashes or a bracket that stand for
themselves. -/
def afterOpening (cs : List Char) : List Char :=
  let cs := if cs.head? = some '^' then cs.drop 1 else cs
  let rest := cs.dropWhile (· == '-')
  if rest.length = cs.length ∧ rest.head? = some ']' then rest.drop 1 else rest

def member? : List Char → Option (Char × List Char)
  | '\\' :: cs =>
    match escape? cs with
    | some (some c, rest) => some (c, rest)
    | _ => none
  | c :: cs => some (c, cs)
  | [] => none

/-- One character of a class or a range of them, and what follows. -/
def range? (cs : List Char) : Option (List Char) := do
  let (first, rest) ← member? cs
  match rest with
  | '-' :: next =>
    if next.head? = some ']' ∨ next.head? = some '-' then some rest
    else
      let (last, rest) ← member? next
      if first ≤ last then some rest else none
  | _ => some rest

/-- What follows a class, of which `depth` brackets are open. -/
def class? (fuel depth : Nat) (cs : List Char) : Option (List Char) :=
  match fuel with
  | 0 => none
  | fuel + 1 =>
    match cs with
    | [] => none
    | ']' :: rest => if depth = 1 then some rest else class? fuel (depth - 1) rest
    | '[' :: rest =>
      match namedClass? rest with
      | some rest => class? fuel depth rest
      | none => class? fuel (depth + 1) (afterOpening rest)
    | '&' :: '&' :: rest | '-' :: '-' :: rest | '~' :: '~' :: rest => class? fuel depth rest
    | cs => (range? cs).bind (class? fuel depth)

/-! ## Groups -/

inductive Opening where
  | group
  | setting
  deriving DecidableEq

def isGroupName : List Char → Bool
  | [] => false
  | c :: cs =>
    (c.isAlpha || c == '_') &&
      cs.all fun c => c.isAlphanum || c == '_' || c == '.' || c == '[' || c == ']'

/-- Whether the letters can set how the rest is read. -/
def isSetting (letters : List Char) : Bool :=
  letters.Nodup && letters.all ("msUuRxi-".toList.contains ·) && letters.getLast? != some '-' &&
    !(letters.takeWhile (· != '-')).contains 'i'

def opening? : List Char → Option (Opening × List Char)
  | '?' :: cs =>
    let named := match cs with
      | 'P' :: '<' :: rest => some rest
      | '<' :: rest => some rest
      | _ => none
    match named with
    | some rest =>
      let name := rest.takeWhile (· != '>')
      match rest.drop name.length with
      | _ :: rest => if isGroupName name then some (.group, rest) else none
      | [] => none
    | none =>
      let letters := cs.takeWhile fun c => c != ':' && c != ')'
      if isSetting letters then
        match cs.drop letters.length with
        | ':' :: rest => some (.group, rest)
        | _ :: rest => if letters.isEmpty then none else some (.setting, rest)
        | [] => none
      else none
  | cs => some (.group, cs)

/-- Whether the rest of a pattern is well formed, when `depth` groups are open and there is
something to repeat or not. -/
def wellFormedFrom (fuel depth : Nat) (repeatable : Bool) (cs : List Char) : Bool :=
  match fuel with
  | 0 => false
  | fuel + 1 =>
    match cs with
    | [] => depth = 0
    | '(' :: rest =>
      match opening? rest with
      | some (.group, rest) => wellFormedFrom fuel (depth + 1) false rest
      | some (.setting, rest) => wellFormedFrom fuel depth false rest
      | none => false
    | ')' :: rest => depth != 0 && wellFormedFrom fuel (depth - 1) true rest
    | '|' :: rest => wellFormedFrom fuel depth false rest
    | '*' :: rest | '+' :: rest | '?' :: rest => repeatable && wellFormedFrom fuel depth true rest
    | '{' :: _ => false
    | '[' :: rest =>
      match class? fuel 1 (afterOpening rest) with
      | some rest => wellFormedFrom fuel depth true rest
      | none => false
    | '\\' :: rest =>
      match escape? rest with
      | some (_, rest) => wellFormedFrom fuel depth true rest
      | none => false
    | _ :: rest => wellFormedFrom fuel depth true rest

def wellFormed (cs : List Char) : Bool :=
  wellFormedFrom (cs.length + 1) 0 false cs

end FieldMacros.Log.Pattern
