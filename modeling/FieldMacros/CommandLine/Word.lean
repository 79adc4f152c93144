/-!
# Words of a command line

Before a `--` an argument is told by its dashes: a long flag with or without a
value, a cluster of letters, or an operand. A lone dash is an operand.
-/

namespace FieldMacros.CommandLine

/-- What an argument is before a `--`. -/
inductive Word where
  | terminator
  | long (name : List (Option Char)) (value : Option (List (Option Char)))
  | cluster (letters : List (Option Char))
  | operand
  deriving DecidableEq

def Word.ofDecoded : List (Option Char) → Word
  | [some '-', some '-'] => .terminator
  | some '-' :: some '-' :: rest =>
    match rest.dropWhile (· != some '=') with
    | [] => .long rest none
    | _ :: value => .long (rest.takeWhile (· != some '=')) (some value)
  | [some '-'] => .operand
  | some '-' :: rest => .cluster rest
  | _ => .operand

def looksLikeExponent : List Char → Bool
  | [] => true
  | c :: rest => (c == 'e' || c == 'E') && !rest.isEmpty && rest.all Char.isDigit

/-- Digits, then perhaps a point and digits, then perhaps an exponent. -/
def looksNumeric (cs : List Char) : Bool :=
  !(cs.takeWhile Char.isDigit).isEmpty &&
    match cs.dropWhile Char.isDigit with
    | '.' :: rest => looksLikeExponent (rest.dropWhile Char.isDigit)
    | rest => looksLikeExponent rest

end FieldMacros.CommandLine
