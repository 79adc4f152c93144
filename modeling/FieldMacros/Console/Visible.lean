import FieldMacros.Text.Bytes

/-!
# The visible part of a text

A terminal takes control characters and control sequences as orders and shows
the rest. A text of unknown origin is shown without them: what is left are
printable characters and spacing. Spacing inside an unfinished sequence is shown
too.

There are two readings. `visible` knows that it reads a well-formed text: it
shows every byte inside a character, and whatever is shown ends an unfinished
sequence. `visibleOnStream` knows nothing about the bytes that pass through it:
inside a sequence it hides whole characters, and spacing there interrupts the
sequence only for the printable run that follows.
-/

namespace FieldMacros.Console

/-- Where in a control sequence a reading is. -/
inductive Scan where
  /-- Outside of every sequence. -/
  | plain
  /-- Behind the escape character. -/
  | escape
  /-- Behind the escape character and an intermediate byte. -/
  | intermediate
  /-- Between the opening bracket and the final byte. -/
  | parameters
  /-- Before the final byte that starts a device control string. -/
  | header
  /-- In a string that a string terminator ends. -/
  | string
  /-- In a command string, which a bell ends. -/
  | command
  deriving DecidableEq

namespace Scan

/-- Where a reading is after a byte. Cancel and substitute end every sequence, and escape begins a
new one. -/
def next (s : Scan) (b : UInt8) : Scan :=
  if b = 0x18 ∨ b = 0x1A then plain
  else if b = 0x1B then escape
  else
    match s with
    | plain => plain
    | escape =>
      if 0x20 ≤ b ∧ b ≤ 0x2F then intermediate
      else if b = 0x5B then parameters
      else if b = 0x5D then command
      else if b = 0x50 then header
      else if b = 0x58 ∨ b = 0x5E ∨ b = 0x5F then string
      else if 0x30 ≤ b ∧ b ≤ 0x7E then plain
      else escape
    | intermediate => if 0x30 ≤ b ∧ b ≤ 0x7E then plain else intermediate
    | parameters => if 0x40 ≤ b ∧ b ≤ 0x7E then plain else parameters
    | header => if 0x40 ≤ b ∧ b ≤ 0x7E then string else header
    | string => if b = 0x9C then plain else string
    | command => if b = 0x07 then plain else command

/-- Whether spacing is shown: strings swallow it. -/
def showsSpacing : Scan → Bool
  | header | string | command => false
  | _ => true

def isSpacing (b : UInt8) : Bool :=
  b = 0x09 || b = 0x0A || b = 0x0C || b = 0x0D

/-- Whether a byte is shown that begins a character. -/
def shows (s : Scan) (b : UInt8) : Bool :=
  (s.showsSpacing && isSpacing b) || (s = plain && ((0x20 ≤ b && b ≤ 0x7E) || 0xC2 ≤ b))

def isContinuation (b : UInt8) : Bool :=
  0x80 ≤ b && b ≤ 0xBF

/-- The bytes of a well-formed text that are shown. -/
def text (s : Scan) : Bytes → Bytes
  | [] => []
  | b :: rest =>
    if s.shows b || isContinuation b then b :: plain.text rest else (s.next b).text rest

/-- The bytes on a stream that are shown. During a printable `run` the reading stays where the run
has interrupted it. -/
def stream (s : Scan) (run : Bool) : Bytes → Bytes
  | [] => []
  | b :: rest =>
    if run && 0x80 ≤ b then b :: plain.stream true rest
    else if run && plain.shows b then b :: s.stream true rest
    else if s.shows b then b :: (s.next b).stream true rest
    else (s.next b).stream false rest

end Scan

def visible (s : String) : String :=
  (Scan.plain.text (Bytes.ofString s)).display

def visibleOnStream (s : String) : String :=
  (Scan.plain.stream false (Bytes.ofString s)).display

end FieldMacros.Console
