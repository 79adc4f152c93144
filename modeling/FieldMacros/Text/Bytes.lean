/-!
# Bytes that are usually text

Arguments and file names are byte strings. `decode` reads one as UTF-8: a
scalar value per well-formed sequence, and `none` per maximal run of bytes that
begins such a sequence without finishing it. `display` shows the latter as
U+FFFD.
-/

namespace FieldMacros

abbrev Bytes := List UInt8

namespace Bytes

def ofString (s : String) : Bytes :=
  s.toUTF8.data.toList

/-- The text that the bytes encode, if they are UTF-8. -/
def text? (b : Bytes) : Option String :=
  String.fromUTF8? ⟨b.toArray⟩

@[simp]
theorem text?_ofString (s : String) : text? (ofString s) = some s := by
  have h : (ByteArray.mk (ofString s).toArray) = s.toByteArray := by simp [ofString]
  rw [text?, h, String.fromUTF8?, dif_pos s.isValidUTF8]
  rfl

/-- Bytes are the encoding of the text that they decode to. -/
theorem fromUTF8?_eq_some_iff {b : ByteArray} {s : String} :
    String.fromUTF8? b = some s ↔ b = s.toUTF8 := by
  unfold String.fromUTF8?
  constructor
  · intro h
    split at h
    · cases h
      rfl
    · cases h
  · rintro rfl
    exact dif_pos s.isValidUTF8

/-- The range of every byte that has to follow a first byte; `none` for a byte that begins no
sequence. -/
def followers (b : UInt8) : Option (List (UInt8 × UInt8)) :=
  if b ≤ 0x7F then some []
  else if 0xC2 ≤ b ∧ b ≤ 0xDF then some [(0x80, 0xBF)]
  else if b = 0xE0 then some [(0xA0, 0xBF), (0x80, 0xBF)]
  else if b = 0xED then some [(0x80, 0x9F), (0x80, 0xBF)]
  else if 0xE1 ≤ b ∧ b ≤ 0xEF then some [(0x80, 0xBF), (0x80, 0xBF)]
  else if b = 0xF0 then some [(0x90, 0xBF), (0x80, 0xBF), (0x80, 0xBF)]
  else if b = 0xF4 then some [(0x80, 0x8F), (0x80, 0xBF), (0x80, 0xBF)]
  else if 0xF1 ≤ b ∧ b ≤ 0xF3 then some [(0x80, 0xBF), (0x80, 0xBF), (0x80, 0xBF)]
  else none

/-- How many of the leading bytes fall into the ranges, one after the other. -/
def fitting : List (UInt8 × UInt8) → Bytes → Nat
  | (lo, hi) :: ranges, b :: rest => if lo ≤ b ∧ b ≤ hi then fitting ranges rest + 1 else 0
  | _, _ => 0

/-- The scalar value of a well-formed sequence: the payload bits of the first byte, then six of
every following byte. -/
def scalar (first : UInt8) (rest : Bytes) : Char :=
  let lead := if rest.isEmpty then first.toNat else first.toNat % (1 <<< (6 - rest.length))
  Char.ofNat (rest.foldl (fun n b => n * 64 + b.toNat % 64) lead)

/-- Reads bytes one sequence at a time, whatever they are. -/
def scan : Bytes → List (Option Char)
  | [] => []
  | b :: rest =>
    match followers b with
    | none => none :: scan rest
    | some ranges =>
      let k := fitting ranges rest
      (if k = ranges.length then some (scalar b (rest.take k)) else none) :: scan (rest.drop k)
termination_by b => b.length
decreasing_by all_goals simp; try omega

/-- The scalar values of the bytes, with `none` for every ill-formed run. -/
def decode (b : Bytes) : List (Option Char) :=
  match text? b with
  | some s => s.toList.map some
  | none => scan b

def shown (cs : List (Option Char)) : String :=
  String.ofList (cs.map (·.getD '\uFFFD'))

/-- The bytes as text, with U+FFFD for every ill-formed run. -/
def display (b : Bytes) : String :=
  shown (decode b)

@[simp]
theorem decode_ofString (s : String) : decode (ofString s) = s.toList.map some := by
  simp [decode]

@[simp]
theorem display_ofString (s : String) : display (ofString s) = s := by
  simp [display, shown, Function.comp_def]

end Bytes

end FieldMacros
