import FieldMacros.Log.Event
import FieldMacros.Log.Pattern
import FieldMacros.Text.Alphanumeric
import FieldMacros.Text.Blank

/-!
# Directives of a log filter

A directive says up to which level events are logged and for which events it
speaks: those whose target begins as it says, and, if it names a field, those
with such a field. A directive for a span or for the value of a field speaks
for no event, because a run opens no span.

It is written `target[span{field=pattern}]=level`, where every part may be
missing. A word alone is a level if it can be one and otherwise a target.
Without a level everything is let through.

A directive is read without the blanks at its ends, but its parts are cut at
the same positions from the text with the blanks. So a blank in front shifts
the parts.
-/

namespace FieldMacros.Log

/-- A field that an event is to have, and a pattern for its value. -/
structure Condition where
  field : List Char
  pattern : Option (List Char)
  deriving DecidableEq

/-- Lets through events within the level; no level lets nothing through. -/
structure Directive where
  target : List Char
  span : Option (List Char)
  condition : Option Condition
  level : Option Level
  deriving DecidableEq

namespace Level

def ofNumber? : Nat → Option (Option Level)
  | 0 => some none
  | 1 => some (some .error)
  | 2 => some (some .warn)
  | 3 => some (some .info)
  | 4 => some (some .debug)
  | 5 => some (some .trace)
  | _ => none

/-- The level with a name, in letters of either case. -/
def ofName? (word : List Char) : Option (Option Level) :=
  match String.ofList (word.map Char.toLower) with
  | "off" => some none
  | "error" => some (some .error)
  | "warn" => some (some .warn)
  | "info" => some (some .info)
  | "debug" => some (some .debug)
  | "trace" => some (some .trace)
  | _ => none

def ofWord? (word : List Char) : Option (Option Level) :=
  let digits := if word.head? = some '+' then word.drop 1 else word
  if !digits.isEmpty && digits.all Char.isDigit then ofNumber? (Nat.ofDigitChars 10 digits 0)
  else ofName? word

/-- The level behind an equals sign; nothing there lets everything through. -/
def afterEquals? (word : List Char) : Option (Option Level) :=
  if word.isEmpty then some (some .trace) else ofWord? word

end Level

/-- Whether a text behind a plus sign is a number: these are no patterns, but values all the
same. -/
def isNumberAfterPlus (cs : List Char) : Bool :=
  let whole := cs.takeWhile Char.isDigit
  let rest := cs.drop whole.length
  let fraction := if rest.head? = some '.' then (rest.drop 1).takeWhile Char.isDigit else []
  let rest := if rest.head? = some '.' then rest.drop (fraction.length + 1) else rest
  let isExponent : List Char → Bool
    | [] => true
    | e :: ds =>
      let ds := if ds.head? = some '+' ∨ ds.head? = some '-' then ds.drop 1 else ds
      (e == 'e' || e == 'E') && !ds.isEmpty && ds.all Char.isDigit
  ["inf", "infinity", "nan"].contains (String.ofList (cs.map Char.toLower)) ||
    (!(whole ++ fraction).isEmpty && isExponent rest)

def isValue (cs : List Char) : Bool :=
  Pattern.wellFormed cs || (cs.head? == some '+' && isNumberAfterPlus (cs.drop 1))

/-- The condition that is written between braces. What comes after a second equals sign is
ignored. -/
def Condition.ofText? (cs : List Char) : Option Condition :=
  let field := cs.takeWhile (· != '=')
  match cs.drop field.length with
  | [] => some ⟨field, none⟩
  | _ :: rest =>
    let pattern := rest.takeWhile (· != '=')
    if isValue pattern then some ⟨field, some pattern⟩ else none

namespace Directive

def upTo (l : Level) : Directive := ⟨[], none, none, some l⟩

def begins (c : Char) : Bool :=
  c == '[' || c == '-' || c == ':' || c == '_' || Text.isAlphanumeric c

def cut (cs : List Char) (start stop : Nat) : List Char :=
  (cs.take stop).drop start

/-- The directive with what follows at a position of the item: nothing, or an equals sign and a
level. -/
def finish? (item target : List Char) (span : Option (List Char)) (condition : Option Condition)
    (position : Nat) : List Char → Option Directive
  | [] => some ⟨target, span, condition, some .trace⟩
  | '=' :: _ =>
    (Level.afterEquals? (item.drop (position + 1))).map fun l => ⟨target, span, condition, l⟩
  | _ => none

/-- The directive with what is between brackets, which starts at a position of the item. -/
def bracketed? (item target : List Char) (position : Nat) (cs : List Char) : Option Directive :=
  let name := cs.takeWhile fun c => c != ']' && c != '{'
  let stop := position + name.length
  match cs.drop name.length with
  | ']' :: rest => finish? item target (some (cut item position stop)) none (stop + 1) rest
  | '{' :: rest =>
    let field := rest.takeWhile (· != '}')
    let close := stop + 1 + field.length
    let span := if name.isEmpty then none else some (cut item position stop)
    match rest.drop field.length with
    | '}' :: ']' :: rest => do
      if field.isEmpty then none
      let condition ← Condition.ofText? (cut item (stop + 1) close)
      finish? item target span (some condition) (close + 2) rest
    | _ => none
  | _ => none

def ofItem? (item : List Char) : Option Directive :=
  let trimmed := Text.trim item
  let head := trimmed.takeWhile fun c => c != '=' && c != '['
  let target := cut item 0 head.length
  if trimmed.head?.any begins then
    match trimmed.drop head.length with
    | [] =>
      match Level.ofWord? item with
      | some l => some ⟨[], none, none, l⟩
      | none => some ⟨item, none, none, some .trace⟩
    | '[' :: rest => bracketed? item target (head.length + 1) rest
    | rest => finish? item target none none head.length rest
  else none

def speaksFor (d : Directive) (e : Event) : Bool :=
  d.target.isPrefixOf e.target.toList && d.span.isNone &&
    match d.condition with
    | none => true
    | some c => c.pattern.isNone && e.fields.contains (String.ofList c.field)

def field? (d : Directive) : Option String :=
  d.condition.map fun c => String.ofList c.field

/-- Whether a directive is less special than another one that speaks for the same event: its target
is shorter, or else it asks for no field or for one with a lesser name. -/
def lessSpecial (d d' : Directive) : Bool :=
  d.target.length < d'.target.length ||
    (d.target.length = d'.target.length &&
      match d.field?, d'.field? with
      | none, some _ => true
      | some f, some f' => f < f'
      | _, none => false)

def allows (d : Directive) (e : Event) : Bool :=
  match d.level with
  | some l => e.level.rank ≤ l.rank
  | none => false

end Directive

end FieldMacros.Log
