import FieldMacros.Text.Lines

/-!
# Function-like macros

A `Macro` is a preprocessor macro with parameters. Its `definition` is the one
line of a header that defines it; its `signature` is also the way to call a
macro on its own parameters.
-/

namespace FieldMacros

/-- A function-like macro. A variadic one takes further arguments after its parameters. -/
structure Macro where
  name : String
  params : List String
  variadic : Bool
  body : String
  deriving DecidableEq

namespace Macro

/-- What stands between the parentheses of a call or a definition, item by item. -/
def listing (items : List String) : String :=
  ", ".intercalate items

/-- The items of a listing. -/
def items (s : String) : List String :=
  (cut s.toList).map String.ofList
where
  /-- The pieces between a comma and a space. -/
  cut : List Char → List (List Char)
    | [] => [[]]
    | ',' :: ' ' :: cs => [] :: cut cs
    | c :: cs => (cut cs).modifyHead (c :: ·)

theorem items.cut_cons {c : Char} (hc : c ≠ ',') (cs : List Char) :
    items.cut (c :: cs) = (items.cut cs).modifyHead (c :: ·) := by
  rw [items.cut]
  exact fun _ h => absurd h hc

theorem items.cut_eq_singleton {cs : List Char} (h : ',' ∉ cs) : items.cut cs = [cs] := by
  induction cs with
  | nil => simp [items.cut]
  | cons c cs ih =>
    simp only [List.mem_cons, not_or] at h
    simp [items.cut_cons (Ne.symm h.1), ih h.2]

theorem items.cut_append {cs : List Char} (h : ',' ∉ cs) (rest : List Char) :
    items.cut (cs ++ ',' :: ' ' :: rest) = cs :: items.cut rest := by
  induction cs with
  | nil => simp [items.cut]
  | cons c cs ih =>
    simp only [List.mem_cons, not_or] at h
    simp [items.cut_cons (Ne.symm h.1), ih h.2]

/-- Reading a listing gives its items back, provided that none holds a comma. -/
theorem items_listing {xs : List String} (hne : xs ≠ []) (h : ∀ x ∈ xs, ',' ∉ x.toList) :
    items (listing xs) = xs := by
  induction xs with
  | nil => exact absurd rfl hne
  | cons x xs ih =>
    have hx := h x (by simp)
    cases xs with
    | nil => simp [items, listing, items.cut_eq_singleton hx]
    | cons y ys =>
      have := ih (by simp) fun z hz => h z (by simp [hz])
      simp_all [items, listing, items.cut_append]

def writtenParams (m : Macro) : List String :=
  if m.variadic then m.params ++ ["..."] else m.params

def call (name : String) (args : List String) : String :=
  name ++ "(" ++ listing args ++ ")"

/-- The macro applied to its own parameters. -/
def signature (m : Macro) : String :=
  call m.name m.writtenParams

/-- The line that defines the macro. -/
def definition (m : Macro) : String :=
  "#define " ++ m.signature ++ " " ++ m.body

end Macro

end FieldMacros
