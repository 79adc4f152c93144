import FieldMacros.Depth
import FieldMacros.Macro

/-!
# The family of nested-field macros

The variant of depth one looks up `field1` on `base`. Every deeper variant
recovers the type that the variant one level up reaches, looks up its last
field on that type, and hands the parent's call along, so that the resulting
pair knows its whole path. A variant calls its parent twice and no other
member of the family.
-/

namespace FieldMacros.Family

def familyName : String := "MANGROVE_CHILD"

/-- Pairs a field with the path that leads to it. -/
def wrapName : String := "make_nvp_with_parent"

/-- Looks a field up by a pointer to member. -/
def lookupName : String := "MANGROVE_KEY_BY_VALUE"

def variantName (d : Depth) : String :=
  familyName ++ d.level.repr

def fieldName (d : Depth) : String :=
  "field" ++ d.level.repr

/-- The parameters of the variant: the outermost type, then a field per level. -/
def params (d : Depth) : List String :=
  "base" :: d.levels.map fieldName

/-- The parameters as calls and definitions write them. -/
def paramText (d : Depth) : String :=
  "base, " ++ ", ".intercalate (d.levels.map fieldName)

/-- The variant called on its own parameters. -/
def invocation (d : Depth) : String :=
  variantName d ++ "(" ++ paramText d ++ ")"

theorem paramText_eq_listing (d : Depth) : paramText d = Macro.listing (params d) := by
  have hfields : d.levels.map fieldName ≠ [] := by
    rw [← List.length_pos_iff, List.length_map, Depth.length_levels]
    exact d.level_pos
  rw [params, Macro.listing, String.intercalate_cons_of_ne_nil hfields]
  rfl

theorem invocation_eq_call (d : Depth) : invocation d = Macro.call (variantName d) (params d) := by
  rw [invocation, paramText_eq_listing, Macro.call]

def body (d : Depth) : String :=
  match d.parent? with
  | none => lookupName ++ "(&base::" ++ fieldName d ++ ")"
  | some p =>
    wrapName ++ "(" ++ lookupName ++ "(&std::decay_t<typename decltype(" ++ invocation p ++
      ")::child_base_type>::" ++ fieldName d ++ "), " ++ invocation p ++ ")"

def variant (d : Depth) : Macro where
  name := variantName d
  params := params d
  variadic := false
  body := body d

@[simp]
theorem signature_variant (d : Depth) : (variant d).signature = invocation d :=
  (invocation_eq_call d).symm

/-- A definition writes the parameters the way a call does. -/
theorem definition_variant (d : Depth) :
    (variant d).definition = "#define " ++ invocation d ++ " " ++ body d := by
  rw [Macro.definition, signature_variant]
  rfl

def upTo (d : Depth) : List Macro :=
  d.levels.map variant

/-- The definition of the variant of depth three, written out. -/
def referenceDefinition : String :=
  "#define MANGROVE_CHILD3(base, field1, field2, field3) " ++
    "make_nvp_with_parent(MANGROVE_KEY_BY_VALUE(&std::decay_t<typename decltype(" ++
    "MANGROVE_CHILD2(base, field1, field2))::child_base_type>::field3), " ++
    "MANGROVE_CHILD2(base, field1, field2))"

def referenceDepth : Depth := ⟨3, by decide⟩

/-- The generated variant agrees with the reference definition. -/
def selfCheck : Bool :=
  (variant referenceDepth).definition == referenceDefinition

theorem selfCheck_eq_true : selfCheck = true := by
  decide +kernel

end FieldMacros.Family
