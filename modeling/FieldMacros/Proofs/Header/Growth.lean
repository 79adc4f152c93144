import FieldMacros.Proofs.Header.Layout

/-!
# Headers of growing depth

The section of the variants only grows at its end: a deeper header begins it
with the section of a shallower one and goes on with the variants in between
(`renderVariants_eq_append`). The section of a deeper header is no part of a
shallower one, which lacks the definition of the deepest variant
(`le_of_renderVariants_infix`).
-/

namespace FieldMacros.Header

open Family Macro Text

variable {a b : Depth}

/-- The variants of the depths behind `a`, up to `b`. -/
def further (a b : Depth) : List Macro :=
  (List.range (b.level - a.level)).map fun i => variant (.nth (a.level + i))

theorem upTo_eq_append_further (h : a ≤ b) : upTo b = upTo a ++ further a b := by
  have hlevel : b.level = a.level + (b.level - a.level) := (Nat.add_sub_cancel' h).symm
  unfold upTo further Depth.levels
  rw [hlevel, List.range_add, Nat.add_sub_cancel_left]
  simp only [List.map_append, List.map_map, Function.comp_def]

theorem renderVariants_eq_append (h : a ≤ b) :
    (ofDepth b).renderVariants = (ofDepth a).renderVariants ++ renderMacros (further a b) := by
  unfold renderVariants ofDepth
  rw [upTo_eq_append_further h, renderMacros_append]

theorem renderVariants_infix_text (d : Depth) :
    (ofDepth d).renderVariants.toList <:+: (text d).toList := by
  unfold text render
  rw [String.toList_append, String.toList_append]
  exact ⟨_, _, rfl⟩

theorem definition_infix_renderMacros {m : Macro} {ms : List Macro} (h : m ∈ ms) :
    m.definition.toList <:+: (renderMacros ms).toList := by
  obtain ⟨front, back, rfl⟩ := List.append_of_mem h
  have hback : renderMacros (m :: back) = m.definition ++ ("\n\n" ++ renderMacros back) := by
    simp [renderMacros, String.append_assoc]
  rw [renderMacros_append, hback, String.toList_append, String.toList_append, ← List.append_assoc]
  exact ⟨_, _, rfl⟩

/-- A section contains the definition of its deepest variant. -/
theorem start_infix_renderVariants (d : Depth) :
    (start (variantName d)).toList <:+: (ofDepth d).renderVariants.toList := by
  have hmem : variant d ∈ upTo d := by
    obtain ⟨i, rfl⟩ := d.exists_eq_nth
    exact List.mem_map_of_mem (List.mem_map_of_mem List.self_mem_range_succ)
  have hstart : (start (variantName d)).toList <+: (variant d).definition.toList :=
    (start_prefix_iff (isIdentifier_variantName d) (legible_variant d)).2 rfl
  exact hstart.isInfix.trans (definition_infix_renderMacros hmem)

theorem le_of_renderVariants_infix (h : (ofDepth a).renderVariants.toList <:+: (text b).toList) :
    a ≤ b := by
  have hpos : 0 < occurrences (start (variantName a)) (text b) :=
    occurrencesIn_pos_iff.2 ((start_infix_renderVariants a).trans h)
  rw [occurrences_start (isIdentifier_variantName a)] at hpos
  split at hpos
  · next hmem => exact ((familyName_append_mem_names a.level b).1 hmem).2
  · cases hpos

theorem renderVariants_prefix_iff :
    (ofDepth a).renderVariants.toList <+: (ofDepth b).renderVariants.toList ↔ a ≤ b := by
  constructor
  · intro h
    exact le_of_renderVariants_infix (h.isInfix.trans (renderVariants_infix_text b))
  · intro h
    rw [renderVariants_eq_append h, String.toList_append]
    exact List.prefix_append _ _

theorem renderVariants_infix_iff :
    (ofDepth a).renderVariants.toList <:+: (text b).toList ↔ a ≤ b := by
  constructor
  · exact le_of_renderVariants_infix
  · intro h
    exact (renderVariants_prefix_iff.2 h).isInfix.trans (renderVariants_infix_text b)

/-- What a deeper section has behind a shallower one is the variants in between. -/
theorem eq_append_iff {rest : String} :
    (ofDepth b).renderVariants = (ofDepth a).renderVariants ++ rest ↔
      a ≤ b ∧ rest = renderMacros (further a b) := by
  constructor
  · intro h
    have hle : a ≤ b := by
      rw [← renderVariants_prefix_iff, h, String.toList_append]
      exact List.prefix_append _ _
    rw [renderVariants_eq_append hle] at h
    exact ⟨hle, (append_right_injective h).symm⟩
  · rintro ⟨hle, rfl⟩
    exact renderVariants_eq_append hle

theorem renderMacros_further (a b : Depth) :
    renderMacros (further a b) = String.join ((List.range (b.level - a.level)).map fun i =>
      (variant (.nth (a.level + i))).definition ++ "\n\n") := by
  rw [renderMacros, further, List.map_map]
  rfl

/-- The section of the variants of one header begins that of another exactly if it is not the
deeper one; what follows is then the definitions in between, in order and with a blank line after
each. Exactly then, too, the whole of the other header contains the section. -/
theorem variants_growth (a b : Depth) :
    ((ofDepth a).renderVariants.toList <+: (ofDepth b).renderVariants.toList ↔ a.level ≤ b.level) ∧
    (∀ rest, (ofDepth b).renderVariants = (ofDepth a).renderVariants ++ rest ↔
      a.level ≤ b.level ∧ rest = String.join ((List.range (b.level - a.level)).map fun i =>
        (variant (.nth (a.level + i))).definition ++ "\n\n")) ∧
    ((ofDepth a).renderVariants.toList <:+: (text b).toList ↔ a.level ≤ b.level) := by
  rw [← renderMacros_further]
  exact ⟨renderVariants_prefix_iff, fun rest => eq_append_iff, renderVariants_infix_iff⟩

end FieldMacros.Header
