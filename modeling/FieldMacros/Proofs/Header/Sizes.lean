import FieldMacros.Proofs.Header.Arity
import FieldMacros.Proofs.Text.Numerals
import Mathlib.Data.List.Range

/-!
# How large the selector and the sequence are

The sizes are computed from the depth, the two definitions are written item by
item up to a bound of their own (`slots_eq_placeholders`). A reader who takes the
definitions apart again finds as many placeholders and numbers as the sizes say
(`sizes_of_definitions`), and the depth can be told from the text
(`render_injective`).
-/

namespace FieldMacros.Counting

open Macro Text

/-! ## The selector -/

theorem items_enclosed_selector (d : Depth) :
    items (enclosed (ofDepth d).selector.definition) =
      (List.range (slots d)).map ("_" ++ ·.repr) ++ ["N", "..."] := by
  have hlegible := legible_selectorMacro d
  have hselector : (ofDepth d).selector = selectorMacro d := rfl
  have hwritten : (selectorMacro d).writtenParams =
      (List.range (slots d)).map ("_" ++ ·.repr) ++ ["N", "..."] :=
    List.append_assoc _ ["N"] ["..."]
  rw [hselector, (enclosed_definition hlegible).1, ← hwritten]
  refine items_listing ?_ (not_mem_writtenParams hlegible (by decide) (by decide))
  rw [hwritten]
  exact List.append_ne_nil_of_right_ne_nil _ (List.cons_ne_nil _ _)

theorem nodup_items_selector (d : Depth) :
    ((List.range (slots d)).map ("_" ++ ·.repr) ++ ["N", "..."]).Nodup := by
  have hellipsis : "..." ∉ (selectorMacro d).params := fun h =>
    ne_ellipsis ((legible_selectorMacro d).params _ h) rfl
  have hwritten : (List.range (slots d)).map ("_" ++ ·.repr) ++ ["N", "..."] =
      (selectorMacro d).params.concat "..." :=
    (List.append_assoc _ ["N"] ["..."]).symm.trans (List.concat_eq_append).symm
  rw [hwritten, List.nodup_concat]
  exact ⟨hellipsis, nodup_params_selectorMacro d⟩

/-! ## The sequence -/

theorem behind?_sequence (d : Depth) :
    behind? "() " (ofDepth d).sequence.definition = some (sequenceMacro d).body := by
  have hfront : '(' ∉ directive ++ sequenceName.toList := by decide
  have hsequence : (ofDepth d).sequence.definition.toList =
      directive ++ sequenceName.toList ++ (['(', ')', ' '] ++ (sequenceMacro d).body.toList) := by
    show (sequenceMacro d).definition.toList = _
    rw [toList_definition, List.append_assoc]
    rfl
  unfold behind?
  rw [hsequence]
  show (behindIn? ('(' :: [')', ' ']) _).map String.ofList = _
  rw [behindIn?_append hfront, Option.map_some, String.ofList_toList]

def numbers (d : Depth) : List Nat :=
  (List.range (slots d + 1)).reverse

theorem isChain_numbers (d : Depth) : (numbers d).IsChain fun m n => n + 1 = m :=
  List.isChain_reverse.2 ((List.isChain_range _ _).2 fun _ _ => rfl)

theorem head?_numbers (d : Depth) : (numbers d).head? = some (slots d) := by
  rw [numbers, List.head?_reverse, List.getLast?_range]
  rfl

theorem getLast?_numbers (d : Depth) : (numbers d).getLast? = some 0 := by
  rw [numbers, List.getLast?_reverse, List.head?_range]
  rfl

/-! ## Both -/

/-- The loops write as many placeholders as the selector is said to have. -/
theorem slots_eq_placeholders (d : Depth) : slots d = placeholders d := by
  rw [slots_eq, placeholders_eq]

theorem readAll_render (d : Depth) :
    readAll (ofDepth d).render = [selectorMacro d, sequenceMacro d] := by
  rw [Header.counting_render]
  refine Header.readAll_renderMacros ?_
  simp only [List.forall_mem_cons]
  exact ⟨legible_selectorMacro d, legible_sequenceMacro d, nofun⟩

theorem render_injective {a b : Depth} (h : (ofDepth a).render = (ofDepth b).render) : a = b := by
  have hread := readAll_render a
  rw [h, readAll_render b] at hread
  exact selectorMacro_injective (List.cons.inj hread).1.symm

/-- Between its parentheses the selector lists as many placeholders as its size says, then its result
and the ellipsis, all of them different. The sequence lists as many numbers as its size says, from
the number of the placeholders down to zero. The two definitions tell the depth. -/
theorem sizes_of_definitions (d : Depth) :
    (items (enclosed (ofDepth d).selector.definition) =
        (List.range (placeholders d)).map ("_" ++ ·.repr) ++ ["N", "..."] ∧
      (items (enclosed (ofDepth d).selector.definition)).Nodup) ∧
    (∃ listed ns, behind? "() " (ofDepth d).sequence.definition = some listed ∧
      (items listed).mapM Numeral.natural? = some ns ∧
      ns.length = sequenceLength d ∧ ns.head? = some (placeholders d) ∧
      (ns.IsChain fun m n => n + 1 = m) ∧ ns.getLast? = some 0) ∧
    ∀ e, (ofDepth e).render = (ofDepth d).render ↔ e = d := by
  rw [sequenceLength, ← slots_eq_placeholders]
  refine ⟨⟨items_enclosed_selector d, ?_⟩, ⟨_, numbers d, behind?_sequence d, ?_, ?_,
    head?_numbers d, isChain_numbers d, getLast?_numbers d⟩, fun e => ⟨render_injective, ?_⟩⟩
  · rw [items_enclosed_selector]
    exact nodup_items_selector d
  · rw [items_body_sequenceMacro]
    exact Numeral.mapM_natural?_repr (numbers d)
  · rw [numbers, List.length_reverse, List.length_range]
  · rintro rfl
    rfl

end FieldMacros.Counting
