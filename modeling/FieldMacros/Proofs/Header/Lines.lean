import FieldMacros.Header
import FieldMacros.Proofs.Preprocessor.Definitions
import FieldMacros.Proofs.Text.Occurrences
import Mathlib.Data.List.Nodup

/-!
# The lines of a header

A header cut at its line feeds is the banner, the two macros that start a
count, the selector and the sequence, the variants and the postlude
(`pieces_text`); the macros that it defines are the ones it was rendered from
(`readAll_text`).
-/

namespace FieldMacros

open Macro Text Token

/-! ## Numerals in names -/

theorem repr_injective {m n : Nat} (h : m.repr = n.repr) : m = n := by
  rw [← Numeral.ofDigitChars_repr m, h, Numeral.ofDigitChars_repr]

theorem isIdentifier_append_repr {s : String} (h : IsIdentifier s) (n : Nat) :
    IsIdentifier (s ++ n.repr) := by
  have hdigits : n.repr.toList.all continuesIdentifier = true :=
    List.all_eq_true.2 fun d hd => continues_of_isDigit (Numeral.isDigit_of_mem_repr hd)
  obtain ⟨c, cs, hs, hc, -⟩ := h.exists_cons
  constructor
  · rw [String.toList_append, hs]
    exact hc
  · rw [String.toList_append, List.all_append, h.continues, hdigits, Bool.true_and]

theorem append_right_injective {s t u : String} (h : s ++ t = s ++ u) : t = u := by
  rw [← String.toList_inj, String.toList_append, String.toList_append] at h
  exact String.toList_inj.1 (List.append_cancel_left h)

/-! ## Legible macros -/

namespace Family

theorem isIdentifier_variantName (d : Depth) : IsIdentifier (variantName d) :=
  isIdentifier_append_repr (by decide) d.level

theorem isIdentifier_fieldName (d : Depth) : IsIdentifier (fieldName d) :=
  isIdentifier_append_repr (by decide) d.level

theorem isIdentifier_params (d : Depth) : ∀ p ∈ params d, IsIdentifier p := by
  intro p hp
  rcases List.mem_cons.1 hp with rfl | hp
  · decide
  · obtain ⟨l, -, rfl⟩ := List.mem_map.1 hp
    exact isIdentifier_fieldName l

theorem variantName_injective {a b : Depth} (h : variantName a = variantName b) : a = b :=
  Depth.level_injective (repr_injective (append_right_injective h))

theorem fieldName_injective {a b : Depth} (h : fieldName a = fieldName b) : a = b :=
  Depth.level_injective (repr_injective (append_right_injective h))

theorem isLine_invocation (d : Depth) : IsLine (invocation d) := by
  have hparams := isLine_listing fun p hp => isLine_of_isIdentifier (isIdentifier_params d p hp)
  rw [invocation_eq_call]
  exact (((isLine_of_isIdentifier (isIdentifier_variantName d)).append (by decide)).append
    hparams).append (by decide)

theorem isLine_body (d : Depth) : IsLine (body d) := by
  have hfield := isLine_of_isIdentifier (isIdentifier_fieldName d)
  unfold body
  split
  · exact ((IsLine.append (by decide) (by decide)).append hfield).append (by decide)
  · rename_i p _
    have hp := isLine_invocation p
    simp only [isLine_append, hp, hfield, and_true]
    decide

theorem legible_variant (d : Depth) : (variant d).Legible where
  name := isIdentifier_variantName d
  params := isIdentifier_params d
  body := isLine_body d

theorem take_upTo {c d : Depth} (h : c ≤ d) : (upTo d).take c.level = upTo c := by
  have hmin : min c.level d.level = c.level := Nat.min_eq_left h
  unfold upTo
  rw [Depth.levels, ← List.map_take, ← List.map_take, List.take_range, hmin]
  rfl

end Family

namespace Counting

theorem isIdentifier_placeholder (i : Nat) : IsIdentifier (placeholder i) :=
  isIdentifier_append_repr (by decide) i

theorem isIdentifier_selectorName : IsIdentifier selectorName := by
  decide

theorem isIdentifier_sequenceName : IsIdentifier sequenceName := by
  decide

theorem legible_count : count.Legible where
  name := by decide
  params := fun _ hp => by cases hp
  body := by decide

theorem legible_relay : relay.Legible where
  name := by decide
  params := fun _ hp => by cases hp
  body := by decide

theorem legible_selectorMacro (d : Depth) : (selectorMacro d).Legible where
  name := isIdentifier_selectorName
  params := by
    intro p hp
    rcases List.mem_append.1 hp with hp | hp
    · obtain ⟨i, -, rfl⟩ := List.mem_map.1 hp
      exact isIdentifier_placeholder i
    · rw [List.mem_singleton.1 hp]
      decide
  body := show IsLine "N" by decide

theorem selectorMacro_injective {a b : Depth} (h : selectorMacro a = selectorMacro b) : a = b := by
  have hlen := congrArg (fun m => m.params.length) h
  apply Depth.level_injective
  simpa [selectorMacro, slots_eq] using hlen

theorem legible_sequenceMacro (d : Depth) : (sequenceMacro d).Legible where
  name := isIdentifier_sequenceName
  params := fun _ hp => by cases hp
  body := isLine_listing fun x hx => by
    obtain ⟨i, -, rfl⟩ := List.mem_map.1 hx
    exact isLine_repr i

/-- The sequence as it is written lists its numbers. -/
theorem items_body_sequenceMacro (d : Depth) :
    items (sequenceMacro d).body = (List.range (slots d + 1)).reverse.map Nat.repr := by
  refine items_listing ?_ fun x hx => ?_
  · simp
  · obtain ⟨n, -, rfl⟩ := List.mem_map.1 hx
    exact Numeral.not_mem_repr (by decide) n

end Counting

namespace Header

/-! ## Pieces -/

def sized (d : Depth) : List Macro :=
  Counting.selectorMacro d :: Counting.sequenceMacro d :: Family.upTo d

/-- The macros that a header of depth `d` defines, in order. -/
def macros (d : Depth) : List Macro :=
  Counting.count :: Counting.relay :: sized d

theorem legible_of_mem_sized {d : Depth} {m : Macro} (h : m ∈ sized d) : m.Legible := by
  simp only [sized, List.mem_cons] at h
  rcases h with rfl | rfl | h
  · exact Counting.legible_selectorMacro d
  · exact Counting.legible_sequenceMacro d
  · obtain ⟨l, -, rfl⟩ := List.mem_map.1 h
    exact Family.legible_variant l

/-- The lines of a definition with the blank line after it. -/
def block (m : Macro) : List String :=
  [m.definition, ""]

theorem ended_definition (s : String) : Ended (s ++ "\n\n") :=
  Ended.append (by decide) s

theorem endedLines_definition {m : Macro} (h : m.Legible) :
    endedLines (m.definition ++ "\n\n") = block m := by
  have hsplit : m.definition ++ "\n\n" = m.definition ++ "\n" ++ "\n" := by
    rw [String.append_assoc]; rfl
  rw [hsplit, endedLines_newline, pieces_newline, pieces_of_isLine (isLine_definition h)]
  rfl

theorem pieces_renderMacros {ms : List Macro} (h : ∀ m ∈ ms, m.Legible) (t : String) :
    pieces (renderMacros ms ++ t) = ms.flatMap block ++ pieces t := by
  induction ms with
  | nil => simp [renderMacros]
  | cons m ms ih =>
    have hm := h m List.mem_cons_self
    have hms := ih fun n hn => h n (List.mem_cons_of_mem m hn)
    have hcons : renderMacros (m :: ms) ++ t = (m.definition ++ "\n\n") ++ (renderMacros ms ++ t) := by
      simp [renderMacros, String.append_assoc]
    rw [hcons, pieces_append (ended_definition _), endedLines_definition hm, hms,
      List.flatMap_cons, List.append_assoc]

/-- A line that neither defines a macro nor is continued on the next one. -/
structure Remark (l : String) : Prop where
  isLine : IsLine l
  noBackslash : '\\' ∉ l.toList
  noDirective : occurrencesIn directive l.toList = 0

instance (l : String) : Decidable (Remark l) :=
  decidable_of_iff (IsLine l ∧ '\\' ∉ l.toList ∧ occurrencesIn directive l.toList = 0)
    ⟨fun ⟨h₁, h₂, h₃⟩ => ⟨h₁, h₂, h₃⟩, fun ⟨h₁, h₂, h₃⟩ => ⟨h₁, h₂, h₃⟩⟩

theorem Remark.read?_eq_none {l : String} (h : Remark l) : read? l = none := by
  have hstart := isPrefixOf_eq_false (by decide) h.noDirective
  unfold read?
  rw [if_neg (by simp [hstart])]

/-- So many ended lines that are remarks. -/
structure Passage (n : Nat) (s : String) : Prop where
  ended : Ended s
  length : (endedLines s).length = n
  remark : ∀ l ∈ endedLines s, Remark l

theorem Passage.append_line {n : Nat} {s t : String} (hs : Passage n s) (ht : Passage 1 t) :
    Passage (n + 1) (s ++ t) where
  ended := ht.ended.append s
  length := by
    rw [endedLines_append hs.ended, List.length_append, hs.length, ht.length]
  remark := by
    intro l hl
    rw [endedLines_append hs.ended, List.mem_append] at hl
    rcases hl with hl | hl
    · exact hs.remark l hl
    · exact ht.remark l hl

theorem passage_ofList {cs : List Char} (he : cs.getLast? = some '\n')
    (hn : (cs.splitOn '\n').dropLast.length = 1)
    (hl : ∀ l ∈ (cs.splitOn '\n').dropLast,
      '\n' ∉ l ∧ '\r' ∉ l ∧ '\\' ∉ l ∧ occurrencesIn directive l = 0) :
    Passage 1 (String.ofList cs) where
  ended := by rw [Ended, String.toList_ofList, he]
  length := by
    unfold endedLines pieces
    rw [String.toList_ofList, ← List.map_dropLast, List.length_map, hn]
  remark := by
    intro l hmem
    unfold endedLines pieces at hmem
    rw [String.toList_ofList, ← List.map_dropLast, List.mem_map] at hmem
    obtain ⟨k, hk, rfl⟩ := hmem
    obtain ⟨hfeed, hreturn, hbackslash, hdirective⟩ := hl k hk
    have hline : ∀ c ∈ k, c ≠ '\n' ∧ c ≠ '\r' := fun c hc =>
      ⟨fun e => hfeed (e ▸ hc), fun e => hreturn (e ▸ hc)⟩
    rw [← String.toList_ofList (l := k)] at hline hbackslash hdirective
    exact ⟨hline, hbackslash, hdirective⟩

-- A literal is checked as its list of characters; decoding it costs the kernel far more.
theorem passage_banner : Passage 20 banner := by
  unfold banner
  repeat' apply Passage.append_line
  all_goals exact passage_ofList (by decide) (by decide) (by decide)

def opening : List String :=
  endedLines banner ++ [Counting.count.definition, Counting.relay.definition]

theorem pieces_preamble_append (t : String) : pieces (preamble ++ t) = opening ++ pieces t := by
  have hcount : Ended (Counting.count.definition ++ "\n") := Ended.append (by decide) _
  have hrelay : Ended (Counting.relay.definition ++ "\n") := Ended.append (by decide) _
  have hsplit : preamble ++ t = banner ++ ((Counting.count.definition ++ "\n") ++
      ((Counting.relay.definition ++ "\n") ++ t)) := by
    simp only [preamble, String.append_assoc]
  rw [hsplit, pieces_append passage_banner.ended, pieces_append hcount, pieces_append hrelay,
    endedLines_of_isLine (isLine_definition Counting.legible_count),
    endedLines_of_isLine (isLine_definition Counting.legible_relay), opening]
  simp only [List.append_assoc, List.cons_append, List.nil_append]

theorem counting_render (d : Depth) :
    (Counting.ofDepth d).render =
      renderMacros [Counting.selectorMacro d, Counting.sequenceMacro d] := by
  simp [Counting.render, Counting.ofDepth, renderMacros, String.append_assoc]

/-- The pieces of the postlude: a blank line, two lines, and what comes after the last line feed. -/
theorem pieces_postlude :
    pieces postlude = ["", "#include <mangrove/config/postlude.hpp>", "// clang-format on", ""] := by
  decide +kernel

theorem pieces_text (d : Depth) :
    pieces (text d) = opening ++ (sized d).flatMap block ++ pieces postlude := by
  have hrender : text d = preamble ++ (renderMacros (sized d) ++ postlude) := by
    have h := renderMacros_append [Counting.selectorMacro d, Counting.sequenceMacro d]
      (Family.upTo d)
    rw [List.cons_append, List.cons_append, List.nil_append] at h
    unfold text render ofDepth
    rw [counting_render, renderVariants, sized, h]
    simp only [String.append_assoc]
  rw [hrender, pieces_preamble_append, pieces_renderMacros fun m hm => legible_of_mem_sized hm,
    List.append_assoc _ _ (pieces postlude)]

theorem two_le_length_pieces_text (d : Depth) : 2 ≤ (pieces (text d)).length := by
  rw [pieces_text, pieces_postlude, List.length_append]
  exact Nat.le_add_left_of_le (by decide)

/-- A line of a header is a remark or the definition of a macro. -/
theorem remark_or_definition {d : Depth} {l : String} (h : l ∈ pieces (text d)) :
    Remark l ∨ ∃ m ∈ macros d, m.definition = l := by
  have hpostlude : ∀ l ∈ pieces postlude, Remark l := by
    rw [pieces_postlude]
    decide
  rw [pieces_text, opening] at h
  simp only [List.mem_append, List.mem_cons, List.not_mem_nil, or_false] at h
  rcases h with ((h | rfl | rfl) | h) | h
  · exact .inl (passage_banner.remark l h)
  · exact .inr ⟨_, List.mem_cons_self, rfl⟩
  · exact .inr ⟨_, List.mem_cons_of_mem _ List.mem_cons_self, rfl⟩
  · obtain ⟨m, hm, h⟩ := List.mem_flatMap.1 h
    simp only [block, List.mem_cons, List.not_mem_nil, or_false] at h
    rcases h with rfl | rfl
    · exact .inr ⟨m, List.mem_cons_of_mem _ (List.mem_cons_of_mem _ hm), rfl⟩
    · exact .inl (by decide)
  · exact .inl (hpostlude l h)

theorem legible_of_mem_macros {d : Depth} {m : Macro} (h : m ∈ macros d) : m.Legible := by
  simp only [macros, List.mem_cons] at h
  rcases h with rfl | rfl | h
  · exact Counting.legible_count
  · exact Counting.legible_relay
  · exact legible_of_mem_sized h

theorem isLine_of_mem_pieces_text {d : Depth} {p : String} (hp : p ∈ pieces (text d)) :
    IsLine p := by
  rcases remark_or_definition hp with hp | ⟨m, hm, rfl⟩
  · exact hp.isLine
  · exact isLine_definition (legible_of_mem_macros hm)

/-! ## Macros -/

theorem filterMap_block {ms : List Macro} (h : ∀ m ∈ ms, m.Legible) :
    (ms.flatMap block).filterMap read? = ms := by
  have hblank : read? "" = none := by decide
  induction ms with
  | nil => rfl
  | cons m ms ih =>
    have hm := read?_definition (h m List.mem_cons_self)
    have hms := ih fun n hn => h n (List.mem_cons_of_mem m hn)
    rw [List.flatMap_cons, List.filterMap_append, hms, block, List.filterMap_cons, hm,
      List.filterMap_cons, hblank]
    rfl

/-- Definitions are read back one by one. -/
theorem readAll_renderMacros {ms : List Macro} (h : ∀ m ∈ ms, m.Legible) :
    readAll (renderMacros ms) = ms := by
  have hpieces := pieces_renderMacros h ""
  have hblank : (pieces "").filterMap read? = [] := by decide
  rw [String.append_empty] at hpieces
  rw [readAll, hpieces, List.filterMap_append, filterMap_block h, hblank, List.append_nil]

theorem filterMap_opening : opening.filterMap read? = [Counting.count, Counting.relay] := by
  have hbanner : (endedLines banner).filterMap read? = [] :=
    List.filterMap_eq_nil_iff.2 fun l hl => (passage_banner.remark l hl).read?_eq_none
  unfold opening
  rw [List.filterMap_append, hbanner, List.filterMap_cons,
    read?_definition Counting.legible_count, List.filterMap_cons,
    read?_definition Counting.legible_relay, List.filterMap_nil]
  rfl

theorem filterMap_postlude : (pieces postlude).filterMap read? = [] := by
  rw [pieces_postlude]
  decide +kernel

/-- Reading a header gives the macros back that it was rendered from. -/
theorem readAll_text (d : Depth) : readAll (text d) = macros d := by
  unfold readAll
  rw [pieces_text, List.filterMap_append, List.filterMap_append, filterMap_opening,
    filterMap_postlude, filterMap_block fun m hm => legible_of_mem_sized hm, List.append_nil]
  rfl

theorem ended_text (d : Depth) : Ended (text d) :=
  Ended.append (by decide) _

/-- The text of a header tells its depth. -/
theorem text_injective {a b : Depth} (h : text a = text b) : a = b := by
  have hmacros : macros a = macros b := by
    rw [← readAll_text a, h, readAll_text b]
  have hlen := congrArg List.length hmacros
  apply Depth.level_injective
  simpa [macros, sized, Family.upTo] using hlen

theorem text_ne_empty (d : Depth) : text d ≠ "" := by
  intro h
  have hlen := two_le_length_pieces_text d
  rw [h] at hlen
  revert hlen
  decide

/-! ## Names -/

theorem find?_name {ms : List Macro} (h : (ms.map Macro.name).Nodup) {m : Macro} (hm : m ∈ ms) :
    ms.find? (·.name = m.name) = some m := by
  induction ms with
  | nil => cases hm
  | cons n ms ih =>
    rw [List.map_cons, List.nodup_cons] at h
    rcases List.mem_cons.1 hm with rfl | hm
    · rw [List.find?_cons_of_pos (by simp)]
    · have hne : n.name ≠ m.name := fun e => h.1 (e ▸ List.mem_map_of_mem hm)
      rw [List.find?_cons_of_neg (by simpa using hne), ih h.2 hm]

theorem nodup_levels (d : Depth) : d.levels.Nodup := by
  refine List.Nodup.map (fun i j h => ?_) List.nodup_range
  have := congrArg Depth.level h
  simpa [Depth.nth] using this

/-- The names of the variants part from those of the counting macros at the tenth character. -/
theorem variantName_ne {s : String} (h : s.toList[9]? ≠ some 'C') (d : Depth) :
    Family.variantName d ≠ s := by
  rintro rfl
  apply h
  unfold Family.variantName
  rw [String.toList_append]
  rfl

theorem nodup_names_macros (d : Depth) : ((macros d).map Macro.name).Nodup := by
  have hvariants : ((Family.upTo d).map Macro.name).Nodup := by
    unfold Family.upTo
    rw [List.map_map]
    exact (nodup_levels d).map fun a b h => Family.variantName_injective h
  have hne : ∀ s : String, s.toList[9]? ≠ some 'C' → s ∉ (Family.upTo d).map Macro.name := by
    intro s hs hmem
    unfold Family.upTo at hmem
    rw [List.map_map] at hmem
    obtain ⟨l, -, hl⟩ := List.mem_map.1 hmem
    exact variantName_ne hs l hl
  have hselector : (Counting.selectorMacro d).name = Counting.selectorName := rfl
  have hsequence : (Counting.sequenceMacro d).name = Counting.sequenceName := rfl
  simp only [macros, sized, List.map_cons, List.nodup_cons, List.mem_cons, not_or, hselector,
    hsequence]
  refine ⟨⟨by decide, by decide, by decide, hne _ (by decide)⟩,
    ⟨by decide, by decide, hne _ (by decide)⟩, ⟨by decide, hne _ (by decide)⟩, hne _ (by decide),
    hvariants⟩

theorem find?_macros {d : Depth} {m : Macro} (hm : m ∈ macros d) :
    (macros d).find? (·.name = m.name) = some m :=
  find?_name (nodup_names_macros d) hm

theorem definition_not_mem {m : Macro} (hm : m.Legible) {d : Depth} (h : m ∉ macros d) :
    m.definition ∉ pieces (text d) := by
  intro hmem
  apply h
  rw [← readAll_text, readAll]
  exact List.mem_filterMap.2 ⟨_, hmem, read?_definition hm⟩

theorem nodup_macros (d : Depth) : (macros d).Nodup :=
  List.Nodup.of_map Macro.name (nodup_names_macros d)

/-- Of each name a header has one macro only. -/
theorem eq_of_mem_macros {d : Depth} {m n : Macro} (hm : m ∈ macros d) (hn : n ∈ macros d)
    (h : m.name = n.name) : m = n := by
  have hfind := find?_macros hm
  rw [h, find?_macros hn] at hfind
  exact (Option.some.inj hfind).symm

end Header

end FieldMacros
