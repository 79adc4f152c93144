import FieldMacros.Proofs.Console.Marks
import FieldMacros.Proofs.Diff.Frame
import FieldMacros.Proofs.Header.Lines
import Mathlib.Data.List.Perm.Basic

/-!
# Two versions of a header

Headers of different depths are two fillings of one frame (`pieces_text_fill`):
the selector and the sequence are their own, and the deeper one has further
variants behind the shared ones. A diff of the two shows exactly these
definitions (`signed_diff`).
-/

namespace FieldMacros

open Macro Text Diff

namespace Counting

theorem sequenceMacro_injective {a b : Depth} (h : sequenceMacro a = sequenceMacro b) : a = b := by
  have hlen := congrArg List.length (congrArg (fun m => items m.body) h)
  simp only [items_body_sequenceMacro, List.length_map, List.length_reverse, List.length_range,
    slots_eq] at hlen
  exact Depth.level_injective (by omega)

end Counting

namespace Header

open Counting Family

theorem selectorMacro_not_mem {a b : Depth} (h : a ≠ b) : selectorMacro a ∉ macros b := by
  intro hmem
  have hb : selectorMacro b ∈ macros b := by simp [macros, sized]
  exact h (selectorMacro_injective (eq_of_mem_macros hmem hb rfl))

theorem sequenceMacro_not_mem {a b : Depth} (h : a ≠ b) : sequenceMacro a ∉ macros b := by
  intro hmem
  have hb : sequenceMacro b ∈ macros b := by simp [macros, sized]
  exact h (sequenceMacro_injective (eq_of_mem_macros hmem hb rfl))

/-! ## The frame -/

/-- The lines of a definition with the blank line before it. -/
def spaced (m : Macro) : List String :=
  ["", m.definition]

theorem cons_flatMap_block (ms : List Macro) :
    "" :: ms.flatMap block = ms.flatMap spaced ++ [""] := by
  induction ms with
  | nil => rfl
  | cons m ms ih =>
    rw [List.flatMap_cons, List.flatMap_cons, List.append_assoc, ← ih]
    rfl

theorem filter_flatMap_spaced {ms : List Macro} (h : ∀ m ∈ ms, m.Legible) :
    (ms.flatMap spaced).filter (· ≠ "") = ms.map definition := by
  induction ms with
  | nil => rfl
  | cons m ms ih =>
    have hm := definition_ne_blank (h m List.mem_cons_self)
    rw [List.flatMap_cons, List.filter_append, ih fun n hn => h n (List.mem_cons_of_mem m hn)]
    simp [spaced, hm]

/-- What headers that have the variants up to `c` in common share. -/
def frame (c : Depth) : Frame String where
  opening := opening
  separator := ""
  body := (upTo c).dropLast.flatMap spaced ++ [""]
  last := (variant c).definition
  closing := "" :: pieces postlude

theorem upTo_eq_concat (c : Depth) : upTo c = (upTo c).dropLast ++ [variant c] := by
  obtain ⟨i, rfl⟩ := c.exists_eq_nth
  have hlevels : (Depth.nth i).levels = (List.range i).map Depth.nth ++ [Depth.nth i] := by
    unfold Depth.levels Depth.nth
    rw [List.range_succ, List.map_append]
    rfl
  unfold upTo
  rw [hlevels, List.map_append, List.map_singleton, List.dropLast_concat]

theorem trunk_frame (c : Depth) : (frame c).trunk = (upTo c).flatMap spaced := by
  rw [upTo_eq_concat c, List.flatMap_append]
  simp [Frame.trunk, frame, spaced]

/-- A header is a filling of the frame of every shallower one. -/
theorem pieces_text_fill {c d : Depth} (h : c ≤ d) :
    pieces (text d) = (frame c).fill (selectorMacro d).definition (sequenceMacro d).definition
      (((upTo d).drop c.level).flatMap spaced) := by
  have hvariants : upTo d = upTo c ++ (upTo d).drop c.level := by
    rw [← take_upTo h, List.take_append_drop]
  have hsized : (sized d).flatMap block = [(selectorMacro d).definition, "",
      (sequenceMacro d).definition] ++ ("" :: (upTo d).flatMap block) := rfl
  have hspaced : (upTo d).flatMap spaced =
      (upTo c).flatMap spaced ++ ((upTo d).drop c.level).flatMap spaced := by
    rw [← List.flatMap_append, ← hvariants]
  rw [pieces_text, hsized, cons_flatMap_block, hspaced, Frame.fill, trunk_frame, Frame.head]
  simp [frame, opening]

/-! ## Common lines -/

/-- The macros of a header of depth `a` that one of depth `b` does not define the same way. -/
def changed (a b : Depth) : List Macro :=
  selectorMacro a :: sequenceMacro a :: (upTo a).drop b.level

theorem perm_macros (a b : Depth) :
    (macros a).Perm (count :: relay :: (upTo a).take b.level ++ changed a b) := by
  have hvariants := List.take_append_drop b.level (upTo a)
  have hmacros : macros a = [count, relay] ++ ([selectorMacro a, sequenceMacro a] ++
      ((upTo a).take b.level ++ (upTo a).drop b.level)) := by
    rw [hvariants]
    rfl
  rw [hmacros]
  exact List.Perm.append_left [count, relay] (List.perm_append_comm_assoc _ _ _)

theorem changed_sublist (a b : Depth) : (changed a b).Sublist (macros a) := by
  have hdrop : ((upTo a).drop b.level).Sublist (upTo a) := List.drop_sublist _ _
  exact ((hdrop.cons_cons _).cons_cons _ |>.cons _).cons _

theorem legible_of_mem_changed {a b : Depth} {m : Macro} (h : m ∈ changed a b) : m.Legible :=
  legible_of_mem_macros ((changed_sublist a b).subset h)

/-- The last shared variant is none of the further ones. -/
theorem last_not_mem {c d : Depth} (h : c ≤ d) :
    (variant c).definition ∉ ((upTo d).drop c.level).flatMap spaced := by
  intro hmem
  obtain ⟨m, hm, hline⟩ := List.mem_flatMap.1 hmem
  have hc := legible_variant c
  have hlegible : m.Legible := by
    obtain ⟨l, -, rfl⟩ := List.mem_map.1 (List.mem_of_mem_drop hm)
    exact legible_variant l
  simp only [spaced, List.mem_cons, List.not_mem_nil, or_false] at hline
  rcases hline with hline | hline
  · exact definition_ne_blank hc hline
  · rw [← definition_injective hc hlegible hline] at hm
    have hshared : variant c ∈ (upTo d).take c.level := by
      rw [take_upTo h, upTo_eq_concat]
      exact List.mem_append_right _ List.mem_cons_self
    have hnodup : (upTo d).Nodup := (nodup_levels d).map fun a b hab =>
      variantName_injective (congrArg Macro.name hab)
    exact List.disjoint_take_drop hnodup (Nat.le_refl _) hshared hm

structure Shallower (c a b : Depth) : Prop where
  left : c ≤ a
  right : c ≤ b
  either : c = a ∨ c = b

theorem Shallower.symm {a b c : Depth} (h : Shallower c a b) : Shallower c b a :=
  ⟨h.right, h.left, h.either.symm⟩

theorem exists_shallower (a b : Depth) : ∃ c, Shallower c a b := by
  rcases Nat.le_total a.level b.level with hle | hle
  · exact ⟨a, Nat.le_refl a.level, hle, .inl rfl⟩
  · exact ⟨b, hle, Nat.le_refl b.level, .inr rfl⟩

theorem length_upTo (d : Depth) : (upTo d).length = d.level := by
  simp [upTo]

/-- The variants of the shallower depth are those that both headers have. -/
theorem Shallower.take_drop {a b c : Depth} (h : Shallower c a b) :
    (upTo a).take b.level = upTo c ∧ (upTo a).drop c.level = (upTo a).drop b.level := by
  obtain ⟨ha, hb, rfl | rfl⟩ := h
  · have hle : (upTo c).length ≤ b.level := (length_upTo c).symm ▸ hb
    rw [List.take_of_length_le hle, List.drop_eq_nil_of_le hle,
      List.drop_eq_nil_of_le (Nat.le_of_eq (length_upTo c))]
    exact ⟨rfl, rfl⟩
  · exact ⟨take_upTo ha, rfl⟩

theorem common_text {a b c : Depth} (hab : a ≠ b) (hc : Shallower c a b) :
    common (pieces (text a)) (pieces (text b)) = (frame c).shared := by
  have hselector := definition_not_mem (legible_selectorMacro a) (selectorMacro_not_mem hab)
  have hsequence := definition_not_mem (legible_sequenceMacro a) (sequenceMacro_not_mem hab)
  have hselector' := definition_not_mem (legible_selectorMacro b) (selectorMacro_not_mem hab.symm)
  have hsequence' := definition_not_mem (legible_sequenceMacro b) (sequenceMacro_not_mem hab.symm)
  rw [pieces_text_fill hc.right] at hselector hsequence
  rw [pieces_text_fill hc.left] at hselector' hsequence'
  have hlen : 2 ≤ (frame c).opening.length := by
    simp [frame, opening]
  have hnone : ∀ d : Depth, c = d → ((upTo d).drop c.level).flatMap spaced = [] := by
    rintro d rfl
    rw [List.drop_eq_nil_of_le (Nat.le_of_eq (length_upTo c)), List.flatMap_nil]
  rw [pieces_text_fill hc.left, pieces_text_fill hc.right]
  exact Frame.common_fill hlen (hc.either.imp (hnone a) (hnone b)) (last_not_mem hc.left)
    (last_not_mem hc.right) hselector hsequence hselector' hsequence'

/-! ## The script -/

theorem piecesOrNone_of_two_le {t : String} (h : 2 ≤ (pieces t).length) :
    piecesOrNone t = pieces t := by
  refine if_neg ?_
  rintro rfl
  revert h
  decide

theorem sides_text {a b c : Depth} (hab : a ≠ b) (hc : Shallower c a b) :
    sides (text a) (text b) = ⟨pieces (text a), pieces (text b), (frame c).shared⟩ := by
  have hcommon := common_text hab hc
  have hsub := (common_sublist (pieces (text a)) (pieces (text b))).1
  rw [hcommon] at hsub
  have hlen : 2 ≤ (frame c).shared.length := by
    simp [Frame.shared, frame, opening]
    omega
  have hne : (frame c).shared ≠ [] := by
    rintro hnil
    rw [hnil] at hlen
    cases hlen
  have hjoin := pieces_join hne fun p hp => not_mem_of_mem_pieces (hsub.subset hp)
  unfold sides
  rw [hcommon, piecesOrNone_of_two_le (two_le_length_pieces_text a),
    piecesOrNone_of_two_le (two_le_length_pieces_text b),
    piecesOrNone_of_two_le (hjoin.symm ▸ hlen), hjoin]

/-- Definitions that stand in a header stand in its order. -/
theorem eq_map_definition {d : Depth} {ls : List String} {ms : List Macro}
    (hms : ms.Sublist (macros d)) (hperm : ls.Perm (ms.map definition))
    (hsub : ls.Sublist (pieces (text d))) : ls = ms.map definition := by
  have hlegible : ∀ m ∈ ms, m.Legible := fun m hm => legible_of_mem_macros (hms.subset hm)
  have hread := hsub.filterMap read?
  have hsame := hperm.filterMap read?
  rw [← readAll, readAll_text] at hread
  rw [filterMap_definition hlegible] at hsame
  have heq := (List.Nodup.perm_iff_eq_of_sublist (nodup_macros d) hread hms).1 hsame
  have hdefinitions : ∀ l ∈ ls, ∃ m : Macro, m.Legible ∧ m.definition = l := by
    intro l hl
    obtain ⟨m, hm, heq⟩ := List.mem_map.1 (hperm.subset hl)
    exact ⟨m, hlegible m hm, heq⟩
  rw [← heq, map_definition_filterMap hdefinitions]

/-- What a header has beside the frame are the changed definitions and blank lines. -/
theorem filter_of_perm {a b c : Depth} (hc : Shallower c a b) {ls : List String}
    (hperm : (pieces (text a)).Perm ((frame c).shared ++ ls))
    (hsub : ls.Sublist (pieces (text a))) :
    ls.filter (· ≠ "") = (changed a b).map definition := by
  have hfill := Frame.perm_fill (c := frame c) (selectorMacro a).definition
    (sequenceMacro a).definition (((upTo a).drop c.level).flatMap spaced)
  rw [← pieces_text_fill hc.left] at hfill
  have hls := (List.perm_append_left_iff _).1 (hperm.symm.trans hfill)
  have hfilter := hls.filter (· ≠ "")
  have hselector := definition_ne_blank (legible_selectorMacro a)
  have hsequence := definition_ne_blank (legible_sequenceMacro a)
  have hlegible : ∀ m ∈ (upTo a).drop b.level, m.Legible := fun m hm =>
    legible_of_mem_changed (List.mem_cons_of_mem _ (List.mem_cons_of_mem _ hm))
  rw [hc.take_drop.2, List.filter_cons_of_pos (by simpa using hselector),
    List.filter_cons_of_pos (by simpa using hsequence), filter_flatMap_spaced hlegible] at hfilter
  exact eq_map_definition (changed_sublist a b) hfilter (List.filter_sublist.trans hsub)

/-- The lines that two versions share, without the blank ones between the macros. -/
def sharedLines (a b : Depth) : List String :=
  opening ++ ((upTo a).take b.level).map definition ++ pieces postlude

/-- No macro is both changed and defined by a shared line. -/
theorem not_mem_changed {a b : Depth} {m : Macro} (hm : m.Legible)
    (h : m.definition ∈ sharedLines a b) : m ∉ changed a b := by
  have hlegible : ∀ n ∈ (upTo a).take b.level, n.Legible := by
    intro n hn
    obtain ⟨l, -, rfl⟩ := List.mem_map.1 (List.mem_of_mem_take hn)
    exact legible_variant l
  have hread : (sharedLines a b).filterMap read? = count :: relay :: (upTo a).take b.level := by
    unfold sharedLines
    rw [List.filterMap_append, List.filterMap_append, filterMap_opening,
      filterMap_definition hlegible, filterMap_postlude, List.append_nil]
    rfl
  have hmem : m ∈ count :: relay :: (upTo a).take b.level :=
    hread ▸ List.mem_filterMap.2 ⟨_, h, read?_definition hm⟩
  have hnodup := (perm_macros a b).nodup_iff.1 (nodup_macros a)
  exact fun hchanged => List.disjoint_of_nodup_append hnodup hmem hchanged

theorem sharedLines_comm (a b : Depth) : sharedLines a b = sharedLines b a := by
  obtain ⟨c, hc⟩ := exists_shallower a b
  rw [sharedLines, sharedLines, hc.take_drop.1, hc.symm.take_drop.1]

section Script

variable {a b : Depth} (hab : a ≠ b)

include hab

theorem filter_removed :
    (reading (· = .removed) (script (text a) (text b))).filter (· ≠ "") =
      (changed a b).map definition := by
  obtain ⟨c, hc⟩ := exists_shallower a b
  have h := (common_sides (text a) (text b)).perm_removed (lines_sides (text a) (text b))
  rw [script_sides, sides_text hab hc] at h
  dsimp only at h
  exact filter_of_perm hc h.1 h.2

theorem filter_added :
    (reading (· = .added) (script (text a) (text b))).filter (· ≠ "") =
      (changed b a).map definition := by
  obtain ⟨c, hc⟩ := exists_shallower a b
  have h := (common_sides (text a) (text b)).perm_added (lines_sides (text a) (text b))
  rw [script_sides, sides_text hab hc] at h
  dsimp only at h
  exact filter_of_perm hc.symm h.1 h.2

end Script

theorem isLine_script (a b : Depth) :
    ∀ c ∈ script (text a) (text b), ∀ p ∈ pieces c.text, IsLine p := by
  intro c hc p hp
  rcases mem_pieces_of_mem_script hc hp with h | h
  · exact isLine_of_mem_pieces_text h
  · exact isLine_of_mem_pieces_text h

/-- A line that is shown behind a sign, as far as it is not blank, is a changed definition. -/
theorem mem_of_mem_lines {mark l output : String} {ms : List Macro}
    (hsigned : Console.signed mark output = ms.map (mark ++ ·.definition))
    (hblank : l ≠ "") (h : mark ++ l ∈ lines output) : l ∈ ms.map definition := by
  have hmem : mark ++ l ∈ Console.signed mark output := by
    unfold Console.signed
    rw [List.mem_filter, Console.isSigned_append]
    exact ⟨h, decide_eq_true hblank⟩
  rw [hsigned] at hmem
  obtain ⟨m, hm, heq⟩ := List.mem_map.1 hmem
  exact append_right_injective heq ▸ List.mem_map_of_mem hm

theorem not_mem_of_shared {a b : Depth} {l : String} (h : l ∈ sharedLines a b) :
    l ∉ (changed a b).map definition := by
  intro hmem
  obtain ⟨m, hm, rfl⟩ := List.mem_map.1 hmem
  exact not_mem_changed (legible_of_mem_changed hm) h hm

/-- The diff of two versions of a header shows as removed the selector and the sequence of the one
and the variants that only it has, as added those of the other, and no line that both have. -/
theorem signed_diff {a b : Depth} (hab : a ≠ b) (path : Bytes) :
    ∃ output,
      Console.render false (Console.diff path (text a) (text b)) =
          Console.diffTitle path ++ output ∧
        Console.signed "-" output = (changed a b).map ("-" ++ ·.definition) ∧
        Console.signed "+" output = (changed b a).map ("+" ++ ·.definition) ∧
        ∀ l ∈ sharedLines a b, l ≠ "" →
          "-" ++ l ∉ lines output ∧ "+" ++ l ∉ lines output := by
  have hne : Change.removed ≠ .same := by decide
  have hne' : Change.added ≠ .same := by decide
  have hremoved := Console.signed_shown (isLine_script a b) hne
  have hadded := Console.signed_shown (isLine_script a b) hne'
  rw [filter_removed hab, List.map_map] at hremoved
  rw [filter_added hab, List.map_map] at hadded
  refine ⟨_, Console.render_diff path _ _, hremoved, hadded, fun l hl hblank => ⟨?_, ?_⟩⟩
  · exact fun h => not_mem_of_shared hl (mem_of_mem_lines hremoved hblank h)
  · rw [sharedLines_comm] at hl
    exact fun h => not_mem_of_shared hl (mem_of_mem_lines hadded hblank h)

/-- From depth one to depth two. -/
theorem signed_diff_one_two :
    ∃ output,
      Console.render false (Console.diff (Bytes.ofString "a.hpp") (text (.nth 0)) (text (.nth 1))) =
          Console.diffTitle (Bytes.ofString "a.hpp") ++ output ∧
        Console.signed "-" output =
          ["-#define MANGROVE_PP_ARG_N(_0, _1, _2, N, ...) N",
            "-#define MANGROVE_PP_RSEQ_N() 3, 2, 1, 0"] ∧
        (Console.signed "+" output).take 2 =
          ["+#define MANGROVE_PP_ARG_N(_0, _1, _2, _3, N, ...) N",
            "+#define MANGROVE_PP_RSEQ_N() 4, 3, 2, 1, 0"] := by
  have hab : Depth.nth 0 ≠ .nth 1 := by decide
  obtain ⟨output, hrender, hremoved, hadded, -⟩ := signed_diff hab (Bytes.ofString "a.hpp")
  refine ⟨output, hrender, ?_, ?_⟩
  · rw [hremoved]
    decide +kernel
  · rw [hadded]
    decide +kernel

end Header

end FieldMacros
