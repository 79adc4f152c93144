import FieldMacros.Proofs.Console.Marks
import FieldMacros.Proofs.Diff.Extension
import FieldMacros.Proofs.Header.Lines

/-!
# Counting the lines of a printed diff

A reader of a diff adds up what it names as unchanged (`kept`) and the lines
behind a sign (`marks`). A chunk is printed by the lines of its text, which
leave out an empty line at its end; so the sums fall short of the lines of a
text by the chunks in front of its last one that end with an empty line
(`tally_diff`), and a difference that consists of single empty lines is not
shown at all (`shows_diff`).
-/

namespace FieldMacros.Console

open Diff Text

/-! ## What a reader counts -/

/-- How many lines of an output begin with a sign. -/
def marks (mark output : String) : Nat :=
  (pieces output).countP (begins mark)

/-- How many lines a line of a diff names as unchanged. -/
def keptBy (line : String) : Nat :=
  let digits := (line.toList.drop 3).takeWhile Char.isDigit
  if line = "@@ " ++ String.ofList digits ++ " unchanged line(s) @@" then
    Nat.ofDigitChars 10 digits 0
  else 0

/-- How many lines an output names as unchanged, all in all. -/
def kept (output : String) : Nat :=
  ((pieces output).map keptBy).sum

theorem keptBy_count (n : Nat) : keptBy ("@@ " ++ n.repr ++ " unchanged line(s) @@") = n := by
  have hdrop : ("@@ " ++ n.repr ++ " unchanged line(s) @@").toList.drop 3 =
      n.repr.toList ++ " unchanged line(s) @@".toList := by
    rw [String.toList_append, String.toList_append, List.append_assoc]
    rfl
  have hdigits : (("@@ " ++ n.repr ++ " unchanged line(s) @@").toList.drop 3).takeWhile
      Char.isDigit = n.repr.toList := by
    rw [hdrop, List.takeWhile_append_of_pos fun c hc => Numeral.isDigit_of_mem_repr hc]
    have hend : " unchanged line(s) @@".toList.takeWhile Char.isDigit = [] := by decide
    rw [hend, List.append_nil]
  unfold keptBy
  simp only [hdigits, String.ofList_toList, if_true, Numeral.ofDigitChars_repr]

theorem keptBy_sign {change : Change} (h : change ≠ .same) (l : String) :
    keptBy (sign change ++ l) = 0 := by
  unfold keptBy
  refine if_neg fun heq => ?_
  rw [count_eq_sign_append] at heq
  have hbegins := begins_sign (Ne.symm h) l
  rw [heq, begins_append] at hbegins
  cases hbegins

/-! ## What is printed -/

/-- The lines of the chunks whose fate is accepted, as they are counted chunk by chunk. -/
def counted (keep : Change → Bool) (cs : List Chunk) : Nat :=
  ((cs.filter (keep ·.change)).map fun c => (lines c.text).length).sum

theorem counted_cons (keep : Change → Bool) (c : Chunk) (cs : List Chunk) :
    counted keep (c :: cs) =
      (if keep c.change then (lines c.text).length else 0) + counted keep cs := by
  unfold counted
  rw [List.filter_cons]
  split
  · rfl
  · exact (Nat.zero_add _).symm

theorem newline_not_mem_chunkLines {c : Chunk} {l : String} (h : l ∈ chunkLines c) :
    '\n' ∉ l.toList := by
  have hmarked : ∀ change, l ∈ (lines c.text).map (sign change ++ ·) → '\n' ∉ l.toList := by
    intro change hl
    obtain ⟨k, hk, rfl⟩ := List.mem_map.1 hl
    have hsign : '\n' ∉ (sign change).toList := by cases change <;> decide
    rw [String.toList_append, List.mem_append]
    exact not_or.2 ⟨hsign, newline_not_mem_of_mem_lines hk⟩
  unfold chunkLines at h
  split at h
  · rw [List.mem_singleton.1 h]
    exact ((IsLine.append (by decide) (isLine_repr _)).append (by decide)).newline_not_mem
  · exact hmarked .removed h
  · exact hmarked .added h

theorem pieces_shown (cs : List Chunk) : pieces (shown cs) = cs.flatMap chunkLines ++ [""] := by
  refine pieces_joined fun l hl => ?_
  obtain ⟨c, -, hl⟩ := List.mem_flatMap.1 hl
  exact newline_not_mem_chunkLines hl

theorem countP_begins_marked (a b : Change) (ls : List String) :
    (ls.map (sign b ++ ·)).countP (begins (sign a)) = if b = a then ls.length else 0 := by
  split
  · rename_i heq
    subst heq
    rw [List.countP_eq_length.2, List.length_map]
    intro l hl
    obtain ⟨k, -, rfl⟩ := List.mem_map.1 hl
    exact begins_append _ k
  · rename_i hne
    refine List.countP_eq_zero.2 fun l hl => ?_
    obtain ⟨k, -, rfl⟩ := List.mem_map.1 hl
    simp [begins_sign (Ne.symm hne) k]

theorem countP_chunkLines {change : Change} (hne : change ≠ .same) (c : Chunk) :
    (chunkLines c).countP (begins (sign change)) =
      if c.change = change then (lines c.text).length else 0 := by
  unfold chunkLines
  split
  · rename_i hsame
    rw [hsame, if_neg (Ne.symm hne), count_eq_sign_append, List.countP_singleton, begins_sign hne]
    rfl
  · rename_i hremoved
    rw [hremoved, countP_begins_marked]
  · rename_i hadded
    rw [hadded, countP_begins_marked]

/-- The lines behind a sign are those of the chunks that it is for. -/
theorem marks_shown {change : Change} (hne : change ≠ .same) (cs : List Chunk) :
    marks (sign change) (shown cs) = counted (· = change) cs := by
  have hblank : [""].countP (begins (sign change)) = 0 := by
    cases change <;> decide
  unfold marks
  rw [pieces_shown, List.countP_append, hblank, Nat.add_zero]
  induction cs with
  | nil => rfl
  | cons c cs ih =>
    rw [List.flatMap_cons, List.countP_append, ih, countP_chunkLines hne, counted_cons]
    simp only [decide_eq_true_eq]

theorem sum_keptBy_marked {change : Change} (hne : change ≠ .same) (ls : List String) :
    ((ls.map (sign change ++ ·)).map keptBy).sum = 0 := by
  refine List.sum_eq_zero_iff_forall_eq_nat.2 fun n hn => ?_
  rw [List.map_map] at hn
  obtain ⟨l, -, rfl⟩ := List.mem_map.1 hn
  exact keptBy_sign hne l

theorem sum_keptBy_chunkLines (c : Chunk) :
    ((chunkLines c).map keptBy).sum = if c.change = .same then (lines c.text).length else 0 := by
  unfold chunkLines
  split
  · rename_i hsame
    rw [hsame, if_pos rfl, List.map_singleton, List.sum_singleton, keptBy_count]
  · rename_i hremoved
    rw [hremoved, if_neg (by decide), sum_keptBy_marked (by decide)]
  · rename_i hadded
    rw [hadded, if_neg (by decide), sum_keptBy_marked (by decide)]

/-- The lines that are named as unchanged are those of the kept chunks. -/
theorem kept_shown (cs : List Chunk) : kept (shown cs) = counted (· = .same) cs := by
  have hblank : ([""].map keptBy).sum = 0 := by decide
  unfold kept
  rw [pieces_shown, List.map_append, List.sum_append, hblank, Nat.add_zero]
  induction cs with
  | nil => rfl
  | cons c cs ih =>
    rw [List.flatMap_cons, List.map_append, List.sum_append, ih, sum_keptBy_chunkLines,
      counted_cons]
    simp only [decide_eq_true_eq]

/-- A side has the kept chunks and those of one sign. -/
theorem kept_add_marks {keep : Change → Bool} {change : Change} (hne : change ≠ .same)
    (hkeep : ∀ a, keep a = (decide (a = .same) || decide (a = change))) (cs : List Chunk) :
    kept (shown cs) + marks (sign change) (shown cs) = counted keep cs := by
  rw [kept_shown, marks_shown hne]
  induction cs with
  | nil => rfl
  | cons c cs ih =>
    rw [counted_cons, counted_cons, counted_cons, ← ih, hkeep]
    by_cases hsame : c.change = .same
    · simp only [hsame, Ne.symm hne, decide_true, decide_false, Bool.or_false, if_true,
        Bool.false_eq_true, if_false]
      omega
    · simp only [hsame, decide_false, Bool.false_or, Bool.false_eq_true, if_false]
      omega

/-! ## What is lost -/

def endsBlank (c : Chunk) : Bool :=
  (pieces c.text).getLast? = some ""

/-- How many chunks in front of the last one end with an empty line. -/
def swallowed (cs : List Chunk) : Nat :=
  cs.dropLast.countP endsBlank

theorem length_lines (c : Chunk) :
    (lines c.text).length + (if endsBlank c then 1 else 0) = (pieces c.text).length := by
  unfold endsBlank lines
  simpa only [decide_eq_true_eq] using length_linesOfPieces (pieces c.text)

/-- Counted chunk by chunk, the lines of a side fall short by the empty lines at the ends of the
chunks in front of the last one. -/
theorem counted_add_swallowed (keep : Change → Bool) (cs : List Chunk) :
    counted keep cs + swallowed (cs.filter (keep ·.change)) =
      (linesOfPieces (reading keep cs)).length := by
  unfold counted reading
  generalize cs.filter (keep ·.change) = ds
  induction ds with
  | nil => rfl
  | cons c ds ih =>
    rw [List.map_cons, List.sum_cons, List.flatMap_cons]
    by_cases hlast : ds = []
    · subst hlast
      rw [List.flatMap_nil, List.append_nil]
      rfl
    · have hmore : (ds.flatMap fun c => pieces c.text) ≠ [] := by
        obtain ⟨d, rest, rfl⟩ := List.exists_cons_of_ne_nil hlast
        rw [List.flatMap_cons]
        exact List.append_ne_nil_of_left_ne_nil (pieces_ne_nil d.text) _
      rw [length_linesOfPieces_append _ hmore, ← ih, ← length_lines c, swallowed,
        List.dropLast_cons_of_ne_nil hlast, List.countP_cons, swallowed]
      omega

theorem linesOfPieces_piecesOrNone (s : String) : linesOfPieces (piecesOrNone s) = lines s := by
  unfold piecesOrNone
  split
  · rename_i hs
    subst hs
    rfl
  · rfl

/-- For every two texts and both of them: what a printed diff names as unchanged and the lines
behind the sign of the text add up to its lines, but for the empty lines at the ends of the chunks
in front of its last one. -/
theorem tally_diff (path : Bytes) (existing generated : String) :
    ∃ output,
      render false (diff path existing generated) = diffTitle path ++ output ∧
        kept output + marks "-" output +
            swallowed ((script existing generated).filter (·.change ≠ .added)) =
          (lines existing).length ∧
        kept output + marks "+" output +
            swallowed ((script existing generated).filter (·.change ≠ .removed)) =
          (lines generated).length := by
  have hremoved : Change.removed ≠ .same := by decide
  have hadded : Change.added ≠ .same := by decide
  have hold := counted_add_swallowed (· ≠ .added) (script existing generated)
  have hnew := counted_add_swallowed (· ≠ .removed) (script existing generated)
  rw [reading_existing, linesOfPieces_piecesOrNone,
    ← kept_add_marks hremoved fun a => by cases a <;> rfl] at hold
  rw [reading_generated, linesOfPieces_piecesOrNone,
    ← kept_add_marks hadded fun a => by cases a <;> rfl] at hnew
  exact ⟨_, render_diff path existing generated, hold, hnew⟩

/-- An empty line at the end of what is kept is not counted, although the line behind it differs. -/
theorem tally_diff_short :
    ¬ ∀ (path : Bytes) (existing generated : String), ∃ output,
      render false (diff path existing generated) = diffTitle path ++ output ∧
        kept output + marks "-" output = (lines existing).length ∧
        kept output + marks "+" output = (lines generated).length := by
  intro h
  obtain ⟨output, hrender, hold, -⟩ := h (Bytes.ofString "m.hpp") "a\n\nb" "a\n\nc"
  have hscript : script "a\n\nb" "a\n\nc" =
      [⟨.same, ["a", ""]⟩, ⟨.removed, ["b"]⟩, ⟨.added, ["c"]⟩] := by cbv
  have hoverall := hrender.symm.trans (render_diff _ _ _)
  rw [append_right_injective hoverall, hscript] at hold
  revert hold
  decide

/-! ## Whether a difference is shown -/

theorem marks_pos_iff {change : Change} (hne : change ≠ .same) (cs : List Chunk) :
    0 < marks (sign change) (shown cs) ↔ ∃ c ∈ cs, c.change = change ∧ c.text ≠ "" := by
  rw [marks_shown hne, counted, List.sum_pos_iff_exists_pos_nat]
  simp only [List.mem_map, List.mem_filter, decide_eq_true_eq]
  constructor
  · rintro ⟨_, ⟨c, ⟨hc, hchange⟩, rfl⟩, hpos⟩
    refine ⟨c, hc, hchange, fun htext => ?_⟩
    rw [lines_eq_nil_iff.2 htext] at hpos
    exact Nat.lt_irrefl 0 hpos
  · rintro ⟨c, hc, hchange, htext⟩
    exact ⟨_, ⟨c, ⟨hc, hchange⟩, rfl⟩, List.length_pos_iff.2 (mt lines_eq_nil_iff.1 htext)⟩

theorem filter_piecesOrNone (s : String) :
    (piecesOrNone s).filter (· ≠ "") = (pieces s).filter (· ≠ "") := by
  unfold piecesOrNone
  split
  · rename_i hs
    subst hs
    rfl
  · rfl

/-- Where all that changes is empty lines, both sides have the other lines in common. -/
theorem filter_reading {keep : Change → Bool} (hkeep : keep .same = true) {cs : List Chunk}
    (h : ∀ c ∈ cs, c.change ≠ .same → c.text = "") :
    (reading keep cs).filter (· ≠ "") = (reading (· = .same) cs).filter (· ≠ "") := by
  induction cs with
  | nil => rfl
  | cons c cs ih =>
    rw [reading_cons, reading_cons, List.filter_append, List.filter_append,
      ih fun d hd => h d (List.mem_cons_of_mem c hd)]
    congr 1
    by_cases hsame : c.change = .same
    · rw [hsame, hkeep]
      rfl
    · have hblank : (pieces "").filter (· ≠ "") = [] := by decide
      have hnot : ¬decide (c.change = .same) = true := by simpa using hsame
      rw [h c List.mem_cons_self hsame, if_neg hnot]
      split
      · exact hblank
      · rfl

theorem shows_shown_iff (cs : List Chunk) :
    0 < marks "-" (shown cs) + marks "+" (shown cs) ↔
      ∃ c ∈ cs, c.change ≠ .same ∧ c.text ≠ "" := by
  have hremoved : Change.removed ≠ .same := by decide
  have hadded : Change.added ≠ .same := by decide
  rw [Nat.add_pos_iff_pos_or_pos]
  refine (or_congr (marks_pos_iff hremoved cs) (marks_pos_iff hadded cs)).trans ⟨?_, ?_⟩
  · rintro (⟨c, hc, hchange, htext⟩ | ⟨c, hc, hchange, htext⟩)
    · exact ⟨c, hc, hchange ▸ hremoved, htext⟩
    · exact ⟨c, hc, hchange ▸ hadded, htext⟩
  · rintro ⟨c, hc, hchange, htext⟩
    cases heq : c.change with
    | same => exact absurd heq hchange
    | removed => exact .inl ⟨c, hc, heq, htext⟩
    | added => exact .inr ⟨c, hc, heq, htext⟩

/-- For every two texts: the script changes something if and only if they are different, and the
diff shows a line behind a sign if and only if one of the changed chunks is more than one empty
line. So texts that differ without a line behind a sign differ in empty lines only. -/
theorem shows_diff_iff (path : Bytes) (existing generated : String) :
    ∃ output,
      render false (diff path existing generated) = diffTitle path ++ output ∧
        (existing ≠ generated ↔ ∃ c ∈ script existing generated, c.change ≠ .same) ∧
        (0 < marks "-" output + marks "+" output ↔
          ∃ c ∈ script existing generated, c.change ≠ .same ∧ c.text ≠ "") ∧
        (marks "-" output + marks "+" output = 0 →
          (pieces existing).filter (· ≠ "") = (pieces generated).filter (· ≠ "")) := by
  have hshows := shows_shown_iff (script existing generated)
  refine ⟨_, render_diff path existing generated, exists_changed_iff.symm, hshows, fun hnone => ?_⟩
  have hblank : ∀ c ∈ script existing generated, c.change ≠ .same → c.text = "" := by
    intro c hc hchange
    by_contra htext
    have := hshows.2 ⟨c, hc, hchange, htext⟩
    omega
  calc (pieces existing).filter (· ≠ "")
    _ = (reading (· ≠ .added) (script existing generated)).filter (· ≠ "") := by
      rw [reading_existing, filter_piecesOrNone]
    _ = (reading (· = .same) (script existing generated)).filter (· ≠ "") :=
      filter_reading (by decide) hblank
    _ = (reading (· ≠ .removed) (script existing generated)).filter (· ≠ "") :=
      (filter_reading (by decide) hblank).symm
    _ = (pieces generated).filter (· ≠ "") := by
      rw [reading_generated, filter_piecesOrNone]

/-- A further line feed behind a header is not shown. -/
theorem diff_silent :
    ¬ ∀ (d : Depth) (path : Bytes) (existing : String), existing ≠ Header.text d → ∃ output,
      render false (diff path existing (Header.text d)) = diffTitle path ++ output ∧
        0 < marks "-" output + marks "+" output := by
  intro h
  have hne : Header.text .one ++ "\n" ≠ Header.text .one := by
    intro heq
    have hlen := congrArg String.length heq
    rw [String.length_append] at hlen
    exact absurd (Nat.add_eq_left.1 hlen) (by decide)
  obtain ⟨output, hrender, hshows⟩ := h .one (Bytes.ofString "m.hpp") _ hne
  rw [append_right_injective (hrender.symm.trans (render_diff _ _ _)),
    script_newline (Header.text_ne_empty .one), shows_shown_iff] at hshows
  obtain ⟨c, hc, hchange, htext⟩ := hshows
  rcases List.mem_pair.1 hc with rfl | rfl
  · exact hchange rfl
  · exact htext rfl

end FieldMacros.Console
