import FieldMacros.Console.Status
import FieldMacros.Proofs.Diff.Faithful
import FieldMacros.Proofs.Text.Pieces

/-!
# The lines of a printed diff

Without colours a diff is its title and, for every chunk of the script, the
lines that stand for it, each with a line feed behind it (`render_diff`). A
reader who picks out the lines behind one sign finds the non-blank lines of
the chunks that the sign is for (`signed_shown`).
-/

namespace FieldMacros.Console

open Diff Text

/-- What the lines that stand for a chunk begin with. -/
def sign : Change → String
  | .same => "@"
  | .removed => "-"
  | .added => "+"

def chunkLines (c : Chunk) : List String :=
  match c.change with
  | .same => ["@@ " ++ (lines c.text).length.repr ++ " unchanged line(s) @@"]
  | .removed => (lines c.text).map (sign .removed ++ ·)
  | .added => (lines c.text).map (sign .added ++ ·)

/-- The lines of a script, each ended. -/
def shown (cs : List Chunk) : String :=
  String.join ((cs.flatMap chunkLines).map (· ++ "\n"))

theorem render_chunk (c : Chunk) :
    render false (chunk c) = String.join ((chunkLines c).map (· ++ "\n")) := by
  unfold chunk chunkLines
  cases c.change with
  | same =>
    have hend : " unchanged line(s) @@\n" = " unchanged line(s) @@" ++ "\n" := rfl
    simp only [render, Piece.render, List.map_cons, List.map_nil, String.join_cons,
      String.join_nil, String.append_empty, Bool.false_eq_true, if_false, String.empty_append]
    rw [hend, ← String.append_assoc]
  | removed => simp [render, Piece.render, marked, sign, Function.comp_def]
  | added => simp [render, Piece.render, marked, sign, Function.comp_def]

theorem render_flatMap_chunk (cs : List Chunk) : render false (cs.flatMap chunk) = shown cs := by
  induction cs with
  | nil => rfl
  | cons c cs ih =>
    rw [List.flatMap_cons, render_append, render_chunk, ih, shown, shown, List.flatMap_cons,
      List.map_append, String.join_append]

theorem render_diff (path : Bytes) (existing generated : String) :
    render false (diff path existing generated) =
      diffTitle path ++ shown (script existing generated) := by
  unfold diff
  rw [render_append, render_append, render_flatMap_chunk]
  simp [render, Piece.render]

/-! ## Picking out lines -/

/-- Whether a line begins with a sign and is not the sign alone. -/
def isSigned (mark line : String) : Bool :=
  mark.toList.isPrefixOf line.toList && decide (line ≠ mark)

/-- The lines of an output behind a sign, without those that are the sign alone. -/
def signed (mark output : String) : List String :=
  (lines output).filter (isSigned mark)

def begins (mark line : String) : Bool :=
  mark.toList.isPrefixOf line.toList

theorem begins_append (mark l : String) : begins mark (mark ++ l) = true := by
  unfold begins
  rw [String.toList_append, List.isPrefixOf_iff_prefix]
  exact List.prefix_append _ _

theorem begins_sign {a b : Change} (h : a ≠ b) (l : String) :
    begins (sign a) (sign b ++ l) = false := by
  unfold begins
  rw [String.toList_append]
  cases a <;> cases b <;> first | exact absurd rfl h | rfl

theorem isSigned_eq (mark line : String) :
    isSigned mark line = (begins mark line && decide (line ≠ mark)) := rfl

theorem isSigned_append (mark l : String) : isSigned mark (mark ++ l) = decide (l ≠ "") := by
  have hblank : mark ++ l = mark ↔ l = "" := by
    rw [← String.toList_inj, String.toList_append, List.append_right_eq_self,
      String.toList_eq_nil_iff]
  rw [isSigned_eq, begins_append, Bool.true_and]
  exact decide_eq_decide.2 (not_congr hblank)

theorem isSigned_sign {a b : Change} (h : a ≠ b) (l : String) :
    isSigned (sign a) (sign b ++ l) = false := by
  rw [isSigned_eq, begins_sign h, Bool.false_and]

/-- A line that counts begins with the sign of kept lines. -/
theorem count_eq_sign_append (count : String) :
    "@@ " ++ count ++ " unchanged line(s) @@" =
      sign .same ++ ("@ " ++ count ++ " unchanged line(s) @@") := by
  have hopen : "@@ " = sign .same ++ "@ " := rfl
  rw [hopen, String.append_assoc, String.append_assoc, String.append_assoc]

theorem filter_isSigned (a b : Change) (ls : List String) :
    (ls.map (sign b ++ ·)).filter (isSigned (sign a)) =
      if b = a then (ls.filter (· ≠ "")).map (sign a ++ ·) else [] := by
  split
  · rename_i heq
    subst heq
    rw [List.filter_map]
    congr 1
    exact List.filter_congr fun l _ => isSigned_append _ l
  · rename_i hne
    refine List.filter_eq_nil_iff.2 fun l hl => ?_
    obtain ⟨k, -, rfl⟩ := List.mem_map.1 hl
    simp [isSigned_sign (Ne.symm hne) k]

theorem isLine_chunkLines {c : Chunk} (h : ∀ p ∈ pieces c.text, IsLine p) :
    ∀ l ∈ chunkLines c, IsLine l := by
  have hmarked : ∀ change, ∀ l ∈ (lines c.text).map (sign change ++ ·), IsLine l := by
    intro change l hl
    obtain ⟨k, hk, rfl⟩ := List.mem_map.1 hl
    have hsign : IsLine (sign change) := by cases change <;> decide
    exact hsign.append (h k (mem_pieces_of_mem_lines h hk))
  unfold chunkLines
  split
  · intro l hl
    rw [List.mem_singleton.1 hl]
    exact (IsLine.append (by decide) (isLine_repr _)).append (by decide)
  · exact hmarked .removed
  · exact hmarked .added

theorem filter_chunkLines {c : Chunk} (h : ∀ p ∈ pieces c.text, IsLine p) {change : Change}
    (hne : change ≠ .same) :
    (chunkLines c).filter (isSigned (sign change)) =
      if c.change = change then ((pieces c.text).filter (· ≠ "")).map (sign change ++ ·)
      else [] := by
  rw [← filter_lines h]
  unfold chunkLines
  split
  · rename_i hsame
    rw [hsame, if_neg (Ne.symm hne), count_eq_sign_append, List.filter_cons, isSigned_sign hne]
    rfl
  · rename_i hremoved
    rw [hremoved, filter_isSigned]
  · rename_i hadded
    rw [hadded, filter_isSigned]

/-- The non-blank lines behind a sign are those of the chunks that the sign is for. -/
theorem signed_shown {cs : List Chunk} (h : ∀ c ∈ cs, ∀ p ∈ pieces c.text, IsLine p)
    {change : Change} (hne : change ≠ .same) :
    signed (sign change) (shown cs) =
      ((reading (· = change) cs).filter (· ≠ "")).map (sign change ++ ·) := by
  have hlines : ∀ l ∈ cs.flatMap chunkLines, IsLine l := by
    intro l hl
    obtain ⟨c, hc, hl⟩ := List.mem_flatMap.1 hl
    exact isLine_chunkLines (h c hc) l hl
  unfold signed shown
  rw [lines_join hlines]
  clear hlines
  induction cs with
  | nil => rfl
  | cons c cs ih =>
    have hc := h c List.mem_cons_self
    have ih := ih fun d hd => h d (List.mem_cons_of_mem c hd)
    rw [List.flatMap_cons, List.filter_append, ih, filter_chunkLines hc hne, reading_cons,
      List.filter_append, List.map_append]
    by_cases hchange : c.change = change
    · rw [if_pos hchange, if_pos (by simpa using hchange)]
    · rw [if_neg hchange, if_neg (by simpa using hchange)]
      rfl

end FieldMacros.Console
