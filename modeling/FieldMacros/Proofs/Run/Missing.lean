import FieldMacros.Proofs.Console.Marks
import FieldMacros.Proofs.Diff.Extension
import FieldMacros.Proofs.Header.Lines
import FieldMacros.Proofs.Run.Check

/-!
# A check without a file

A missing file counts as an empty one, and next to an empty file everything is
new. So what a check of such a file shows is the header itself with a mark in
front of every line (`endedLines_shown_empty`).
-/

namespace FieldMacros

open CommandLine (Options stdoutName)
open Diff Text

namespace Console

/-- A line without the mark in front of it. -/
def unmarked (line : String) : String :=
  String.ofList (line.toList.drop 1)

theorem unmarked_append (l : String) : unmarked ("+" ++ l) = l := by
  unfold unmarked
  rw [String.toList_append]
  exact String.ofList_toList

theorem join_unmarked (ls : List String) :
    String.join ((ls.map ("+" ++ ·)).map (unmarked · ++ "\n")) =
      String.join (ls.map (· ++ "\n")) := by
  rw [List.map_map]
  congr 1
  refine List.map_congr_left fun l _ => ?_
  show unmarked ("+" ++ l) ++ "\n" = l ++ "\n"
  rw [unmarked_append]

/-- Next to the empty text all lines of a text are marked as added. -/
theorem shown_empty {s : String} (h : Ended s) (hline : ∀ p ∈ pieces s, IsLine p) :
    shown (script "" s) = String.join (((endedLines s).map ("+" ++ ·)).map (· ++ "\n")) := by
  have hne : s ≠ "" := by
    rintro rfl
    exact absurd h (by decide)
  have hchunk : chunkLines ⟨.added, pieces s⟩ = (endedLines s).map ("+" ++ ·) := by
    show (lines (join (pieces s))).map (sign .added ++ ·) = _
    rw [join_pieces, h.lines_eq hline]
    rfl
  rw [script_empty hne, shown, List.flatMap_singleton, hchunk]

theorem endedLines_shown_empty {s : String} (h : Ended s) (hline : ∀ p ∈ pieces s, IsLine p) :
    Ended (shown (script "" s)) ∧
      endedLines (shown (script "" s)) = (endedLines s).map ("+" ++ ·) := by
  have hmarked : ∀ l ∈ (endedLines s).map ("+" ++ ·), '\n' ∉ l.toList := by
    intro l hl
    obtain ⟨k, hk, rfl⟩ := List.mem_map.1 hl
    have hk : IsLine k := hline k (List.dropLast_subset _ hk)
    exact (IsLine.append (by decide) hk).newline_not_mem
  rw [shown_empty h hline]
  exact ⟨ended_joined (mt List.map_eq_nil_iff.1 h.endedLines_ne_nil), endedLines_joined hmarked⟩

end Console

/-! ## The check -/

namespace Notice

/-- What notices have for the user, beside the events that they report. -/
def forUser (ns : List Notice) : List Console.Piece :=
  ns.filterMap fun
    | piece p => some p
    | event _ => none

theorem forUser_append (ns ms : List Notice) : forUser (ns ++ ms) = forUser ns ++ forUser ms :=
  List.filterMap_append

theorem forUser_ofPieces (ps : List Console.Piece) : forUser (ofPieces ps) = ps := by
  unfold forUser ofPieces
  rw [List.filterMap_map]
  exact List.filterMap_some

theorem forUser_generation (h : Header) : forUser (Verdict.generation h) = [] := by
  unfold Verdict.generation
  rw [forUser_append, forUser_append]
  split
  · rfl
  · rfl

end Notice

/-- What a check that is not quiet has for the user where there is nothing to compare with. -/
theorem Verdict.forUser_check {o : Options} (hquiet : o.quiet = false) {generated : String}
    (hne : generated ≠ "") {r : Except IoCause String} (h : r = .error .notFound ∨ r = .ok "") :
    Notice.forUser (check o generated r).notices = Console.diff o.outfile "" generated := by
  have hcomparison : Notice.forUser (comparison o "" generated).notices =
      Console.diff o.outfile "" generated := by
    rw [comparison, if_neg (Ne.symm hne)]
    show Notice.forUser (unlessQuiet o _) = _
    rw [unlessQuiet, hquiet]
    exact Notice.forUser_ofPieces _
  rcases h with rfl | rfl
  · exact hcomparison
  · exact hcomparison

theorem forUser_run_check {o : Options} {d : Depth} (hcheck : o.check = true)
    (hout : o.outfile ≠ stdoutName) (hdepth : o.maxDepth = d.level) (t : FileTree) (out : Stdout) :
    Notice.forUser (run o t out).verdict.notices =
      Notice.forUser (Verdict.check o (Header.text d) (t.readText o.outfile)).notices := by
  rw [run_of_header (header_of_not_refused hdepth fun h => hout h.2), deliver_of_check _ hcheck]
  simp only [Verdict.after, Notice.forUser_append, Notice.forUser_generation, List.nil_append]
  rfl

/-- Next to the empty text a diff marks every line as added, and the lines without their marks are
the header. This is what a check shows where there is no file or an empty one. -/
theorem check_without_file (d : Depth) :
    (∀ path : Bytes, ∃ output,
      Console.render false (Console.diff path "" (Header.text d)) =
          Console.diffTitle path ++ output ∧
        Ended output ∧ (∀ l ∈ endedLines output, Console.begins "+" l = true) ∧
        String.join ((endedLines output).map (Console.unmarked · ++ "\n")) = Header.text d) ∧
    ∀ (o : Options) (t : FileTree) (out : Stdout), o.check = true → o.outfile ≠ stdoutName →
      o.maxDepth = d.level → o.quiet = false →
      (t.Unreadable o.outfile .notFound ∨
        ∃ l mode, t.Leads o.outfile (.ok (l, .file mode "".toUTF8))) →
      Notice.forUser (run o t out).verdict.notices =
        Console.diff o.outfile "" (Header.text d) := by
  constructor
  · intro path
    obtain ⟨hended, hlines⟩ := Console.endedLines_shown_empty (Header.ended_text d)
      fun p hp => Header.isLine_of_mem_pieces_text hp
    refine ⟨_, Console.render_diff path "" (Header.text d), hended, ?_, ?_⟩
    · rw [hlines]
      intro l hl
      obtain ⟨k, -, rfl⟩ := List.mem_map.1 hl
      exact Console.begins_append "+" k
    · rw [hlines, Console.join_unmarked, (Header.ended_text d).join_endedLines]
  · intro o t out hcheck hout hdepth hquiet habsent
    rw [forUser_run_check hcheck hout hdepth]
    refine Verdict.forUser_check hquiet (Header.text_ne_empty d) ?_
    rcases habsent with hmissing | hempty
    · exact .inl (FileTree.readText_eq_error_iff.2 hmissing)
    · exact .inr (FileTree.readText_eq_ok_iff.2 (FileTree.read_eq_ok_iff.2 hempty))

/-- One name is that of an empty file, the other one is that of none. -/
theorem check_without_file_names :
    let t : FileTree := ⟨0o755, 0, [([[0x65]], .file 0o644 "".toUTF8)]⟩
    Notice.forUser (run ⟨[0x65], 1, true, 0, false⟩ t .writable).verdict.notices =
        Console.diff [0x65] "" (Header.text .one) ∧
      Notice.forUser (run ⟨[0x6E], 1, true, 1, false⟩ t .writable).verdict.notices =
        Console.diff [0x6E] "" (Header.text .one) := by
  intro t
  have hempty : t.Leads [0x65] (.ok ([[0x65]], .file 0o644 "".toUTF8)) :=
    .walked rfl .refl (.file ⟨by decide, by decide, by decide⟩ rfl)
  have hmissing : t.Leads [0x6E] (.error .notFound) :=
    .walked rfl .refl (.missing ⟨by decide, by decide, by decide⟩ rfl)
  obtain ⟨-, hcheck⟩ := check_without_file .one
  exact ⟨hcheck ⟨[0x65], 1, true, 0, false⟩ t .writable rfl (by decide) rfl rfl
      (.inr ⟨_, _, hempty⟩),
    hcheck ⟨[0x6E], 1, true, 1, false⟩ t .writable rfl (by decide) rfl rfl
      (.inl (.nowhere hmissing))⟩

end FieldMacros
