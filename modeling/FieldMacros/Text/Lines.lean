/-!
# Lines of a text

Two readings of a text as lines. `pieces` cuts at every line feed, so `n` line
feeds give `n + 1` pieces and `join` undoes it. `lines` is what a reader of the
text sees: a final line feed ends the last line instead of starting an empty
one, and a carriage return directly before a line feed belongs to the ending.
-/

namespace FieldMacros.Text

/-- The text between line feeds; the empty text is one empty piece. -/
def pieces (s : String) : List String :=
  (s.toList.splitOn '\n').map String.ofList

def join (ps : List String) : String :=
  "\n".intercalate ps

@[simp]
theorem pieces_ne_nil (s : String) : pieces s ≠ [] := by
  simp [pieces]

@[simp]
theorem join_pieces (s : String) : join (pieces s) = s := by
  rw [← String.toList_inj]
  simp [join, pieces, List.map_map, Function.comp_def, List.intercalate_splitOn]

theorem pieces_join {ps : List String} (hne : ps ≠ []) (h : ∀ p ∈ ps, '\n' ∉ p.toList) :
    pieces (join ps) = ps := by
  have hls : ps.map String.toList ≠ [] := by simpa using hne
  have hmem : ∀ l ∈ ps.map String.toList, '\n' ∉ l := by simpa using h
  have := List.splitOn_intercalate '\n' hmem hls
  simp_all [pieces, join, Function.comp_def]

/-- No piece of a text holds a line feed. -/
theorem not_mem_of_mem_pieces {s p : String} (h : p ∈ pieces s) : '\n' ∉ p.toList := by
  have key : ∀ cs l : List Char, l ∈ cs.splitOn '\n' → '\n' ∉ l := by
    intro cs
    induction cs with
    | nil => simp
    | cons c cs ih =>
      intro l hl
      rw [List.splitOn_cons_eq_if_modifyHead] at hl
      obtain ⟨q, qs, hq⟩ := List.exists_cons_of_ne_nil (List.splitOn_ne_nil '\n' cs)
      rw [hq] at ih hl
      split at hl
      · rcases List.mem_cons.1 hl with rfl | hl
        · simp
        · exact ih l hl
      · rename_i hc
        rcases List.mem_cons.1 hl with rfl | hl
        · have hne : '\n' ≠ c := fun e => hc (by simp [← e])
          simpa [hne] using ih q (by simp)
        · exact ih l (by simp [hl])
  obtain ⟨cs, hcs, rfl⟩ := List.mem_map.1 h
  simpa using key _ cs hcs

def dropCarriageReturn (s : String) : String :=
  if s.toList.getLast? = some '\r' then String.ofList s.toList.dropLast else s

/-- The lines among the pieces of a text: every piece but the last was ended by a line feed. -/
def linesOfPieces : List String → List String
  | [] => []
  | [last] => if last = "" then [] else [last]
  | p :: rest => dropCarriageReturn p :: linesOfPieces rest

/-- The lines of a text, without their endings. -/
def lines (s : String) : List String :=
  linesOfPieces (pieces s)

end FieldMacros.Text
