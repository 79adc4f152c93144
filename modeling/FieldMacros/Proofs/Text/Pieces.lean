import FieldMacros.Text.Lines
import FieldMacros.Text.Numeral

/-!
# Texts put together from lines

A text that ends with a line feed has all its lines ended: what follows it
begins a line of its own (`pieces_append`). `IsLine` is a text without line
feeds and carriage returns, which every reading of lines keeps as it is: among
such pieces the lines are all pieces but a blank one at the end
(`eq_linesOfPieces`).
-/

namespace FieldMacros.Text

/-! ## Characters that a text does not hold -/

theorem not_mem_append {c : Char} {s t : String} (hs : c ∉ s.toList) (ht : c ∉ t.toList) :
    c ∉ (s ++ t).toList := by
  rw [String.toList_append, List.mem_append, not_or]
  exact ⟨hs, ht⟩

theorem not_mem_join {c : Char} {ls : List String} (h : ∀ l ∈ ls, c ∉ l.toList) :
    c ∉ (String.join ls).toList := by
  rw [String.toList_join, List.mem_flatMap]
  rintro ⟨l, hl, hmem⟩
  exact h l hl hmem

/-- A reader that stops at a character stops at the first one. -/
theorem span_ne {c : Char} {cs : List Char} (h : c ∉ cs) (rest : List Char) :
    (cs ++ c :: rest).takeWhile (· != c) = cs ∧
      (cs ++ c :: rest).dropWhile (· != c) = c :: rest := by
  have hkeep : ∀ d ∈ cs, (d != c) = true := fun d hd => bne_iff_ne.2 fun e => h (e ▸ hd)
  rw [List.takeWhile_append_of_pos hkeep, List.dropWhile_append_of_pos hkeep]
  simp

/-! ## Pieces that are lines -/

/-- A text that fits on one line. -/
def IsLine (s : String) : Prop :=
  ∀ c ∈ s.toList, c ≠ '\n' ∧ c ≠ '\r'

-- Named, since the search may prefer an instance that runs through all characters.
instance (s : String) : Decidable (IsLine s) :=
  List.decidableBAll (fun c => c ≠ '\n' ∧ c ≠ '\r') s.toList

theorem isLine_append {s t : String} : IsLine (s ++ t) ↔ IsLine s ∧ IsLine t := by
  simp only [IsLine, String.toList_append, List.mem_append]
  constructor
  · intro h
    exact ⟨fun c hc => h c (.inl hc), fun c hc => h c (.inr hc)⟩
  · rintro ⟨hs, ht⟩ c (hc | hc)
    · exact hs c hc
    · exact ht c hc

theorem IsLine.append {s t : String} (hs : IsLine s) (ht : IsLine t) : IsLine (s ++ t) :=
  isLine_append.2 ⟨hs, ht⟩

theorem IsLine.newline_not_mem {s : String} (h : IsLine s) : '\n' ∉ s.toList :=
  fun hmem => (h _ hmem).1 rfl

theorem isLine_repr (n : Nat) : IsLine n.repr := fun c hc => by
  have h := Numeral.isDigit_of_mem_repr hc
  constructor <;> rintro rfl <;> revert h <;> decide

theorem pieces_of_not_mem {s : String} (h : '\n' ∉ s.toList) : pieces s = [s] := by
  unfold pieces
  rw [List.splitOn_eq_singleton h]
  simp

theorem pieces_of_isLine {s : String} (h : IsLine s) : pieces s = [s] :=
  pieces_of_not_mem h.newline_not_mem

/-! ## Ended texts -/

/-- A text whose last line is ended. -/
def Ended (s : String) : Prop :=
  s.toList.getLast? = some '\n'

instance (s : String) : Decidable (Ended s) :=
  inferInstanceAs (Decidable (s.toList.getLast? = some '\n'))

def endedLines (s : String) : List String :=
  (pieces s).dropLast

theorem Ended.append {t : String} (h : Ended t) (s : String) : Ended (s ++ t) := by
  unfold Ended
  rw [String.toList_append, List.getLast?_append, h]
  rfl

theorem Ended.exists_append {s : String} (h : Ended s) : ∃ r, s = r ++ "\n" := by
  obtain ⟨cs, hcs⟩ := List.getLast?_eq_some_iff.1 h
  refine ⟨String.ofList cs, ?_⟩
  rw [← String.toList_inj, String.toList_append, String.toList_ofList, hcs]
  rfl

theorem pieces_newline_append (s t : String) : pieces (s ++ "\n" ++ t) = pieces s ++ pieces t := by
  have h : (s ++ "\n" ++ t).toList = s.toList ++ '\n' :: t.toList := by
    simp only [String.toList_append, List.append_assoc]
    rfl
  rw [pieces, h, List.splitOn_append_cons_self, List.map_append, pieces, pieces]

theorem pieces_newline (s : String) : pieces (s ++ "\n") = pieces s ++ [""] := by
  have h := pieces_newline_append s ""
  rw [String.append_empty] at h
  exact h

theorem endedLines_newline (s : String) : endedLines (s ++ "\n") = pieces s := by
  unfold endedLines
  rw [pieces_newline, List.dropLast_concat]

/-- What follows an ended text begins a line of its own. -/
theorem pieces_append {s : String} (h : Ended s) (t : String) :
    pieces (s ++ t) = endedLines s ++ pieces t := by
  obtain ⟨r, rfl⟩ := h.exists_append
  rw [pieces_newline_append, endedLines_newline]

theorem endedLines_append {s : String} (h : Ended s) (t : String) :
    endedLines (s ++ t) = endedLines s ++ endedLines t := by
  unfold endedLines
  rw [pieces_append h, List.dropLast_append_of_ne_nil (pieces_ne_nil t)]
  rfl

/-- Between the line feeds of an output stand the texts that it has been put together from. -/
theorem pieces_joined {ls : List String} (h : ∀ l ∈ ls, '\n' ∉ l.toList) :
    pieces (String.join (ls.map (· ++ "\n"))) = ls ++ [""] := by
  induction ls with
  | nil => decide
  | cons l ls ih =>
    rw [List.map_cons, String.join_cons, pieces_newline_append,
      pieces_of_not_mem (h l List.mem_cons_self), ih fun k hk => h k (List.mem_cons_of_mem l hk)]
    rfl

/-- Pieces of a text, all of them ended, are the text ended. -/
theorem join_ended {ps : List String} (h : ps ≠ []) :
    String.join (ps.map (· ++ "\n")) = join ps ++ "\n" := by
  induction ps with
  | nil => exact absurd rfl h
  | cons p ps ih =>
    cases ps with
    | nil => simp [join]
    | cons q qs =>
      have hjoin : join (p :: q :: qs) = p ++ "\n" ++ join (q :: qs) :=
        String.intercalate_cons_cons
      rw [List.map_cons, String.join_cons, ih (List.cons_ne_nil q qs), hjoin]
      exact String.append_assoc.symm

theorem join_pieces_ended (s : String) : String.join ((pieces s).map (· ++ "\n")) = s ++ "\n" := by
  rw [join_ended (pieces_ne_nil s), join_pieces]

/-- The lines of an ended text are the text. -/
theorem Ended.join_endedLines {s : String} (h : Ended s) :
    String.join ((endedLines s).map (· ++ "\n")) = s := by
  obtain ⟨r, rfl⟩ := h.exists_append
  rw [endedLines_newline, join_pieces_ended]

theorem Ended.endedLines_ne_nil {s : String} (h : Ended s) : endedLines s ≠ [] := by
  obtain ⟨r, rfl⟩ := h.exists_append
  rw [endedLines_newline]
  exact pieces_ne_nil r

theorem ended_joined {ls : List String} (h : ls ≠ []) : Ended (String.join (ls.map (· ++ "\n"))) := by
  rw [join_ended h]
  exact Ended.append (by decide) _

theorem endedLines_joined {ls : List String} (h : ∀ l ∈ ls, '\n' ∉ l.toList) :
    endedLines (String.join (ls.map (· ++ "\n"))) = ls := by
  unfold endedLines
  rw [pieces_joined h, List.dropLast_concat]

/-- The pieces of a text hold nothing that the text does not hold. -/
theorem mem_of_mem_pieces {s p : String} (hp : p ∈ pieces s) {c : Char} (hc : c ∈ p.toList) :
    c ∈ s.toList := by
  have hmem : c ∈ (s ++ "\n").toList := by
    rw [← join_pieces_ended, String.toList_join, List.mem_flatMap]
    refine ⟨p ++ "\n", List.mem_map_of_mem hp, ?_⟩
    rw [String.toList_append]
    exact List.mem_append_left _ hc
  rw [String.toList_append, List.mem_append] at hmem
  rcases hmem with hmem | hmem
  · exact hmem
  · have hnewline : c = '\n' := List.mem_singleton.1 hmem
    exact absurd (hnewline ▸ hc) (not_mem_of_mem_pieces hp)

theorem endedLines_of_isLine {l : String} (h : IsLine l) : endedLines (l ++ "\n") = [l] := by
  rw [endedLines_newline, pieces_of_isLine h]

/-! ## Lines -/

theorem dropCarriageReturn_of_isLine {l : String} (h : IsLine l) : dropCarriageReturn l = l :=
  if_neg fun hlast => (h _ (List.mem_of_getLast? hlast)).2 rfl

theorem lines_append {l : String} (h : IsLine l) (t : String) :
    lines (l ++ "\n" ++ t) = l :: lines t := by
  obtain ⟨p, ps, hps⟩ := List.exists_cons_of_ne_nil (pieces_ne_nil t)
  rw [lines, pieces_newline_append, pieces_of_isLine h, lines, hps, List.singleton_append,
    linesOfPieces, dropCarriageReturn_of_isLine h]
  exact List.cons_ne_nil p ps

/-- Lines that are written down one by one are read back. -/
theorem lines_join {ls : List String} (h : ∀ l ∈ ls, IsLine l) :
    lines (String.join (ls.map (· ++ "\n"))) = ls := by
  induction ls with
  | nil => decide
  | cons l ls ih =>
    rw [List.map_cons, String.join_cons, lines_append (h l List.mem_cons_self),
      ih fun k hk => h k (List.mem_cons_of_mem l hk)]

theorem Ended.lines_eq {s : String} (h : Ended s) (hline : ∀ p ∈ pieces s, IsLine p) :
    lines s = endedLines s := by
  have hended : ∀ l ∈ endedLines s, IsLine l := fun l hl => hline l (List.dropLast_subset _ hl)
  have hlines := lines_join hended
  rwa [h.join_endedLines] at hlines

theorem not_mem_dropCarriageReturn {c : Char} {s : String} (h : c ∉ s.toList) :
    c ∉ (dropCarriageReturn s).toList := by
  unfold dropCarriageReturn
  split
  · rw [String.toList_ofList]
    exact fun hmem => h (List.dropLast_subset _ hmem)
  · exact h

/-- Lines hold what the pieces hold. -/
theorem not_mem_of_mem_linesOfPieces {c : Char} {ps : List String} (h : ∀ p ∈ ps, c ∉ p.toList) :
    ∀ l ∈ linesOfPieces ps, c ∉ l.toList := by
  fun_induction linesOfPieces ps with
  | case1 => nofun
  | case2 => nofun
  | case3 => exact h
  | case4 p rest _ ih =>
    rw [List.forall_mem_cons] at h ⊢
    exact ⟨not_mem_dropCarriageReturn h.1, ih h.2⟩

theorem newline_not_mem_of_mem_lines {s l : String} (h : l ∈ lines s) : '\n' ∉ l.toList :=
  not_mem_of_mem_linesOfPieces (fun _ hp => not_mem_of_mem_pieces hp) l h

/-- An empty piece at the end is no line. -/
theorem length_linesOfPieces (ps : List String) :
    (linesOfPieces ps).length + (if ps.getLast? = some "" then 1 else 0) = ps.length := by
  fun_induction linesOfPieces ps with
  | case1 => rfl
  | case2 => rfl
  | case3 last hlast => simp [hlast]
  | case4 p rest hrest ih =>
    obtain ⟨q, qs, rfl⟩ := List.exists_cons_of_ne_nil hrest
    rw [List.length_cons, List.length_cons, List.getLast?_cons_cons, Nat.add_right_comm, ih]

/-- In front of further pieces every piece is a line. -/
theorem length_linesOfPieces_append (ps : List String) {qs : List String} (h : qs ≠ []) :
    (linesOfPieces (ps ++ qs)).length = ps.length + (linesOfPieces qs).length := by
  have hleft := length_linesOfPieces (ps ++ qs)
  have hright := length_linesOfPieces qs
  have hlast : (ps ++ qs).getLast? = qs.getLast? := by
    rw [List.getLast?_append, List.getLast?_eq_some_getLast h, Option.some_or]
  rw [hlast, List.length_append] at hleft
  omega

theorem lines_eq_nil_iff {s : String} : lines s = [] ↔ s = "" := by
  refine ⟨fun h => ?_, fun h => h ▸ rfl⟩
  have hlen := length_linesOfPieces (pieces s)
  rw [← lines, h, List.length_nil, Nat.zero_add] at hlen
  split at hlen
  · rename_i hlast
    obtain ⟨p, hp⟩ := List.length_eq_one_iff.1 hlen.symm
    rw [hp, List.getLast?_singleton] at hlast
    rw [← join_pieces s, hp, Option.some.inj hlast]
    rfl
  · exact absurd (List.length_eq_zero_iff.1 hlen.symm) (pieces_ne_nil s)

/-- Lines and pieces differ by one blank at the end at most. -/
theorem eq_linesOfPieces {ps : List String} (h : ∀ p ∈ ps, IsLine p) :
    ps = linesOfPieces ps ∨ ps = linesOfPieces ps ++ [""] := by
  fun_induction linesOfPieces ps with
  | case1 => exact .inl rfl
  | case2 => exact .inr rfl
  | case3 => exact .inl rfl
  | case4 p rest _ ih =>
    rw [dropCarriageReturn_of_isLine (h p List.mem_cons_self)]
    rcases ih fun q hq => h q (List.mem_cons_of_mem p hq) with ih | ih
    · exact .inl (congrArg (p :: ·) ih)
    · exact .inr (congrArg (p :: ·) ih)

theorem mem_pieces_of_mem_lines {t l : String} (h : ∀ p ∈ pieces t, IsLine p) (hl : l ∈ lines t) :
    l ∈ pieces t := by
  rcases eq_linesOfPieces h with heq | heq
  · exact heq ▸ hl
  · exact heq ▸ List.mem_append_left _ hl

theorem filter_lines {t : String} (h : ∀ p ∈ pieces t, IsLine p) :
    (lines t).filter (· ≠ "") = (pieces t).filter (· ≠ "") := by
  rcases eq_linesOfPieces h with heq | heq
  · unfold lines
    rw [← heq]
  · have hfilter := congrArg (List.filter (· ≠ "")) heq
    rw [List.filter_append] at hfilter
    simpa [lines] using hfilter.symm

end FieldMacros.Text
