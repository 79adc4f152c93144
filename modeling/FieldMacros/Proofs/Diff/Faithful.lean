import FieldMacros.Proofs.Diff.Loops

/-!
# Scripts are faithful

`reading keep cs` are the lines of those chunks whose fate `keep` accepts. What
is kept or removed reads as the old text and what is kept or added as the new
one (`Sides.Common.reading_old`, `reading_new`), because the common lines that
the walk finds are a subsequence of both texts (`common_sublist`), also where
it leaves the table early and where a single empty common line is lost.
-/

namespace FieldMacros.Diff

/-! ## Common lines -/

theorem walk_sublist {α : Type} [DecidableEq α] (t : Table) (xs ys : List α) {i j : Nat}
    {found : List α} (hxs : found.Sublist (xs.drop i)) (hys : found.Sublist (ys.drop j)) :
    (walk t xs.toArray ys.toArray i j found).Sublist xs ∧
      (walk t xs.toArray ys.toArray i j found).Sublist ys := by
  fun_induction walk t xs.toArray ys.toArray i j found with
  | case1 j found => exact ⟨hxs, hys.trans (List.drop_sublist j ys)⟩
  | case2 i found => exact ⟨hxs.trans (List.drop_sublist _ xs), hys⟩
  | case3 i j found heq ih =>
    rw [List.getElem?_toArray, List.getElem?_toArray] at heq
    rw [List.getElem?_toArray] at ih ⊢
    refine ih ?_ ?_
    · rw [List.drop_eq_getElem?_toList_append]
      exact hxs.append_left _
    · rw [List.drop_eq_getElem?_toList_append, heq]
      exact hys.append_left _
  | case4 i j found _ _ ih =>
    exact ih hxs (hys.trans (List.drop_sublist_drop_left ys (Nat.le_succ j)))
  | case5 i j found _ _ ih =>
    exact ih (hxs.trans (List.drop_sublist_drop_left xs (Nat.le_succ i))) hys

theorem common_sublist {α : Type} [DecidableEq α] (xs ys : List α) :
    (common xs ys).Sublist xs ∧ (common xs ys).Sublist ys :=
  walk_sublist _ xs ys (List.nil_sublist _) (List.nil_sublist _)

/-! ## Reading a script -/

/-- The lines of the chunks whose fate is accepted. -/
def reading (keep : Change → Bool) (cs : List Chunk) : List String :=
  (cs.filter (keep ·.change)).flatMap fun c => Text.pieces c.text

theorem reading_append (keep : Change → Bool) (cs ds : List Chunk) :
    reading keep (cs ++ ds) = reading keep cs ++ reading keep ds := by
  rw [reading, List.filter_append, List.flatMap_append]
  rfl

theorem reading_cons (keep : Change → Bool) (c : Chunk) (cs : List Chunk) :
    reading keep (c :: cs) =
      (if keep c.change then Text.pieces c.text else []) ++ reading keep cs := by
  unfold reading
  rw [List.filter_cons]
  split
  · rfl
  · rfl

theorem mem_reading {keep : Change → Bool} {cs : List Chunk} {c : Chunk} (hc : c ∈ cs)
    (hkeep : keep c.change = true) {p : String} (hp : p ∈ Text.pieces c.text) :
    p ∈ reading keep cs :=
  List.mem_flatMap.2 ⟨c, List.mem_filter.2 ⟨hc, hkeep⟩, hp⟩

theorem reading_ofPieces {ps : List String} (h : ∀ p ∈ ps, '\n' ∉ p.toList)
    (keep : Change → Bool) (change : Change) :
    reading keep (Chunk.ofPieces change ps) = if keep change then ps else [] := by
  cases ps with
  | nil => exact (ite_self _).symm
  | cons p ps =>
    have hjoin := Text.pieces_join (List.cons_ne_nil p ps) h
    cases hkeep : keep change with
    | false => simp [reading, Chunk.ofPieces, hkeep]
    | true => simp [reading, Chunk.ofPieces, hkeep, Chunk.text, hjoin]

namespace Sides

variable {s : Sides}

/-- The lines of both sides hold no line feed. -/
structure Lines (s : Sides) : Prop where
  old : ∀ p ∈ s.old, '\n' ∉ p.toList
  new : ∀ p ∈ s.new, '\n' ∉ p.toList

theorem Lines.next (h : s.Lines) : s.next.Lines where
  old := fun p hp => h.old p (by
    rw [s.old_eq]
    exact List.mem_append_right _ (List.mem_append_right _ hp))
  new := fun p hp => h.new p (by
    rw [s.new_eq]
    exact List.mem_append_right _ (List.mem_append_right _ hp))

theorem Lines.reading_chunks (h : s.Lines) (keep : Change → Bool) :
    reading keep s.chunks = (if keep .same then s.kept else []) ++
      (if keep .removed then s.gone else []) ++ (if keep .added then s.fresh else []) := by
  have hkept : ∀ p ∈ s.kept, '\n' ∉ p.toList := fun p hp => h.old p (List.mem_of_mem_take hp)
  have hgone : ∀ p ∈ s.gone, '\n' ∉ p.toList := fun p hp => h.old p (by
    rw [s.old_eq]
    exact List.mem_append_right _ (List.mem_append_left _ hp))
  have hfresh : ∀ p ∈ s.fresh, '\n' ∉ p.toList := fun p hp => h.new p (by
    rw [s.new_eq]
    exact List.mem_append_right _ (List.mem_append_left _ hp))
  unfold chunks
  rw [reading_append, reading_append, reading_ofPieces hkept, reading_ofPieces hgone,
    reading_ofPieces hfresh]

/-- A side that every round shortens by the lines it reads off is what the whole script reads as. -/
theorem Common.reading_script (h : s.Common) (hlines : s.Lines) (keep : Change → Bool)
    {side : Sides → List String} (hdone : side ⟨[], [], []⟩ = [])
    (hround : ∀ s : Sides, side s = (if keep .same then s.kept else []) ++
      (if keep .removed then s.gone else []) ++ (if keep .added then s.fresh else []) ++
        side s.next) :
    reading keep s.script = side s := by
  induction s, h using Common.rounds with
  | done =>
    rw [script_done, hdone]
    rfl
  | round s h hleft ih =>
    rw [h.script_eq hleft, reading_append, hlines.reading_chunks, ih hlines.next, hround s]

theorem Common.reading_old (h : s.Common) (hlines : s.Lines) :
    reading (· ≠ .added) s.script = s.old :=
  h.reading_script hlines _ rfl fun s => by simpa using s.old_eq

theorem Common.reading_new (h : s.Common) (hlines : s.Lines) :
    reading (· ≠ .removed) s.script = s.new :=
  h.reading_script hlines _ rfl fun s => by simpa using s.new_eq

/-- Between the lines that it keeps, a side has those that are read off it and no others. -/
theorem Common.perm_reading (h : s.Common) (hlines : s.Lines) {keep : Change → Bool}
    (hsame : keep .same = false) {side : Sides → List String} (hdone : side ⟨[], [], []⟩ = [])
    (hround : ∀ s : Sides, side s = s.kept ++ ((if keep .removed then s.gone else []) ++
      (if keep .added then s.fresh else []) ++ side s.next)) :
    (side s).Perm (s.commons ++ reading keep s.script) ∧
      (reading keep s.script).Sublist (side s) := by
  induction s, h using Common.rounds with
  | done =>
    rw [script_done, hdone]
    exact ⟨.refl _, .refl _⟩
  | round s h hleft ih =>
    obtain ⟨hperm, hsub⟩ := ih hlines.next
    have hread := hlines.reading_chunks keep
    rw [hsame] at hread
    simp only [Bool.false_eq_true, if_false, List.nil_append] at hread
    rw [h.script_eq hleft, reading_append, hread, s.commons_eq, hround s]
    generalize (if keep .removed then s.gone else []) ++ (if keep .added then s.fresh else []) = off
    constructor
    · rw [List.append_assoc]
      refine List.Perm.append_left _ ((hperm.append_left off).trans ?_)
      exact List.perm_append_comm_assoc off s.next.commons _
    · exact (hsub.append_left off).trans (List.sublist_append_right _ _)

theorem Common.perm_removed (h : s.Common) (hlines : s.Lines) :
    s.old.Perm (s.commons ++ reading (· = .removed) s.script) ∧
      (reading (· = .removed) s.script).Sublist s.old :=
  h.perm_reading hlines rfl rfl fun s => by simpa using s.old_eq

theorem Common.perm_added (h : s.Common) (hlines : s.Lines) :
    s.new.Perm (s.commons ++ reading (· = .added) s.script) ∧
      (reading (· = .added) s.script).Sublist s.new :=
  h.perm_reading hlines rfl rfl fun s => by simpa using s.new_eq

end Sides

/-! ## Two texts -/

theorem mem_pieces_of_mem_piecesOrNone {t p : String} (hp : p ∈ piecesOrNone t) :
    p ∈ Text.pieces t := by
  unfold piecesOrNone at hp
  split at hp
  · cases hp
  · exact hp

theorem newline_not_mem_piecesOrNone {t p : String} (hp : p ∈ piecesOrNone t) :
    '\n' ∉ p.toList :=
  Text.not_mem_of_mem_pieces (mem_pieces_of_mem_piecesOrNone hp)

/-- Common lines stay common where their joined text is cut again, an empty one losing its line. -/
theorem piecesOrNone_join_sublist {t : String} {ls : List String}
    (h : ls.Sublist (Text.pieces t)) :
    (piecesOrNone (Text.join ls)).Sublist (piecesOrNone t) := by
  by_cases hjoin : Text.join ls = ""
  · unfold piecesOrNone
    rw [if_pos hjoin]
    exact List.nil_sublist _
  · have hne : ls ≠ [] := by
      rintro rfl
      exact hjoin rfl
    have ht : t ≠ "" := by
      rintro rfl
      have hblank : ls = [""] := h.eq_of_length_le (List.length_pos_iff.2 hne)
      exact hjoin (hblank ▸ rfl)
    rw [piecesOrNone, if_neg hjoin, piecesOrNone, if_neg ht,
      Text.pieces_join hne fun p hp => Text.not_mem_of_mem_pieces (h.subset hp)]
    exact h

def sides (existing generated : String) : Sides where
  old := piecesOrNone existing
  new := piecesOrNone generated
  commons := piecesOrNone (Text.join (common (Text.pieces existing) (Text.pieces generated)))

theorem script_sides (existing generated : String) :
    (sides existing generated).script = script existing generated := rfl

theorem common_sides (existing generated : String) : (sides existing generated).Common where
  old := piecesOrNone_join_sublist (common_sublist _ _).1
  new := piecesOrNone_join_sublist (common_sublist _ _).2

theorem lines_sides (existing generated : String) : (sides existing generated).Lines where
  old := fun _ hp => newline_not_mem_piecesOrNone hp
  new := fun _ hp => newline_not_mem_piecesOrNone hp

theorem reading_existing (existing generated : String) :
    reading (· ≠ .added) (script existing generated) = piecesOrNone existing :=
  (common_sides existing generated).reading_old (lines_sides existing generated)

theorem reading_generated (existing generated : String) :
    reading (· ≠ .removed) (script existing generated) = piecesOrNone generated :=
  (common_sides existing generated).reading_new (lines_sides existing generated)

/-- What a chunk holds is from one of the texts. -/
theorem mem_pieces_of_mem_script {existing generated : String} {c : Chunk}
    (hc : c ∈ script existing generated) {p : String} (hp : p ∈ Text.pieces c.text) :
    p ∈ Text.pieces existing ∨ p ∈ Text.pieces generated := by
  by_cases hadded : c.change = .added
  · have hmem : p ∈ reading (· ≠ .removed) (script existing generated) :=
      mem_reading hc (by simp [hadded]) hp
    rw [reading_generated] at hmem
    exact .inr (mem_pieces_of_mem_piecesOrNone hmem)
  · have hmem : p ∈ reading (· ≠ .added) (script existing generated) :=
      mem_reading hc (by simp [hadded]) hp
    rw [reading_existing] at hmem
    exact .inl (mem_pieces_of_mem_piecesOrNone hmem)

/-- For any two texts the backtrace ends, and so does the merge along the lines that it has found.
The script is what the merge ends with; its kept and removed lines are those of the existing text,
its kept and added ones those of the generated text. -/
theorem faithful_script (existing generated : String) :
    ∃ stop : Cursor String,
      Runs (backtrack (table (Text.pieces existing) (Text.pieces generated)) (Text.pieces existing)
          (Text.pieces generated))
        ⟨((Text.pieces existing).length : Int) - 1, ((Text.pieces generated).length : Int) - 1, []⟩
        stop ∧
      Runs round
        (⟨piecesOrNone existing, piecesOrNone generated, piecesOrNone (Text.join stop.found)⟩, [])
        (⟨[], [], []⟩, script existing generated) ∧
      reading (· ≠ .added) (script existing generated) = piecesOrNone existing ∧
      reading (· ≠ .removed) (script existing generated) = piecesOrNone generated := by
  obtain ⟨stop, hback, hfound⟩ := runs_backtrack
    (table (Text.pieces existing) (Text.pieces generated)) (Text.pieces existing)
    (Text.pieces generated) (Text.pieces existing).length (Text.pieces generated).length []
    (Nat.le_refl _)
  refine ⟨stop, hback, ?_, reading_existing existing generated,
    reading_generated existing generated⟩
  have hmerge := (common_sides existing generated).runs_round []
  rw [List.nil_append, script_sides, sides] at hmerge
  rwa [hfound]

end FieldMacros.Diff
