import FieldMacros.Proofs.Diff.Faithful
import FieldMacros.Proofs.Diff.Frame
import FieldMacros.Proofs.Text.Pieces

/-!
# Equal texts and a text with one more line

What the walk finds and what the merge reads off where one list is the
beginning of the other: all of it (`common_self`, `common_concat`), and then a
chunk for the beginning and one for what lies behind it (`Sides.script_append`).
So a script changes something if and only if the texts are different
(`exists_changed_iff`), a further line feed at the end of a text is an empty
line to be removed (`script_newline`), and where there is no text yet, all of the
other one is to be added (`script_empty`).
-/

namespace FieldMacros.Diff

/-! ## The walk -/

section Walk

variable {α : Type} [DecidableEq α] {xs ys us : List α} {x : α}

/-- What lies in front of the first cell of the second row is the last cell of the first one, which
holds one as well. -/
theorem walkFrom_second_row {u : α} (hxs : [u, x] <+: xs) (hys : [u] <+: ys) (hne : u ≠ x)
    (found : List α) : walkFrom xs ys [u, x] [u] found = walkFrom xs ys [u] [u] found := by
  have hrow : [u] <+: xs := (List.prefix_append [u] [x]).trans hxs
  have hwidth : ys.length = (ys.length - 1) + 1 := by
    have := hys.length_le
    rw [List.length_singleton] at this
    omega
  have hfirst := longest_of_prefix hrow hys (i := 0) (j := 0) rfl rfl
  have hlast := longest_of_prefix hrow (List.prefix_refl ys) (i := 0) rfl hwidth
  have hone : 1 ≤ (table xs ys).cell 0 0 := hfirst.bound [u] (.refl _) (.refl _)
  obtain ⟨zs, hzs, -, hlen⟩ := hlast.attained
  have hle : zs.length ≤ 1 := hzs.length_le
  have hxs' : [u] ++ [x] <+: xs := hxs
  have hys' : [] ++ [u] <+: ys := hys
  have hx : xs[1]? = some x := getElem?_of_prefix hxs'
  have hy : ys[0]? = some u := getElem?_of_prefix hys'
  have hdiff : ¬some x = some u := fun h => hne (Option.some.inj h).symm
  have hup : ¬(1 = 0 ∨ (table xs ys).cell (1 - 1) 0 <
      (table xs ys).preceding ys.toArray.size 1 0) := by
    simp only [Table.preceding, List.size_toArray, Nat.sub_self]
    omega
  simp only [walkFrom, List.length_cons, List.length_nil, Nat.zero_add, Nat.reduceAdd]
  rw [walk, List.getElem?_toArray, List.getElem?_toArray, hx, hy, if_neg hdiff, if_neg hup]

/-- The walk keeps the shorter list whatever the further item is. -/
theorem walkFrom_concat (hxs : us ++ [x] <+: xs) (hys : us <+: ys) (found : List α) :
    walkFrom xs ys (us ++ [x]) us found = us ++ found := by
  induction us using List.reverseRecOn generalizing x found with
  | nil =>
    simp only [walkFrom, List.nil_append, List.length_cons, List.length_nil]
    rw [walk]
  | append_singleton us u ih =>
    have hxs' := (List.prefix_append _ [x]).trans hxs
    have hys' := (List.prefix_append us [u]).trans hys
    -- An item like the last one of the shorter list is taken in its place, and the question is the
    -- same for what lies before.
    by_cases heq : u = x
    · subst heq
      rw [walkFrom_same hxs hys, ih hxs' hys', List.append_assoc, List.singleton_append]
    · have hstep : walkFrom xs ys (us ++ [u] ++ [x]) (us ++ [u]) found =
          walkFrom xs ys (us ++ [u]) (us ++ [u]) found := by
        by_cases hus : us = []
        · subst hus
          exact walkFrom_second_row hxs hys heq found
        · refine walkFrom_up hxs hys (Ne.symm heq) (by simp) hus (.refl _) (.refl _) ?_ found
          intro ws _ hws
          exact (hws.trans (List.sublist_append_left us [u])).length_le
      rw [hstep, Frame.walkFrom_self hxs' hys]

theorem common_self (xs : List α) : common xs xs = xs := by
  rw [common_eq_walkFrom, Frame.walkFrom_self List.prefix_rfl List.prefix_rfl, List.append_nil]

theorem common_concat (xs : List α) (x : α) : common (xs ++ [x]) xs = xs := by
  rw [common_eq_walkFrom, walkFrom_concat List.prefix_rfl List.prefix_rfl, List.append_nil]

end Walk

/-! ## The merge -/

theorem agreement_append (zs xs ys : List String) :
    agreement (zs ++ xs) (zs ++ ys) zs = zs.length := by
  induction zs with
  | nil => cases xs <;> cases ys <;> rfl
  | cons z zs ih =>
    rw [List.cons_append, List.cons_append, agreement, if_pos ⟨rfl, rfl⟩, ih, List.length_cons]

/-- Without any further common lines everything is left. -/
theorem span_beforeNext_nil (ps : List String) :
    ps.takeWhile (beforeNext []) = ps ∧ ps.dropWhile (beforeNext []) = [] := by
  induction ps with
  | nil => exact ⟨rfl, rfl⟩
  | cons p ps ih => exact ⟨congrArg (p :: ·) ih.1, ih.2⟩

/-- Sides that have all in common but what lies behind the common lines take one round. -/
theorem Sides.script_append (zs xs ys : List String) :
    (⟨zs ++ xs, zs ++ ys, zs⟩ : Sides).script =
      Chunk.ofPieces .same zs ++ Chunk.ofPieces .removed xs ++ Chunk.ofPieces .added ys := by
  have hcommon : (⟨zs ++ xs, zs ++ ys, zs⟩ : Sides).Common :=
    ⟨List.sublist_append_left zs xs, List.sublist_append_left zs ys⟩
  by_cases hdone : (⟨zs ++ xs, zs ++ ys, zs⟩ : Sides).Done
  · obtain ⟨hold, hnew⟩ := hdone
    obtain ⟨rfl, rfl⟩ := List.append_eq_nil_iff.1 hold
    obtain ⟨-, rfl⟩ := List.append_eq_nil_iff.1 hnew
    exact script_done
  · have hagreed : (⟨zs ++ xs, zs ++ ys, zs⟩ : Sides).agreed = zs.length :=
      agreement_append zs xs ys
    have hnext : (⟨zs ++ xs, zs ++ ys, zs⟩ : Sides).next = ⟨[], [], []⟩ := by
      simp only [next, further, hagreed, List.drop_length, (span_beforeNext_nil _).2]
    rw [hcommon.script_eq hdone, hnext, script_done, List.append_nil]
    simp only [chunks, kept, gone, fresh, further, hagreed, List.drop_length, List.drop_left,
      List.take_left, (span_beforeNext_nil _).1]

theorem piecesOrNone_of_ne {s : String} (h : s ≠ "") : piecesOrNone s = Text.pieces s :=
  if_neg h

/-- A text against itself has kept lines only. -/
theorem script_self (s : String) : script s s = Chunk.ofPieces .same (piecesOrNone s) := by
  have hsides : sides s s = ⟨piecesOrNone s ++ [], piecesOrNone s ++ [], piecesOrNone s⟩ := by
    rw [sides, common_self, Text.join_pieces, List.append_nil]
  rw [← script_sides, hsides, Sides.script_append]
  exact (List.append_nil _).trans (List.append_nil _)

theorem change_of_mem_ofPieces {change : Change} {ps : List String} {c : Chunk}
    (h : c ∈ Chunk.ofPieces change ps) : c.change = change := by
  cases ps with
  | nil => cases h
  | cons p ps => rw [List.mem_singleton.1 h]

theorem join_piecesOrNone (s : String) : Text.join (piecesOrNone s) = s := by
  unfold piecesOrNone
  split
  · rename_i hs
    exact hs.symm
  · exact Text.join_pieces s

theorem reading_eq_of_same {keep keep' : Change → Bool} (hkeep : keep .same = keep' .same)
    {cs : List Chunk} (h : ∀ c ∈ cs, c.change = .same) : reading keep cs = reading keep' cs := by
  unfold reading
  congr 1
  refine List.filter_congr fun c hc => ?_
  rw [h c hc, hkeep]

/-- A script changes something if and only if the texts are different. -/
theorem exists_changed_iff {existing generated : String} :
    (∃ c ∈ script existing generated, c.change ≠ .same) ↔ existing ≠ generated := by
  constructor
  · rintro ⟨c, hc, hchange⟩ rfl
    rw [script_self] at hc
    exact hchange (change_of_mem_ofPieces hc)
  · intro hne
    by_contra hnone
    have hsame : ∀ c ∈ script existing generated, c.change = .same := by
      intro c hc
      by_contra hchange
      exact hnone ⟨c, hc, hchange⟩
    have hread : piecesOrNone existing = piecesOrNone generated := by
      rw [← reading_existing existing generated, ← reading_generated existing generated]
      exact reading_eq_of_same (by decide) hsame
    have hjoin := congrArg Text.join hread
    rw [join_piecesOrNone, join_piecesOrNone] at hjoin
    exact hne hjoin

/-- A further line feed is an empty line to be removed. -/
theorem script_newline {s : String} (h : s ≠ "") :
    script (s ++ "\n") s = [⟨.same, Text.pieces s⟩, ⟨.removed, [""]⟩] := by
  have hne : s ++ "\n" ≠ "" := by
    intro hempty
    have := congrArg String.toList hempty
    simp at this
  have hsides : sides (s ++ "\n") s =
      ⟨Text.pieces s ++ [""], Text.pieces s ++ [], Text.pieces s⟩ := by
    rw [sides, Text.pieces_newline, common_concat, Text.join_pieces, piecesOrNone_of_ne h,
      piecesOrNone_of_ne hne, Text.pieces_newline, List.append_nil]
  obtain ⟨p, ps, hps⟩ := List.exists_cons_of_ne_nil (Text.pieces_ne_nil s)
  rw [← script_sides, hsides, Sides.script_append, hps]
  rfl

/-- Against the empty text everything is added: the empty line that both have is not kept, since it
is not among the lines of the empty text any more. -/
theorem script_empty {s : String} (h : s ≠ "") : script "" s = [⟨.added, Text.pieces s⟩] := by
  have hold : (sides "" s).old = [] := rfl
  have hcommons : (sides "" s).commons = [] := List.sublist_nil.1 (hold ▸ (common_sides "" s).old)
  have hsides : sides "" s = ⟨[] ++ [], [] ++ Text.pieces s, []⟩ := by
    calc sides "" s
      _ = ⟨(sides "" s).old, (sides "" s).new, (sides "" s).commons⟩ := rfl
      _ = ⟨[], Text.pieces s, []⟩ := by rw [hold, hcommons, sides, piecesOrNone_of_ne h]
  obtain ⟨p, ps, hps⟩ := List.exists_cons_of_ne_nil (Text.pieces_ne_nil s)
  rw [← script_sides, hsides, Sides.script_append, hps]
  rfl

end FieldMacros.Diff
