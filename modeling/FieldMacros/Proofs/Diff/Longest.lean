import FieldMacros.Diff.Table
import Mathlib.Data.List.Induction

/-!
# The table and the walk

A cell of the table is the length of a longest common subsequence of the items
up to it (`longest_cell`). Which way a walk goes is therefore decided by one
common subsequence on one side and a bound for all of them on the other:
`walkFrom_up` and `walkFrom_left` are the steps in that form, and
`walkFrom_suffix` the steps over equal items.
-/

namespace FieldMacros.Diff

variable {α : Type}

/-! ## Common subsequences -/

/-- The greatest length of a common subsequence. -/
structure Longest (xs ys : List α) (n : Nat) : Prop where
  attained : ∃ zs : List α, zs.Sublist xs ∧ zs.Sublist ys ∧ zs.length = n
  bound : ∀ zs : List α, zs.Sublist xs → zs.Sublist ys → zs.length ≤ n

theorem longest_nil_left (ys : List α) : Longest [] ys 0 where
  attained := ⟨[], .slnil, List.nil_sublist ys, rfl⟩
  bound := fun zs hzs _ => by rw [List.sublist_nil.1 hzs]; exact Nat.le_refl 0

theorem longest_nil_right (xs : List α) : Longest xs [] 0 where
  attained := ⟨[], List.nil_sublist xs, .slnil, rfl⟩
  bound := fun zs _ hzs => by rw [List.sublist_nil.1 hzs]; exact Nat.le_refl 0

theorem sublist_concat {zs xs : List α} {x : α} (h : zs.Sublist (xs ++ [x])) :
    zs.Sublist xs ∨ ∃ ws, zs = ws ++ [x] ∧ ws.Sublist xs := by
  obtain ⟨ws, us, rfl, hws, hus⟩ := List.sublist_append_iff.1 h
  rcases List.sublist_cons_iff.1 hus with hus | ⟨vs, rfl, hvs⟩
  · rw [List.sublist_nil.1 hus, List.append_nil]
    exact .inl hws
  · rw [List.sublist_nil.1 hvs]
    exact .inr ⟨ws, rfl, hws⟩

theorem dropLast_sublist_of_concat {zs xs : List α} {x : α} (h : zs.Sublist (xs ++ [x])) :
    zs.dropLast.Sublist xs := by
  rcases sublist_concat h with h | ⟨ws, rfl, h⟩
  · exact (List.dropLast_sublist zs).trans h
  · rwa [List.dropLast_concat]

theorem Longest.concat {xs ys : List α} {n : Nat} (h : Longest xs ys n) (x : α) :
    Longest (xs ++ [x]) (ys ++ [x]) (n + 1) where
  attained := by
    obtain ⟨zs, hxs, hys, rfl⟩ := h.attained
    exact ⟨zs ++ [x], hxs.append (.refl _), hys.append (.refl _), by simp⟩
  bound := by
    intro zs hxs hys
    have := h.bound _ (dropLast_sublist_of_concat hxs) (dropLast_sublist_of_concat hys)
    rw [List.length_dropLast] at this
    omega

theorem longest_max {xs ys : List α} {x y : α} (hne : x ≠ y) {m n : Nat}
    (hleft : Longest (xs ++ [x]) ys m) (hup : Longest xs (ys ++ [y]) n) :
    Longest (xs ++ [x]) (ys ++ [y]) (max m n) where
  attained := by
    rcases Nat.le_total m n with hle | hle
    · obtain ⟨zs, hxs, hys, hlen⟩ := hup.attained
      exact ⟨zs, hxs.trans (List.sublist_append_left _ _), hys, by omega⟩
    · obtain ⟨zs, hxs, hys, hlen⟩ := hleft.attained
      exact ⟨zs, hxs, hys.trans (List.sublist_append_left _ _), by omega⟩
  bound := by
    intro zs hxs hys
    rcases sublist_concat hxs with h | ⟨ws, rfl, -⟩
    · exact Nat.le_trans (hup.bound zs h hys) (Nat.le_max_right m n)
    · rcases sublist_concat hys with h | ⟨vs, heq, -⟩
      · exact Nat.le_trans (hleft.bound _ hxs h) (Nat.le_max_left m n)
      · exact absurd (List.cons.inj (List.append_inj_right' heq rfl)).1 hne

/-! ## The table -/

/-- The cells of a row for the given items, those of `done` lying before them. -/
inductive Cells (xs : List α) : List α → List α → List Nat → Prop where
  | nil {done : List α} : Cells xs done [] []
  | cons {done ys : List α} {y : α} {n : Nat} {ns : List Nat} : Longest xs (done ++ [y]) n →
      Cells xs (done ++ [y]) ys ns → Cells xs done (y :: ys) (n :: ns)

theorem cells_zero (done ys : List α) : Cells [] done ys (List.replicate ys.length 0) := by
  induction ys generalizing done with
  | nil => exact .nil
  | cons y ys ih => exact .cons (longest_nil_left _) (ih _)

theorem Cells.rowFrom [DecidableEq α] {xs done ys : List α} {ups : List Nat}
    (h : Cells xs done ys ups) {x : α} {left corner : Nat} (hleft : Longest (xs ++ [x]) done left)
    (hcorner : Longest xs done corner) :
    Cells (xs ++ [x]) done ys (rowFrom x ys ups left corner) := by
  induction h generalizing left corner with
  | nil => exact .nil
  | @cons done ys y up ups hup _ ih =>
    have hcell : Longest (xs ++ [x]) (done ++ [y]) (if x = y then corner + 1 else max left up) := by
      split
      · rename_i heq
        exact heq ▸ hcorner.concat x
      · rename_i hne
        exact longest_max hne hleft hup
    exact .cons hcell (ih hcell hup)

theorem Cells.getD {xs done ys : List α} {ns : List Nat} (h : Cells xs done ys ns) {j : Nat}
    (hj : j < ys.length) : Longest xs (done ++ ys.take (j + 1)) (ns.getD j 0) := by
  induction h generalizing j with
  | nil => cases hj
  | @cons done ys y n ns hn _ ih =>
    cases j with
    | zero => exact hn
    | succ j =>
      have hlt : j < ys.length := Nat.lt_of_succ_lt_succ hj
      have := ih hlt
      rwa [List.append_assoc] at this

theorem Cells.rowsBelow [DecidableEq α] {xs ys : List α} {above : List Nat}
    (h : Cells xs [] ys above) {zs : List α} {i : Nat} (hi : i < zs.length) :
    ∃ row : List Nat, (rowsBelow ys above zs)[i]? = some row.toArray ∧
      Cells (xs ++ zs.take (i + 1)) [] ys row := by
  induction zs generalizing xs above i with
  | nil => cases hi
  | cons z zs ih =>
    have hrow := h.rowFrom (x := z) (longest_nil_right _) (longest_nil_right _)
    cases i with
    | zero => exact ⟨_, rfl, hrow⟩
    | succ i =>
      obtain ⟨row, hget, hcells⟩ := ih hrow (Nat.lt_of_succ_lt_succ hi)
      rw [List.append_assoc] at hcells
      exact ⟨row, hget, hcells⟩

/-- A cell holds the length of a longest common subsequence of the items up to it. -/
theorem longest_cell [DecidableEq α] {xs ys : List α} {i j : Nat} (hi : i < xs.length)
    (hj : j < ys.length) :
    Longest (xs.take (i + 1)) (ys.take (j + 1)) ((table xs ys).cell i j) := by
  obtain ⟨row, hget, hcells⟩ := (cells_zero [] ys).rowsBelow hi
  have hrow : (table xs ys).getD i #[] = row.toArray := by
    unfold table
    rw [Array.getD_eq_getD_getElem?, List.getElem?_toArray, hget]
    rfl
  have hcell : (table xs ys).cell i j = row.getD j 0 := by
    unfold Table.cell
    rw [hrow, Array.getD_eq_getD_getElem?, List.getElem?_toArray,
      List.getD_eq_getElem?_getD]
  rw [hcell]
  exact hcells.getD hj

/-! ## The walk -/

theorem getElem?_of_prefix {us xs : List α} {x : α} (h : us ++ [x] <+: xs) :
    xs[us.length]? = some x := by
  obtain ⟨zs, rfl⟩ := h
  simp

theorem exists_length_eq {zs : List α} (h : zs ≠ []) : ∃ n, zs.length = n + 1 :=
  Nat.exists_eq_add_one_of_ne_zero (mt List.length_eq_zero_iff.1 h)

section Walk

variable [DecidableEq α] {xs ys us vs : List α}

def walkFrom (xs ys us vs found : List α) : List α :=
  walk (table xs ys) xs.toArray ys.toArray us.length vs.length found

theorem common_eq_walkFrom (xs ys : List α) : common xs ys = walkFrom xs ys xs ys [] := rfl

theorem longest_of_prefix (hus : us <+: xs) (hvs : vs <+: ys) {i j : Nat}
    (hi : us.length = i + 1) (hj : vs.length = j + 1) :
    Longest us vs ((table xs ys).cell i j) := by
  have hcell := longest_cell (i := i) (j := j) (hi ▸ hus.length_le) (hj ▸ hvs.length_le)
  rwa [← hi, ← hj, ← List.prefix_iff_eq_take.1 hus, ← List.prefix_iff_eq_take.1 hvs] at hcell

/-- Equal last items are common. -/
theorem walkFrom_same {x : α} (hus : us ++ [x] <+: xs) (hvs : vs ++ [x] <+: ys) (found : List α) :
    walkFrom xs ys (us ++ [x]) (vs ++ [x]) found = walkFrom xs ys us vs (x :: found) := by
  have hx := getElem?_of_prefix hus
  have hy := getElem?_of_prefix hvs
  simp only [walkFrom, List.length_append, List.length_singleton]
  rw [walk, List.getElem?_toArray, List.getElem?_toArray, hx, hy, if_pos rfl]
  rfl

theorem walkFrom_suffix (zs : List α) (hus : us ++ zs <+: xs) (hvs : vs ++ zs <+: ys)
    (found : List α) :
    walkFrom xs ys (us ++ zs) (vs ++ zs) found = walkFrom xs ys us vs (zs ++ found) := by
  induction zs using List.reverseRecOn generalizing found with
  | nil => simp only [List.append_nil, List.nil_append]
  | append_singleton zs z ih =>
    rw [← List.append_assoc] at hus hvs ⊢
    rw [← List.append_assoc, walkFrom_same hus hvs,
      ih ((List.prefix_append _ _).trans hus) ((List.prefix_append _ _).trans hvs)]
    simp only [List.append_assoc, List.singleton_append]

/-- In front of different items the walk compares the longest common subsequences that do without
the one and without the other. -/
theorem walkFrom_of_ne {x y : α} (hus : us ++ [x] <+: xs) (hvs : vs ++ [y] <+: ys) (hne : x ≠ y)
    (hus' : us ≠ []) (hvs' : vs ≠ []) (found : List α) :
    ∃ up left, Longest us (vs ++ [y]) up ∧ Longest (us ++ [x]) vs left ∧
      walkFrom xs ys (us ++ [x]) (vs ++ [y]) found =
        if up < left then walkFrom xs ys (us ++ [x]) vs found
        else walkFrom xs ys us (vs ++ [y]) found := by
  obtain ⟨i, hi⟩ := exists_length_eq hus'
  obtain ⟨j, hj⟩ := exists_length_eq hvs'
  have hi' : (us ++ [x]).length = i + 1 + 1 := by rw [List.length_append, hi]; rfl
  have hj' : (vs ++ [y]).length = j + 1 + 1 := by rw [List.length_append, hj]; rfl
  have hup := longest_of_prefix ((List.prefix_append us [x]).trans hus) hvs hi hj'
  have hleft := longest_of_prefix hus ((List.prefix_append vs [y]).trans hvs) hi' hj
  refine ⟨_, _, hup, hleft, ?_⟩
  have hx := getElem?_of_prefix hus
  have hy := getElem?_of_prefix hvs
  have hdiff : ¬some x = some y := fun h => hne (Option.some.inj h)
  rw [hi] at hx
  rw [hj] at hy
  -- The first row and the first column lie behind, so no cell is compared across a row's end.
  simp only [walkFrom, hi, hj, hi', hj']
  rw [walk, List.getElem?_toArray, List.getElem?_toArray, hx, hy, if_neg hdiff]
  simp only [Nat.add_one_ne_zero, false_or, Nat.add_sub_cancel, Table.preceding]

/-- The walk gives up the last item of the first list if some common subsequence without it is as
long as any without the other. -/
theorem walkFrom_up {x y : α} (hus : us ++ [x] <+: xs) (hvs : vs ++ [y] <+: ys) (hne : x ≠ y)
    (hus' : us ≠ []) (hvs' : vs ≠ []) {zs : List α} (hzs : zs.Sublist us)
    (hzs' : zs.Sublist (vs ++ [y]))
    (hbound : ∀ ws : List α, ws.Sublist (us ++ [x]) → ws.Sublist vs → ws.length ≤ zs.length)
    (found : List α) :
    walkFrom xs ys (us ++ [x]) (vs ++ [y]) found = walkFrom xs ys us (vs ++ [y]) found := by
  obtain ⟨up, left, hup, hleft, hwalk⟩ := walkFrom_of_ne hus hvs hne hus' hvs' found
  have hge := hup.bound zs hzs hzs'
  obtain ⟨ws, hws, hws', hlen⟩ := hleft.attained
  have hle := hbound ws hws hws'
  rw [hwalk, if_neg (by omega)]

/-- The walk gives up the last item of the second list if some common subsequence without it is
longer than any without the other. -/
theorem walkFrom_left {x y : α} (hus : us ++ [x] <+: xs) (hvs : vs ++ [y] <+: ys) (hne : x ≠ y)
    (hus' : us ≠ []) (hvs' : vs ≠ []) {zs : List α} (hzs : zs.Sublist (us ++ [x]))
    (hzs' : zs.Sublist vs)
    (hbound : ∀ ws : List α, ws.Sublist us → ws.Sublist (vs ++ [y]) → ws.length < zs.length)
    (found : List α) :
    walkFrom xs ys (us ++ [x]) (vs ++ [y]) found = walkFrom xs ys (us ++ [x]) vs found := by
  obtain ⟨up, left, hup, hleft, hwalk⟩ := walkFrom_of_ne hus hvs hne hus' hvs' found
  have hge := hleft.bound zs hzs hzs'
  obtain ⟨ws, hws, hws', hlen⟩ := hup.attained
  have hlt := hbound ws hws hws'
  rw [hwalk, if_pos (by omega)]

end Walk

end FieldMacros.Diff
