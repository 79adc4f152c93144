import FieldMacros.Diff.Script

/-!
# The two loops of a comparison

Nothing in the text of a loop says that it ends: `Runs step s t` says that the
loop which `step` is one round of, started in `s`, ends in `t`. `backtrack`
walks back through the table as it is stored, row after row in one list, with
indices that can fall below zero, and ends with what `walk` finds
(`runs_backtrack`). `round` reads chunks off both sides; it gets nowhere unless
the common lines are a subsequence of both, which every round keeps, and ends
with the chunks of `merge` (`Sides.Common.runs_round`).
-/

namespace FieldMacros.Diff

/-- A loop that ends, from the state it starts in to the state it ends in. -/
inductive Runs {σ : Type} (step : σ → Option σ) : σ → σ → Prop where
  | done {s : σ} : step s = none → Runs step s s
  | next {s t u : σ} : step s = some t → Runs step t u → Runs step s u

/-! ## The backtrace -/

variable {α : Type}

/-- Where a backtrace stands and the items it has found so far. -/
structure Cursor (α : Type) where
  row : Int
  column : Int
  found : List α

/-- The cell at a place of the table as it is stored. -/
def Table.stored (t : Table) (width : Nat) (place : Int) : Nat :=
  t.cell (place.toNat / width) (place.toNat % width)

/-- One round of the backtrace. -/
def backtrack [DecidableEq α] (t : Table) (xs ys : List α) (s : Cursor α) : Option (Cursor α) :=
  if s.row < 0 ∨ s.column < 0 then none
  else if xs[s.row.toNat]? = ys[s.column.toNat]? then
    some ⟨s.row - 1, s.column - 1, xs[s.row.toNat]?.toList ++ s.found⟩
  else if s.row = 0 ∧ s.column = 0 then none
  else if s.row = 0 ∨ t.stored ys.length ((s.row - 1) * ys.length + s.column) <
      t.stored ys.length (s.row * ys.length + s.column - 1) then
    some { s with column := s.column - 1 }
  else some { s with row := s.row - 1 }

theorem Table.stored_eq (t : Table) {width j : Nat} (h : j < width) (i : Nat) :
    t.stored width ((i : Int) * width + j) = t.cell i j := by
  have hplace : ((i : Int) * width + j).toNat = j + width * i := by
    rw [← Int.natCast_mul, ← Int.natCast_add, Int.toNat_natCast, Nat.mul_comm, Nat.add_comm]
  unfold Table.stored
  rw [hplace, Nat.add_mul_div_left _ _ (by omega), Nat.div_eq_of_lt h,
    Nat.add_mul_mod_self_left, Nat.mod_eq_of_lt h, Nat.zero_add]

/-- In front of the first cell of a row lies the last cell of the row above. -/
theorem Table.stored_preceding (t : Table) {width i j : Nat} (hi : 0 < i) (h : j < width) :
    t.stored width ((i : Int) * width + j - 1) = t.preceding width i j := by
  cases j with
  | zero =>
    obtain ⟨i, rfl⟩ := Nat.exists_eq_succ_of_ne_zero (Nat.ne_of_gt hi)
    have hplace : ((i + 1 : Nat) : Int) * width + (0 : Nat) - 1 = (i : Int) * width + (width - 1 : Nat) := by
      rw [Int.natCast_add, Int.add_mul]
      omega
    rw [hplace, Table.stored_eq t (by omega)]
    rfl
  | succ j =>
    have hplace : (i : Int) * width + (j + 1 : Nat) - 1 = (i : Int) * width + j := by omega
    rw [hplace, Table.stored_eq t (by omega)]
    rfl

/-- A round inside the table compares the same two cells as the walk. -/
theorem backtrack_inside [DecidableEq α] (t : Table) (xs ys : List α) {i j : Nat}
    (hj : j < ys.length) (found : List α) :
    backtrack t xs ys ⟨i, j, found⟩ =
      if xs[i]? = ys[j]? then some ⟨(i : Int) - 1, (j : Int) - 1, xs[i]?.toList ++ found⟩
      else if i = 0 ∧ j = 0 then none
      else if i = 0 ∨ t.cell (i - 1) j < t.preceding ys.length i j then
        some ⟨i, (j : Int) - 1, found⟩
      else some ⟨(i : Int) - 1, j, found⟩ := by
  have hinside : ¬((i : Int) < 0 ∨ (j : Int) < 0) := by omega
  simp only [backtrack, if_neg hinside, Int.toNat_natCast, Int.natCast_eq_zero]
  cases i with
  | zero => simp only [true_or, true_and, if_true]
  | succ i =>
    have hup : ((i + 1 : Nat) : Int) - 1 = (i : Int) := by omega
    rw [hup, Table.stored_eq t hj, Table.stored_preceding t (Nat.succ_pos i) hj]
    rfl

/-- The backtrace ends, and has found what the walk finds. -/
theorem runs_backtrack [DecidableEq α] (t : Table) (xs ys : List α) (i j : Nat) (found : List α)
    (hj : j ≤ ys.length) :
    ∃ stop, Runs (backtrack t xs ys) ⟨(i : Int) - 1, (j : Int) - 1, found⟩ stop ∧
      stop.found = walk t xs.toArray ys.toArray i j found := by
  fun_induction walk t xs.toArray ys.toArray i j found with
  | case1 j found => exact ⟨_, .done (by simp [backtrack]), rfl⟩
  | case2 i found => exact ⟨_, .done (by simp [backtrack]), rfl⟩
  | case3 i j found heq ih =>
    obtain ⟨stop, hrun, hstop⟩ := ih (by omega)
    have hround := backtrack_inside t xs ys hj found (i := i)
    rw [if_pos (by simpa using heq)] at hround
    rw [Int.natCast_add_one, Int.natCast_add_one, Int.add_sub_cancel, Int.add_sub_cancel]
    exact ⟨stop, .next hround (by simpa using hrun), hstop⟩
  | case4 i j found hne hleft ih =>
    have hround := backtrack_inside t xs ys hj found (i := i)
    rw [if_neg (by simpa using hne)] at hround
    rw [Int.natCast_add_one, Int.natCast_add_one, Int.add_sub_cancel, Int.add_sub_cancel]
    by_cases hcorner : i = 0 ∧ j = 0
    · obtain ⟨rfl, rfl⟩ := hcorner
      rw [if_pos ⟨rfl, rfl⟩] at hround
      exact ⟨_, .done hround, by rw [walk]⟩
    · obtain ⟨stop, hrun, hstop⟩ := ih (by omega)
      rw [if_neg hcorner, if_pos (by simpa using hleft)] at hround
      rw [Int.natCast_add_one, Int.add_sub_cancel] at hrun
      exact ⟨stop, .next hround hrun, hstop⟩
  | case5 i j found hne hup ih =>
    obtain ⟨stop, hrun, hstop⟩ := ih hj
    have hround := backtrack_inside t xs ys hj found (i := i)
    have hcorner : ¬(i = 0 ∧ j = 0) := fun h => hup (.inl h.1)
    rw [if_neg (by simpa using hne), if_neg hcorner, if_neg (by simpa using hup)] at hround
    rw [Int.natCast_add_one, Int.natCast_add_one, Int.add_sub_cancel, Int.add_sub_cancel]
    rw [Int.natCast_add_one, Int.add_sub_cancel] at hrun
    exact ⟨stop, .next hround hrun, hstop⟩

/-! ## The merge -/

/-- What is left of two texts and of their common lines. -/
structure Sides where
  old : List String
  new : List String
  commons : List String

theorem take_agreement (xs ys zs : List String) :
    xs.take (agreement xs ys zs) = zs.take (agreement xs ys zs) ∧
      ys.take (agreement xs ys zs) = zs.take (agreement xs ys zs) := by
  fun_induction agreement xs ys zs with
  | case1 x xs y ys z zs heq ih =>
    obtain ⟨rfl, rfl⟩ := heq
    exact ⟨congrArg (y :: ·) ih.1, congrArg (y :: ·) ih.2⟩
  | case2 => exact ⟨rfl, rfl⟩
  | case3 => exact ⟨rfl, rfl⟩

theorem agreement_le (xs ys zs : List String) : agreement xs ys zs ≤ xs.length := by
  fun_induction agreement xs ys zs with
  | case1 _ _ _ _ _ _ _ ih =>
    rw [List.length_cons]
    omega
  | case2 => exact Nat.zero_le _
  | case3 => exact Nat.zero_le _

/-- Lines that are all different from the first common one are no part of the common ones. -/
theorem sublist_dropWhile {zs xs : List String} (h : zs.Sublist xs) :
    zs.Sublist (xs.dropWhile (beforeNext zs)) := by
  cases zs with
  | nil => exact List.nil_sublist _
  | cons z zs =>
    induction xs with
    | nil => cases h
    | cons x xs ih =>
      by_cases hx : x = z
      · subst hx
        rwa [List.dropWhile_cons_of_neg (by simp [beforeNext])]
      · have hxs : (z :: zs).Sublist xs := by
          cases h with
          | cons _ h => exact h
          | cons_cons _ _ => exact absurd rfl hx
        have hne : z ≠ x := fun e => hx e.symm
        rw [List.dropWhile_cons_of_pos (by simp [beforeNext, hne])]
        exact ih hxs

namespace Sides

variable (s : Sides)

/-- How many lines a round keeps. -/
def agreed : Nat :=
  agreement s.old s.new s.commons

def kept : List String :=
  s.old.take s.agreed

def further : List String :=
  s.commons.drop s.agreed

def gone : List String :=
  (s.old.drop s.agreed).takeWhile (beforeNext s.further)

def fresh : List String :=
  (s.new.drop s.agreed).takeWhile (beforeNext s.further)

def next : Sides where
  old := (s.old.drop s.agreed).dropWhile (beforeNext s.further)
  new := (s.new.drop s.agreed).dropWhile (beforeNext s.further)
  commons := s.further

def chunks : List Chunk :=
  Chunk.ofPieces .same s.kept ++ Chunk.ofPieces .removed s.gone ++ Chunk.ofPieces .added s.fresh

theorem old_eq : s.old = s.kept ++ (s.gone ++ s.next.old) := by
  unfold kept gone next
  rw [List.takeWhile_append_dropWhile, List.take_append_drop]

theorem commons_eq : s.commons = s.kept ++ s.next.commons := by
  have h := (take_agreement s.old s.new s.commons).1
  unfold kept agreed
  rw [h, next, further, agreed, List.take_append_drop]

theorem new_eq : s.new = s.kept ++ (s.fresh ++ s.next.new) := by
  have h := take_agreement s.old s.new s.commons
  unfold kept agreed
  rw [h.1, ← h.2, fresh, next, List.takeWhile_append_dropWhile, agreed,
    List.take_append_drop]

/-- The common lines are a subsequence of both sides. -/
structure Common : Prop where
  old : s.commons.Sublist s.old
  new : s.commons.Sublist s.new

variable {s}

theorem Common.next (h : s.Common) : s.next.Common where
  old := by
    have hold := h.old
    rw [s.commons_eq, s.old_eq, List.append_sublist_append_left, gone, Sides.next,
      List.takeWhile_append_dropWhile] at hold
    exact sublist_dropWhile hold
  new := by
    have hnew := h.new
    rw [s.commons_eq, s.new_eq, List.append_sublist_append_left, fresh, Sides.next,
      List.takeWhile_append_dropWhile] at hnew
    exact sublist_dropWhile hnew

def Done (s : Sides) : Prop :=
  s.old = [] ∧ s.new = []

instance (s : Sides) : Decidable s.Done :=
  inferInstanceAs (Decidable (_ ∧ _))

theorem Common.eq_of_done (h : s.Common) (hdone : s.Done) : s = ⟨[], [], []⟩ := by
  obtain ⟨old, new, commons⟩ := s
  obtain ⟨rfl, rfl⟩ := hdone
  have hnil : commons = [] := List.sublist_nil.1 h.old
  rw [hnil]

theorem takeWhile_ne_nil {zs xs : List String} {x : String} (h : zs.head? ≠ some x) :
    (x :: xs).takeWhile (beforeNext zs) ≠ [] := by
  rw [List.takeWhile_cons_of_pos (by simpa [beforeNext] using h)]
  exact List.cons_ne_nil _ _

/-- A round that keeps nothing takes something away. -/
theorem Common.gone_or_fresh (h : s.Common) (hdone : ¬s.Done) (hkept : s.agreed = 0) :
    s.gone ≠ [] ∨ s.fresh ≠ [] := by
  obtain ⟨old, new, commons⟩ := s
  simp only [Sides.gone, Sides.fresh, further, hkept, List.drop_zero]
  cases commons with
  | nil =>
    cases old with
    | cons x xs => exact .inl (takeWhile_ne_nil nofun)
    | nil =>
      cases new with
      | nil => exact absurd ⟨rfl, rfl⟩ hdone
      | cons y ys => exact .inr (takeWhile_ne_nil nofun)
  | cons z zs =>
    cases old with
    | nil => cases h.old
    | cons x xs =>
      cases new with
      | nil => cases h.new
      | cons y ys =>
        by_cases hx : z = x
        · refine .inr (takeWhile_ne_nil fun hy => ?_)
          cases hx
          cases hy
          simp [agreed, agreement] at hkept
        · exact .inl (takeWhile_ne_nil fun e => hx (Option.some.inj e))

theorem Common.length_next_lt (h : s.Common) (hdone : ¬s.Done) :
    s.next.old.length + s.next.new.length < s.old.length + s.new.length := by
  have hold := congrArg List.length s.old_eq
  have hnew := congrArg List.length s.new_eq
  rw [List.length_append, List.length_append] at hold hnew
  by_cases hkept : s.agreed = 0
  · rcases h.gone_or_fresh hdone hkept with hne | hne
    · have := List.length_pos_iff.2 hne
      omega
    · have := List.length_pos_iff.2 hne
      omega
  · have hle : s.agreed ≤ s.old.length := agreement_le _ _ _
    have : s.kept.length = s.agreed := by
      unfold kept
      rw [List.length_take, Nat.min_eq_left hle]
    omega

theorem common_nil : Common ⟨[], [], []⟩ :=
  ⟨.slnil, .slnil⟩

/-- Induction from the last round back to the first. -/
theorem Common.rounds {motive : (s : Sides) → s.Common → Prop}
    (done : motive ⟨[], [], []⟩ common_nil)
    (round : ∀ (s : Sides) (h : s.Common), ¬s.Done → motive s.next h.next → motive s h)
    (s : Sides) (h : s.Common) : motive s h := by
  by_cases hdone : s.Done
  · cases h.eq_of_done hdone
    exact done
  · have hlt := h.length_next_lt hdone
    exact round s h hdone (Common.rounds done round s.next h.next)
termination_by s.old.length + s.new.length

def script (s : Sides) : List Chunk :=
  merge s.old s.new s.commons

theorem script_done : script ⟨[], [], []⟩ = [] := by
  unfold script
  rw [merge]
  simp

theorem Common.script_eq (h : s.Common) (hdone : ¬s.Done) :
    s.script = s.chunks ++ s.next.script := by
  unfold script
  rw [merge]
  exact if_pos (h.length_next_lt hdone)

end Sides

/-- One round of the merge: the chunks that it reads off follow the earlier ones. -/
def round (s : Sides × List Chunk) : Option (Sides × List Chunk) :=
  if s.1.Done then none else some (s.1.next, s.2 ++ s.1.chunks)

/-- The merge ends with nothing left. -/
theorem Sides.Common.runs_round {s : Sides} (h : s.Common) (cs : List Chunk) :
    Runs round (s, cs) (⟨[], [], []⟩, cs ++ s.script) := by
  induction s, h using Sides.Common.rounds generalizing cs with
  | done =>
    rw [Sides.script_done, List.append_nil]
    exact .done (if_pos ⟨rfl, rfl⟩)
  | round s h hdone ih =>
    rw [h.script_eq hdone, ← List.append_assoc]
    exact .next (if_neg hdone) (ih (cs ++ s.chunks))

end FieldMacros.Diff
