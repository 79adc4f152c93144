import FieldMacros.Proofs.Diff.Longest

/-!
# Two fillings of one frame

A frame is what two lists have in common: an opening, a separator between two
items of their own, a trunk, and a closing. One of the lists may have further
items behind the trunk. The walk through the two finds exactly the frame
(`common_fill`).
-/

namespace FieldMacros.Diff

variable {α : Type}

/-- What is left of a subsequence of a list when one item of the list is not in it. -/
theorem sublist_of_not_mem {ws us vs : List α} {x : α} (h : ws.Sublist (us ++ x :: vs))
    (hx : x ∉ ws) : ws.Sublist (us ++ vs) := by
  obtain ⟨ws₁, ws₂, rfl, h₁, h₂⟩ := List.sublist_append_iff.1 h
  rcases List.sublist_cons_iff.1 h₂ with h₂ | ⟨rest, rfl, -⟩
  · exact h₁.append h₂
  · exact absurd (List.mem_append_right _ List.mem_cons_self) hx

/-- Two lists with the same beginning, separator, trunk and end. -/
structure Frame (α : Type) where
  opening : List α
  separator : α
  body : List α
  last : α
  closing : List α

namespace Frame

variable (c : Frame α)

def head (first second : α) : List α :=
  c.opening ++ [first, c.separator, second]

def trunk : List α :=
  c.body ++ [c.last]

/-- The list with the two items of its own and with further items behind the trunk. -/
def fill (first second : α) (further : List α) : List α :=
  c.head first second ++ (c.trunk ++ (further ++ c.closing))

def shared : List α :=
  c.opening ++ c.separator :: (c.trunk ++ c.closing)

variable {c} {s q s' q' : α} {xs ys further found : List α}

theorem sublist_head {ws vs : List α} (h : ws.Sublist (c.head s q ++ vs)) (hs : s ∉ ws)
    (hq : q ∉ ws) : ws.Sublist (c.opening ++ c.separator :: vs) := by
  have hfirst : c.head s q ++ vs = c.opening ++ s :: (c.separator :: q :: vs) := by simp [head]
  have hsecond : c.opening ++ c.separator :: q :: vs = (c.opening ++ [c.separator]) ++ q :: vs := by
    simp
  rw [hfirst] at h
  have h := sublist_of_not_mem h hs
  rw [hsecond] at h
  have h := sublist_of_not_mem h hq
  rwa [← List.append_cons] at h

/-! ## The further items -/

/-- Lines that two fillings share. -/
theorem sublist_fill (s q : α) (further : List α) :
    (c.opening ++ c.separator :: c.trunk).Sublist (c.head s q ++ (c.trunk ++ further)) := by
  have hhead : (c.opening ++ [c.separator]).Sublist (c.head s q) :=
    (List.Sublist.refl _).append (.cons s (.cons_cons _ (.cons q .slnil)))
  rw [List.append_cons]
  exact hhead.append (List.sublist_append_left _ _)

theorem fill_eq_append (c : Frame α) (s q : α) (further : List α) :
    c.fill s q further = (c.head s q ++ (c.trunk ++ further)) ++ c.closing := by
  simp only [fill, List.append_assoc]

/-- A filling is the frame and what it is filled with. -/
theorem perm_fill (s q : α) (further : List α) :
    (c.fill s q further).Perm (c.shared ++ s :: q :: further) := by
  have hfill : c.fill s q further =
      c.opening ++ s :: c.separator :: q :: (c.trunk ++ (further ++ c.closing)) := by
    simp [fill, head]
  have hshared : c.shared ++ s :: q :: further =
      c.opening ++ ((c.separator :: (c.trunk ++ c.closing)) ++ s :: q :: further) := by
    simp [shared]
  have hrest : (c.trunk ++ (further ++ c.closing)).Perm ((c.trunk ++ c.closing) ++ further) := by
    rw [List.append_assoc]
    exact List.perm_append_comm.append_left _
  have hitems : (s :: q :: ((c.separator :: (c.trunk ++ c.closing)) ++ further)).Perm
      ((c.separator :: (c.trunk ++ c.closing)) ++ s :: q :: further) :=
    (List.perm_middle.symm.cons s).trans List.perm_middle.symm
  have hseparator : (c.separator :: q :: (c.trunk ++ (further ++ c.closing))).Perm
      (q :: ((c.separator :: (c.trunk ++ c.closing)) ++ further)) :=
    (List.Perm.swap q c.separator _).trans ((hrest.cons c.separator).cons q)
  rw [hfill, hshared]
  exact ((hseparator.cons s).trans hitems).append_left _

/-- Without the last item of the trunk there is less to share. -/
theorem length_lt_of_sublist {ws : List α} (h : ws.Sublist (c.head s q ++ c.body)) (hs : s ∉ ws)
    (hq : q ∉ ws) : ws.length < (c.opening ++ c.separator :: c.trunk).length := by
  have hle := (sublist_head h hs hq).length_le
  simp only [trunk, List.length_append, List.length_cons, List.length_nil] at hle ⊢
  omega

theorem trunk_eq_append (us : List α) : us ++ c.trunk = (us ++ c.body) ++ [c.last] := by
  unfold trunk
  rw [List.append_assoc]

variable [DecidableEq α]

/-- The first list's further items are given up. -/
theorem walkFrom_further_left (hxs : c.head s q ++ (c.trunk ++ further) <+: xs)
    (hys : c.head s' q' ++ c.trunk <+: ys) (hs' : s' ∉ xs) (hq' : q' ∉ xs)
    (hlast : c.last ∉ further) :
    walkFrom xs ys (c.head s q ++ (c.trunk ++ further)) (c.head s' q' ++ c.trunk) found =
      walkFrom xs ys (c.head s q ++ c.trunk) (c.head s' q' ++ c.trunk) found := by
  induction further using List.reverseRecOn with
  | nil => rw [List.append_nil]
  | append_singleton further x ih =>
    have hsplit : c.head s q ++ (c.trunk ++ (further ++ [x])) =
        (c.head s q ++ (c.trunk ++ further)) ++ [x] := by
      simp only [List.append_assoc]
    rw [hsplit] at hxs ⊢
    have hx : x ≠ c.last := fun e => hlast (e ▸ List.mem_append_right _ List.mem_cons_self)
    rw [← ih ((List.prefix_append _ [x]).trans hxs) fun hmem => hlast (List.mem_append_left _ hmem)]
    have hshared : (c.opening ++ c.separator :: c.trunk).Sublist (c.head s' q' ++ c.trunk) := by
      simpa using sublist_fill (c := c) s' q' []
    rw [trunk_eq_append] at hys hshared ⊢
    refine walkFrom_up hxs hys hx (by simp [head]) (by simp [head]) (sublist_fill s q further)
      hshared (fun ws hws hws' => ?_) found
    have hfirst : s' ∉ ws := fun hmem => hs' (hxs.subset (hws.subset hmem))
    have hsecond : q' ∉ ws := fun hmem => hq' (hxs.subset (hws.subset hmem))
    exact Nat.le_of_lt (length_lt_of_sublist hws' hfirst hsecond)

/-- The second list's further items are given up. -/
theorem walkFrom_further_right (hxs : c.head s q ++ c.trunk <+: xs)
    (hys : c.head s' q' ++ (c.trunk ++ further) <+: ys) (hs : s ∉ ys) (hq : q ∉ ys)
    (hlast : c.last ∉ further) :
    walkFrom xs ys (c.head s q ++ c.trunk) (c.head s' q' ++ (c.trunk ++ further)) found =
      walkFrom xs ys (c.head s q ++ c.trunk) (c.head s' q' ++ c.trunk) found := by
  induction further using List.reverseRecOn with
  | nil => rw [List.append_nil]
  | append_singleton further x ih =>
    have hsplit : c.head s' q' ++ (c.trunk ++ (further ++ [x])) =
        (c.head s' q' ++ (c.trunk ++ further)) ++ [x] := by
      simp only [List.append_assoc]
    rw [hsplit] at hys ⊢
    have hx : c.last ≠ x := fun e => hlast (e ▸ List.mem_append_right _ List.mem_cons_self)
    rw [← ih ((List.prefix_append _ [x]).trans hys) fun hmem => hlast (List.mem_append_left _ hmem)]
    have hshared : (c.opening ++ c.separator :: c.trunk).Sublist (c.head s q ++ c.trunk) := by
      simpa using sublist_fill (c := c) s q []
    rw [trunk_eq_append (c.head s q)] at hxs hshared ⊢
    refine walkFrom_left hxs hys hx (by simp [head]) (by simp [head]) hshared
      (sublist_fill s' q' further) (fun ws hws hws' => ?_) found
    have hfirst : s ∉ ws := fun hmem => hs (hys.subset (hws'.subset hmem))
    have hsecond : q ∉ ws := fun hmem => hq (hys.subset (hws'.subset hmem))
    exact length_lt_of_sublist hws hfirst hsecond

/-- Of the first or of the second list: the further items are given up. -/
theorem walkFrom_further {further' : List α} (hone : further = [] ∨ further' = [])
    (hxs : c.head s q ++ (c.trunk ++ further) <+: xs)
    (hys : c.head s' q' ++ (c.trunk ++ further') <+: ys) (hlast : c.last ∉ further)
    (hlast' : c.last ∉ further') (hs : s ∉ ys) (hq : q ∉ ys) (hs' : s' ∉ xs) (hq' : q' ∉ xs) :
    walkFrom xs ys (c.head s q ++ (c.trunk ++ further)) (c.head s' q' ++ (c.trunk ++ further'))
        found =
      walkFrom xs ys (c.head s q ++ c.trunk) (c.head s' q' ++ c.trunk) found := by
  rcases hone with rfl | rfl
  · rw [List.append_nil] at hxs ⊢
    exact walkFrom_further_right hxs hys hs hq hlast'
  · rw [List.append_nil] at hys ⊢
    exact walkFrom_further_left hxs hys hs' hq' hlast

/-! ## The items of their own -/

theorem walkFrom_self {us : List α} (hxs : us <+: xs) (hys : us <+: ys) :
    walkFrom xs ys us us found = us ++ found := by
  have h : walkFrom xs ys ([] ++ us) ([] ++ us) found = walkFrom xs ys [] [] (us ++ found) :=
    walkFrom_suffix us (by rwa [List.nil_append]) (by rwa [List.nil_append]) found
  rw [List.nil_append] at h
  rw [h, walkFrom, List.length_nil, walk]

/-- Of two items of their own the first list's goes first. -/
theorem walkFrom_first {us : List α} (hlen : 2 ≤ us.length) (hxs : us ++ [s] <+: xs)
    (hys : us ++ [s'] <+: ys) (hs : s ∉ ys) (hs' : s' ∉ xs) :
    walkFrom xs ys (us ++ [s]) (us ++ [s']) found = us ++ found := by
  have hne : us ≠ [] := by
    rintro rfl
    simp at hlen
  have hxs' := (List.prefix_append us [s]).trans hxs
  have hys' := (List.prefix_append us [s']).trans hys
  have hss' : s ≠ s' := fun e => hs (e ▸ hys.subset (List.mem_append_right _ List.mem_cons_self))
  rw [walkFrom_up hxs hys hss' hne hne (.refl us) (List.sublist_append_left us [s'])
    fun ws _ hws => hws.length_le]
  obtain ⟨vs, p, rfl⟩ := (List.eq_nil_or_concat us).resolve_left hne
  rw [List.concat_eq_append] at *
  have hp : p ≠ s' := fun e => hs' (e ▸ hxs'.subset (List.mem_append_right _ List.mem_cons_self))
  have hvs : vs ≠ [] := by
    rintro rfl
    simp at hlen
  rw [walkFrom_left hxs' hys hp hvs hne (.refl _) (.refl _), walkFrom_self hxs' hys']
  intro ws hws _
  have := hws.length_le
  rw [List.length_append, List.length_singleton]
  omega

/-- In front of the trunk the separator and the opening are common. -/
theorem walkFrom_head (hlen : 2 ≤ c.opening.length) (hxs : c.head s q <+: xs)
    (hys : c.head s' q' <+: ys) (hs : s ∉ ys) (hq : q ∉ ys) (hs' : s' ∉ xs) (hq' : q' ∉ xs) :
    walkFrom xs ys (c.head s q) (c.head s' q') found = c.opening ++ c.separator :: found := by
  have hhead : ∀ s q, c.head s q = (c.opening ++ [s] ++ [c.separator]) ++ [q] := by simp [head]
  rw [hhead] at hxs hys ⊢
  rw [hhead]
  have hxs₁ := (List.prefix_append _ [q]).trans hxs
  have hys₁ := (List.prefix_append _ [q']).trans hys
  have hxs₂ := (List.prefix_append _ [c.separator]).trans hxs₁
  have hys₂ := (List.prefix_append _ [c.separator]).trans hys₁
  have hqq' : q ≠ q' := fun e => hq (e ▸ hys.subset (by simp))
  have heq' : c.separator ≠ q' := fun e => hq' (e ▸ hxs.subset (by simp))
  have hcommon : ∀ s, (c.opening ++ [c.separator]).Sublist (c.opening ++ [s] ++ [c.separator]) :=
    fun s => (List.sublist_append_left _ [s]).append (.refl _)
  have hup : ∀ ws : List α, ws.Sublist (c.opening ++ [s] ++ [c.separator] ++ [q]) →
      ws.Sublist (c.opening ++ [s'] ++ [c.separator]) →
        ws.length ≤ (c.opening ++ [c.separator]).length := by
    intro ws hws hws'
    have hmem : s' ∉ ws := fun hmem => hs' (hxs.subset (hws.subset hmem))
    rw [List.append_assoc] at hws'
    exact (sublist_of_not_mem hws' hmem).length_le
  have hleft : ∀ ws : List α, ws.Sublist (c.opening ++ [s]) →
      ws.Sublist (c.opening ++ [s'] ++ [c.separator] ++ [q']) →
        ws.length < (c.opening ++ [c.separator]).length := by
    intro ws hws hws'
    have hmem : s ∉ ws := fun hmem => hs (hys.subset (hws'.subset hmem))
    have := (sublist_of_not_mem hws hmem).length_le
    rw [List.append_nil] at this
    rw [List.length_append, List.length_singleton]
    omega
  rw [walkFrom_up hxs hys hqq' (by simp) (by simp) (hcommon s)
      ((hcommon s').trans (List.sublist_append_left _ _)) hup,
    walkFrom_left hxs₁ hys heq' (by simp) (by simp) (hcommon s) (hcommon s') hleft,
    walkFrom_same hxs₁ hys₁, walkFrom_first hlen hxs₂ hys₂ hs hs']

/-! ## The frame -/

/-- Two fillings have the frame in common, and nothing else, when their own items are their own and
only one of them has further items. -/
theorem common_fill (hlen : 2 ≤ c.opening.length) {further' : List α}
    (hone : further = [] ∨ further' = []) (hlast : c.last ∉ further) (hlast' : c.last ∉ further')
    (hs : s ∉ c.fill s' q' further') (hq : q ∉ c.fill s' q' further')
    (hs' : s' ∉ c.fill s q further) (hq' : q' ∉ c.fill s q further) :
    common (c.fill s q further) (c.fill s' q' further') = c.shared := by
  generalize hxs : c.fill s q further = xs at *
  generalize hys : c.fill s' q' further' = ys at *
  rw [fill_eq_append] at hxs hys
  have hpx : c.head s q ++ (c.trunk ++ further) <+: xs := ⟨c.closing, hxs⟩
  have hpy : c.head s' q' ++ (c.trunk ++ further') <+: ys := ⟨c.closing, hys⟩
  have htx : c.head s q ++ c.trunk <+: xs :=
    (List.prefix_append _ further).trans (by rwa [List.append_assoc])
  have hty : c.head s' q' ++ c.trunk <+: ys :=
    (List.prefix_append _ further').trans (by rwa [List.append_assoc])
  have hhx := (List.prefix_append _ c.trunk).trans htx
  have hhy := (List.prefix_append _ c.trunk).trans hty
  calc common xs ys
    _ = walkFrom xs ys (c.head s q ++ (c.trunk ++ further) ++ c.closing)
          (c.head s' q' ++ (c.trunk ++ further') ++ c.closing) [] := by
        rw [common_eq_walkFrom, hxs, hys]
    _ = walkFrom xs ys (c.head s q ++ (c.trunk ++ further))
          (c.head s' q' ++ (c.trunk ++ further')) (c.closing ++ []) :=
        walkFrom_suffix c.closing (hxs ▸ List.prefix_rfl) (hys ▸ List.prefix_rfl) []
    _ = walkFrom xs ys (c.head s q ++ c.trunk) (c.head s' q' ++ c.trunk) (c.closing ++ []) :=
        walkFrom_further hone hpx hpy hlast hlast' hs hq hs' hq'
    _ = walkFrom xs ys (c.head s q) (c.head s' q') (c.trunk ++ (c.closing ++ [])) :=
        walkFrom_suffix c.trunk htx hty _
    _ = c.opening ++ c.separator :: (c.trunk ++ (c.closing ++ [])) :=
        walkFrom_head hlen hhx hhy hs hq hs' hq'
    _ = c.shared := by rw [List.append_nil, shared]

end Frame

end FieldMacros.Diff
