import FieldMacros.FileTree.Resolve

/-!
# Walks through a tree

A walk that stays inside directories ends at no link (`walk_not_link`). It does
not see entries under a name that neither its names nor the links of the tree
mention (`AgreeOff.walk_eq`). Names that pass no link are walked the same way
in every tree that keeps the directories (`walk_append`).
-/

namespace FieldMacros.FileTree

/-! ## Inside directories -/

/-- The location and all above it hold directories. -/
def Inside (t : FileTree) (l : Location) : Prop :=
  ∀ k, k <+: l → ∃ mode, t.get? k = some (.directory mode)

theorem inside_root (t : FileTree) : t.Inside [] := by
  intro k hk
  rw [List.prefix_nil.1 hk]
  exact ⟨t.rootMode, rfl⟩

theorem Inside.dropLast {t : FileTree} {l : Location} (h : t.Inside l) : t.Inside l.dropLast :=
  fun _ hk => h _ (hk.trans (List.dropLast_prefix l))

theorem Inside.concat {t : FileTree} {l : Location} (h : t.Inside l) {name : Bytes} {mode : Nat}
    (hget : t.get? (l ++ [name]) = some (.directory mode)) : t.Inside (l ++ [name]) := by
  intro k hk
  rcases List.prefix_concat_iff.1 hk with rfl | hk
  · exact ⟨mode, hget⟩
  · exact h k hk

theorem Inside.not_link {t : FileTree} {l : Location} (h : t.Inside l) (target : Bytes) :
    t.get? l ≠ some (.link target) := by
  obtain ⟨mode, hmode⟩ := h l (List.prefix_refl l)
  rw [hmode]
  nofun

/-- A walk follows every link that it meets. -/
theorem walk_not_link {t : FileTree} {links : Nat} {dir l : Location} {names : List Bytes}
    (hdir : t.Inside dir) (h : t.walk links dir names = .ok l) (target : Bytes) :
    t.get? l ≠ some (.link target) := by
  fun_induction walk t links dir names with
  | case1 =>
    cases h
    exact hdir.not_link target
  | case2 links dir rest ih => exact ih hdir h
  | case3 links dir rest hup ih => exact ih hdir.dropLast h
  | case5 links dir name rest hhere hup hlen mode hget ih => exact ih (hdir.concat hget) h
  | case9 dir name rest hhere hup hlen target' hget links p ih =>
    -- An absolute target starts at the root, any other one where the link is.
    refine ih ?_ h
    split
    · exact inside_root t
    · exact hdir
  | case6 links dir name rest hhere hup hlen mode content hget =>
    cases h
    rw [hget]
    nofun
  | case10 links dir name rest hhere hup hlen hget =>
    cases h
    rw [hget]
    nofun
  | case4 | case7 | case8 | case11 => cases h

theorem directory_eq_ok_iff {t : FileTree} {names : List Bytes} {d : Location} :
    t.directory names = .ok d ↔
      t.walk linkLimit [] names = .ok d ∧ ∃ mode, t.get? d = some (.directory mode) := by
  unfold directory
  cases hwalk : t.walk linkLimit [] names with
  | error c => simp [bind, Except.bind]
  | ok l =>
    simp only [bind, Except.bind, Except.ok.injEq]
    split
    · next mode hget =>
      constructor
      · rintro ⟨⟩
        exact ⟨rfl, mode, hget⟩
      · rintro ⟨rfl, -⟩
        rfl
    · next e hdir hget =>
      simp only [reduceCtorEq, false_iff]
      rintro ⟨rfl, mode, hmode⟩
      rw [hget] at hmode
      exact hdir mode (Option.some.inj hmode)
    · next hget =>
      simp only [reduceCtorEq, false_iff]
      rintro ⟨rfl, mode, hmode⟩
      simp [hget] at hmode

theorem resolve_eq_ok_iff {t : FileTree} {path : Bytes} {l : Location} {e : Entry} :
    t.resolve path = .ok (l, e) ↔ t.locate path = .ok l ∧ t.get? l = some e := by
  unfold resolve
  cases t.locate path with
  | error c => simp [bind, Except.bind]
  | ok k =>
    simp only [bind, Except.bind, Except.ok.injEq]
    constructor
    · intro h
      split at h
      · next e' hget =>
        cases h
        exact ⟨rfl, hget⟩
      · cases h
    · rintro ⟨rfl, hget⟩
      rw [hget]

theorem resolve_not_link {t : FileTree} {path target : Bytes} {l : Location} :
    t.resolve path ≠ .ok (l, .link target) := by
  intro h
  obtain ⟨hlocate, hget⟩ := resolve_eq_ok_iff.1 h
  unfold locate at hlocate
  cases husable : Path.usable path with
  | error c => simp [husable, bind, Except.bind] at hlocate
  | ok u =>
    rw [husable] at hlocate
    exact walk_not_link t.inside_root hlocate target hget

theorem readText_eq_ok_iff {t : FileTree} {path : Bytes} {s : String} :
    t.readText path = .ok s ↔ t.read path = .ok s.toUTF8 := by
  unfold readText decodeText
  cases t.read path with
  | error c => simp [bind, Except.bind]
  | ok content =>
    rw [Except.ok.injEq, ← Bytes.fromUTF8?_eq_some_iff]
    simp only [bind, Except.bind]
    cases String.fromUTF8? content <;> simp

/-! ## Names that nothing mentions -/

/-- The trees hold the same entries, apart from those under the name, and no link of the first one
mentions it. -/
structure AgreeOff (name : Bytes) (t t' : FileTree) : Prop where
  get?_eq : ∀ k, k.getLast? ≠ some name → t'.get? k = t.get? k
  unmentioned : ∀ k target, t.get? k = some (.link target) → name ∉ (Path.ofBytes target).steps

theorem AgreeOff.get?_concat {name n : Bytes} {t t' : FileTree} (h : AgreeOff name t t')
    (hn : name ≠ n) (dir : Location) : t'.get? (dir ++ [n]) = t.get? (dir ++ [n]) :=
  h.get?_eq _ fun hlast => hn (by simpa using hlast.symm)

theorem AgreeOff.walk_eq {name : Bytes} {t t' : FileTree} (h : AgreeOff name t t') (links : Nat)
    (dir : Location) {names : List Bytes} (hnames : name ∉ names) :
    t'.walk links dir names = t.walk links dir names := by
  fun_induction walk t links dir names with
  | case1 => rw [walk]
  | case2 links dir rest ih =>
    rw [walk, if_pos rfl]
    exact ih (List.not_mem_of_not_mem_cons hnames)
  | case3 links dir rest hup ih =>
    rw [walk, if_neg hup, if_pos rfl]
    exact ih (List.not_mem_of_not_mem_cons hnames)
  | case5 links dir n rest hhere hup hlen mode hget ih =>
    have hstep := h.get?_concat (List.ne_of_not_mem_cons hnames) dir
    rw [walk]
    simp only [hstep, hget, if_neg hhere, if_neg hup, if_neg hlen]
    exact ih (List.not_mem_of_not_mem_cons hnames)
  | case9 dir n rest hhere hup hlen target hget links p ih =>
    have hstep := h.get?_concat (List.ne_of_not_mem_cons hnames) dir
    rw [walk]
    simp only [hstep, hget, if_neg hhere, if_neg hup, if_neg hlen]
    refine ih fun hmem => ?_
    rcases List.mem_append.1 hmem with hmem | hmem
    · exact h.unmentioned _ _ hget hmem
    · exact hnames (List.mem_cons_of_mem n hmem)
  | case4 | case6 | case7 | case8 | case10 | case11 =>
    rw [walk]
    simp [h.get?_concat (List.ne_of_not_mem_cons hnames), *]

/-! ## Names that pass no link -/

/-- Whether the names lead past a link, from a directory on. -/
def passesLink (t : FileTree) (dir : Location) : List Bytes → Bool
  | [] => false
  | name :: rest =>
    if name = Path.here then t.passesLink dir rest
    else if name = Path.up then t.passesLink dir.dropLast rest
    else
      match t.get? (dir ++ [name]) with
      | some (.link _) => true
      | _ => t.passesLink (dir ++ [name]) rest

theorem passesLink_filter_here (t : FileTree) (dir : Location) (names : List Bytes) :
    t.passesLink dir (names.filter (· != Path.here)) = t.passesLink dir names := by
  induction names generalizing dir with
  | nil => rfl
  | cons name rest ih =>
    by_cases hhere : name = Path.here
    · rw [List.filter_cons_of_neg (by simp [hhere]), ih, passesLink, if_pos hhere]
    · rw [List.filter_cons_of_pos (by simp [hhere]), passesLink, passesLink, ih, ih, ih]

def DirectoriesIn (t t' : FileTree) : Prop :=
  ∀ k mode, t.get? k = some (.directory mode) → t'.get? k = some (.directory mode)

/-- The first step of a walk to a directory leads to a directory, unless it leads to a link. -/
theorem walk_cons_eq_ok {t : FileTree} {links : Nat} {dir d : Location} {name : Bytes}
    {names : List Bytes} (hhere : name ≠ Path.here) (hup : name ≠ Path.up)
    (hlink : ∀ target, t.get? (dir ++ [name]) ≠ some (.link target))
    (hwalk : t.walk links dir (name :: names) = .ok d) {mode : Nat}
    (hd : t.get? d = some (.directory mode)) :
    ¬ Path.nameLimit < name.length ∧ (∃ m, t.get? (dir ++ [name]) = some (.directory m)) ∧
      t.walk links (dir ++ [name]) names = .ok d := by
  -- A walk that ends at the first step ends at the directory that it leads to.
  have hend {c : IoCause} (h : (if names.isEmpty then .ok (dir ++ [name]) else .error c) =
      (.ok d : Except IoCause Location)) : t.get? (dir ++ [name]) = some (.directory mode) := by
    split at h
    · cases h
      exact hd
    · cases h
  rw [walk, if_neg hhere, if_neg hup] at hwalk
  split at hwalk
  · cases hwalk
  next hlen =>
  split at hwalk
  · next m hget => exact ⟨hlen, ⟨m, hget⟩, hwalk⟩
  · next m content hget => cases hget.symm.trans (hend hwalk)
  · next target hget => exact absurd hget (hlink target)
  · next hget => cases hget.symm.trans (hend hwalk)

/-- Names that pass no link and lead to a directory lead there in every tree that has the
directories, however many links may be followed. -/
theorem walk_append {t t' : FileTree} (hkeep : DirectoriesIn t t') {links : Nat}
    {dir d : Location} {names : List Bytes} (hlink : t.passesLink dir names = false)
    (hwalk : t.walk links dir names = .ok d) {mode : Nat} (hd : t.get? d = some (.directory mode))
    (links' : Nat) (rest : List Bytes) :
    t'.walk links' dir (names ++ rest) = t'.walk links' d rest := by
  induction names generalizing dir with
  | nil =>
    rw [walk] at hwalk
    cases hwalk
    rfl
  | cons name names ih =>
    rw [passesLink] at hlink
    rw [List.cons_append, walk]
    by_cases hhere : name = Path.here
    · rw [walk, if_pos hhere] at hwalk
      rw [if_pos hhere] at hlink ⊢
      exact ih hlink hwalk
    by_cases hup : name = Path.up
    · rw [walk, if_neg hhere, if_pos hup] at hwalk
      rw [if_neg hhere, if_pos hup] at hlink ⊢
      exact ih hlink hwalk
    rw [if_neg hhere, if_neg hup] at hlink ⊢
    have hstep : ∀ target, t.get? (dir ++ [name]) ≠ some (.link target) := by
      intro target hget
      simp [hget] at hlink
    obtain ⟨hlen, ⟨m, hget⟩, hwalk⟩ := walk_cons_eq_ok hhere hup hstep hwalk hd
    rw [hget] at hlink
    rw [if_neg hlen, hkeep _ _ hget]
    exact ih hlink hwalk

theorem directory_of_passesLink {t t' : FileTree} (hkeep : DirectoriesIn t t') {names : List Bytes}
    (hlink : t.passesLink [] names = false) {d : Location} (h : t.directory names = .ok d) :
    t'.directory names = .ok d := by
  obtain ⟨hwalk, mode, hd⟩ := directory_eq_ok_iff.1 h
  have hsame := walk_append hkeep hlink hwalk hd linkLimit []
  rw [List.append_nil, walk] at hsame
  exact directory_eq_ok_iff.2 ⟨hsame, mode, hkeep d mode hd⟩

end FieldMacros.FileTree
