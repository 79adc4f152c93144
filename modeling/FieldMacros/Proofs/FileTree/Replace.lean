import FieldMacros.FileTree.Edit
import FieldMacros.Proofs.FileTree.Walk
import FieldMacros.Sink

/-!
# Replacing is all or nothing

The temporary file has a name that neither the tree nor the path mentions, so
every path leads where it did before (`agreeOff_temporary`). Up to the move it
is all that has changed, and the move or the clean-up takes it away
(`commit_cases`). So a replacement changes one entry or nothing
(`replace_cases`, `FileSink.write_changes_one_entry_or_none`).
-/

namespace FieldMacros

namespace Path

theorem length_le_intercalate {sep l : Bytes} {ls : List Bytes} (h : l ∈ ls) :
    l.length ≤ (sep.intercalate ls).length := by
  induction ls with
  | nil => cases h
  | cons k ks ih =>
    cases ks with
    | nil => exact Nat.le_of_eq (by rw [List.mem_singleton.1 h, List.intercalate_singleton])
    | cons k' ks =>
      rw [List.intercalate_cons_cons]
      simp only [List.length_append]
      rcases List.mem_cons.1 h with rfl | h
      · omega
      · have := ih h
        omega

theorem length_le_of_mem_names {b name : Bytes} (h : name ∈ (ofBytes b).names) :
    name.length ≤ b.length := by
  have hmem : name ∈ b.splitOn slash := (List.mem_filter.1 h).1
  have hle : name.length ≤ ([slash].intercalate (b.splitOn slash)).length :=
    length_le_intercalate hmem
  rwa [List.intercalate_splitOn] at hle

/-- A name that is too long for a path is none of its steps. -/
theorem not_mem_steps {b name : Bytes} (hlong : b.length < name.length)
    (hhere : here.length < name.length) : name ∉ (ofBytes b).steps := by
  have hnames : name ∉ (ofBytes b).names := fun hmem =>
    Nat.not_lt.2 (length_le_of_mem_names hmem) hlong
  unfold steps
  split
  · intro hmem
    rcases List.mem_append.1 hmem with hmem | hmem
    · exact hnames hmem
    · rw [List.mem_singleton.1 hmem] at hhere
      exact Nat.lt_irrefl _ hhere
  · exact hnames

theorem not_mem_names {b name : Bytes} (h : name ∉ (ofBytes b).steps) :
    name ∉ (ofBytes b).names := by
  intro hmem
  unfold steps at h
  split at h
  · exact h (List.mem_append_left _ hmem)
  · exact h hmem

end Path

namespace FileTree

/-! ## The temporary file -/

section Temporary

variable (t : FileTree) (path : Bytes)

theorem length_path_le_longestName : path.length ≤ t.longestName path := by
  rw [longestName, List.foldl_max]
  exact Nat.le_max_left _ _

variable {t} in
theorem le_longestName {p : Location × Entry} (h : p ∈ t.entries) :
    max (p.1.getLast?.getD []).length p.2.targetLength ≤ t.longestName path := by
  rw [longestName, List.foldl_max]
  have hmem := List.mem_map_of_mem (f := fun p : Location × Entry =>
    max (p.1.getLast?.getD []).length p.2.targetLength) h
  exact Nat.le_trans (List.le_max?_getD_of_mem hmem) (Nat.le_max_right _ _)

theorem length_temporaryName : (t.temporaryName path).length = 4 + t.longestName path := by
  have htmp : (Bytes.ofString ".tmp").length = 4 := by decide
  rw [temporaryName, List.length_append, List.length_replicate, htmp]

/-- No entry has the temporary name. -/
theorem temporary_fresh (dir : Location) :
    ∀ p ∈ t.entries, p.1 ≠ dir ++ [t.temporaryName path] := by
  intro p hp heq
  have hle := Nat.le_trans (Nat.le_max_left _ _) (le_longestName path hp)
  rw [heq, List.getLast?_concat, Option.getD_some, length_temporaryName] at hle
  omega

theorem temporaryName_not_mem {b : Bytes} (h : b.length ≤ t.longestName path) :
    t.temporaryName path ∉ (Path.ofBytes b).steps := by
  have hlen := length_temporaryName t path
  have hhere : Path.here.length = 1 := rfl
  exact Path.not_mem_steps (by omega) (by omega)

/-- An entry under the temporary name is out of sight. -/
theorem agreeOff_temporary (dir : Location) (e : Entry) :
    AgreeOff (t.temporaryName path) t (t.insert (dir ++ [t.temporaryName path]) e) where
  get?_eq k hk := by
    rw [get?_insert (by simp), if_neg]
    rintro rfl
    exact hk List.getLast?_concat
  unmentioned k target hget := by
    have hk : k ≠ [] := by
      rintro rfl
      simp at hget
    have hle := le_longestName path (mem_of_get? hk hget)
    exact temporaryName_not_mem t path (Nat.le_trans (Nat.le_max_right _ _) hle)

end Temporary

namespace AgreeOff

variable {name : Bytes} {t t' : FileTree} (h : AgreeOff name t t')

include h

/-- A walk ends at a location made of names that it has read. -/
theorem not_mem_of_walk {links : Nat} {dir l : Location} {names : List Bytes}
    (hnames : name ∉ names) (hdir : name ∉ dir) (hwalk : t.walk links dir names = .ok l) :
    name ∉ l := by
  fun_induction walk t links dir names with
  | case1 =>
    cases hwalk
    exact hdir
  | case2 links dir rest ih => exact ih (List.not_mem_of_not_mem_cons hnames) hdir hwalk
  | case3 links dir rest hup ih =>
    have hup' : name ∉ dir.dropLast := fun hmem => hdir ((List.dropLast_sublist dir).subset hmem)
    exact ih (List.not_mem_of_not_mem_cons hnames) hup' hwalk
  | case5 links dir n rest hhere hup hlen mode hget ih =>
    refine ih (List.not_mem_of_not_mem_cons hnames) ?_ hwalk
    simpa using ⟨hdir, List.ne_of_not_mem_cons hnames⟩
  | case9 dir n rest hhere hup hlen target hget links p ih =>
    refine ih ?_ ?_ hwalk
    · simpa using ⟨h.unmentioned _ _ hget, List.not_mem_of_not_mem_cons hnames⟩
    · split
      · exact List.not_mem_nil
      · exact hdir
  | case6 | case10 =>
    cases hwalk
    simpa using ⟨hdir, List.ne_of_not_mem_cons hnames⟩
  | case4 | case7 | case8 | case11 => cases hwalk

theorem get?_of_not_mem {l : Location} (hl : name ∉ l) : t'.get? l = t.get? l :=
  h.get?_eq l fun hlast => hl (List.mem_of_getLast? hlast)

theorem directory_eq {names : List Bytes} (hnames : name ∉ names) :
    t'.directory names = t.directory names := by
  unfold directory
  rw [h.walk_eq linkLimit [] hnames]
  cases hwalk : t.walk linkLimit [] names with
  | error c => rfl
  | ok l =>
    have hl := h.not_mem_of_walk hnames List.not_mem_nil hwalk
    simp only [bind, Except.bind, h.get?_of_not_mem hl]

theorem resolve_eq {path : Bytes} (hpath : name ∉ (Path.ofBytes path).steps) :
    t'.resolve path = t.resolve path := by
  unfold resolve locate
  cases Path.usable path with
  | error c => rfl
  | ok u =>
    simp only [bind, Except.bind, h.walk_eq linkLimit [] hpath]
    cases hwalk : t.walk linkLimit [] (Path.ofBytes path).steps with
    | error c => rfl
    | ok l =>
      have hl := h.not_mem_of_walk hpath List.not_mem_nil hwalk
      simp only [h.get?_of_not_mem hl]

theorem replacementMode_eq {path : Bytes} (hpath : name ∉ (Path.ofBytes path).steps) :
    t'.replacementMode path = t.replacementMode path := by
  rw [replacementMode, replacementMode, h.resolve_eq hpath]

theorem target_eq {path : Bytes} (hpath : name ∉ (Path.ofBytes path).steps) :
    t'.target path = t.target path := by
  have hnames := Path.not_mem_names hpath
  have hfolder : name ∉ (Path.ofBytes path).names.dropLast := fun hmem =>
    hnames ((List.dropLast_sublist _).subset hmem)
  unfold target
  simp only [h.directory_eq hfolder]
  cases Path.usable path with
  | error c => rfl
  | ok u =>
    simp only [bind, Except.bind]
    cases hlast : (Path.ofBytes path).names.getLast? with
    | none => rfl
    | some last =>
      have hne : name ≠ last := by
        rintro rfl
        exact hnames (List.mem_of_getLast? hlast)
      simp only [h.get?_concat hne]

end AgreeOff

/-! ## The steps of a replacement -/

def withTemporary (t : FileTree) (path : Bytes) (dir : Location) (e : Entry) : FileTree :=
  t.insert (dir ++ [t.temporaryName path]) e

theorem createTemporary_eq_ok_iff {t : FileTree} {path : Bytes} {p : FileTree × Location} :
    t.createTemporary path = .ok p ↔
      ((Path.ofBytes path).folder.any (·.contains 0)) = false ∧
        t.temporaryPathLength path ≤ Path.pathLimit ∧
        ∃ dir, t.directory (Path.ofBytes path).folder = .ok dir ∧
          p = (t.withTemporary path dir (.file temporaryMode ByteArray.empty),
            dir ++ [t.temporaryName path]) := by
  simp only [createTemporary]
  cases hnul : (Path.ofBytes path).folder.any (·.contains 0) with
  | true => simp
  | false =>
    by_cases hlen : Path.pathLimit < t.temporaryPathLength path
    · simp [hlen, Nat.not_le.2 hlen]
    · cases hdir : t.directory (Path.ofBytes path).folder with
      | error c => simp [hlen, bind, Except.bind]
      | ok dir => simp [hlen, Nat.not_lt.1 hlen, bind, Except.bind, withTemporary, eq_comm]

section Steps

variable (t : FileTree) (path : Bytes) (dir : Location)

theorem get?_withTemporary (e : Entry) :
    (t.withTemporary path dir e).get? (dir ++ [t.temporaryName path]) = some e := by
  rw [withTemporary, get?_insert (by simp), if_pos rfl]

theorem insert_withTemporary (e e' : Entry) :
    (t.withTemporary path dir e).insert (dir ++ [t.temporaryName path]) e' =
      t.withTemporary path dir e' :=
  insert_insert t _ e e'

theorem erase_withTemporary (e : Entry) :
    (t.withTemporary path dir e).erase (dir ++ [t.temporaryName path]) = t :=
  erase_insert (temporary_fresh t path dir) e

theorem fill_cases (disk : Disk) (e : Entry) (content : ByteArray) :
    (t.withTemporary path dir e).fill disk (dir ++ [t.temporaryName path]) content =
        .ok (t.withTemporary path dir (.file temporaryMode content)) ∨
      ∃ c e', (t.withTemporary path dir e).fill disk (dir ++ [t.temporaryName path]) content =
        .error ⟨c, t.withTemporary path dir e'⟩ ∧ disk ≠ .sound := by
  unfold fill
  split
  · exact .inl (by rw [insert_withTemporary])
  · next n c h =>
    refine .inr ⟨c, _, by rw [insert_withTemporary], ?_⟩
    rintro rfl
    cases h

theorem changeMode_cases (disk : Disk) (m mode : Nat) (content : ByteArray) :
    (t.withTemporary path dir (.file m content)).changeMode disk (dir ++ [t.temporaryName path])
        mode = .ok (t.withTemporary path dir (.file mode content)) ∨
      ∃ c, (t.withTemporary path dir (.file m content)).changeMode disk
          (dir ++ [t.temporaryName path]) mode =
        .error ⟨c, t.withTemporary path dir (.file m content)⟩ ∧ disk ≠ .sound := by
  unfold changeMode
  split
  · exact .inl (by rw [get?_withTemporary, Option.elim, Entry.withMode, insert_withTemporary])
  · next c h =>
    refine .inr ⟨c, rfl, ?_⟩
    rintro rfl
    cases h

theorem sync_cases (disk : Disk) :
    t.sync disk = .ok t ∨ ∃ c, t.sync disk = .error ⟨c, t⟩ ∧ disk ≠ .sound := by
  unfold sync
  split
  · exact .inl rfl
  · next c h =>
    refine .inr ⟨c, rfl, ?_⟩
    rintro rfl
    cases h

/-- The move takes the temporary file away and changes what the path names, if it changes
anything. -/
theorem persist_cases (e : Entry) :
    (∃ l, t.target path = .ok l ∧ (t.withTemporary path dir e).persist
        (dir ++ [t.temporaryName path]) path = .ok (t.insert l e)) ∨
      ∃ c, t.target path = .error c ∧ (t.withTemporary path dir e).persist
        (dir ++ [t.temporaryName path]) path = .error ⟨c, t.withTemporary path dir e⟩ := by
  have hname := temporaryName_not_mem t path (length_path_le_longestName t path)
  have htarget : (t.withTemporary path dir e).target path = t.target path :=
    (agreeOff_temporary t path dir e).target_eq hname
  unfold persist moveOver
  rw [htarget]
  cases t.target path with
  | error c => exact .inr ⟨c, rfl, rfl⟩
  | ok l =>
    simp only [bind, Except.bind, get?_withTemporary, erase_withTemporary]
    exact .inl ⟨l, rfl, rfl⟩

/-- A commit puts the file where the path names one, or it fails and has touched nothing but the
temporary file; on a sound disk it fails only where the path names no place for a file. -/
theorem commit_cases (content : ByteArray) (disk : Disk) (e : Entry) :
    (∃ l, t.target path = .ok l ∧ (t.withTemporary path dir e).commit disk
        (dir ++ [t.temporaryName path]) path content =
          .ok (t.insert l (.file (t.replacementMode path) content))) ∨
      ∃ c e', (t.withTemporary path dir e).commit disk (dir ++ [t.temporaryName path]) path
          content = .error ⟨c, t.withTemporary path dir e'⟩ ∧
        (disk = .sound → t.target path = .error c) := by
  have hname := temporaryName_not_mem t path (length_path_le_longestName t path)
  have hmode : (t.withTemporary path dir (.file temporaryMode content)).replacementMode path =
      t.replacementMode path :=
    (agreeOff_temporary t path dir _).replacementMode_eq hname
  rw [commit_eq]
  rcases fill_cases t path dir disk e content with hfill | ⟨c, e', hfill, hdisk⟩
  case inr => exact .inr ⟨c, e', by rw [hfill]; rfl, fun h => absurd h hdisk⟩
  simp only [hfill, hmode, bind, Except.bind]
  rcases changeMode_cases t path dir disk temporaryMode (t.replacementMode path) content with
    hchange | ⟨c, hchange, hdisk⟩
  case inr => exact .inr ⟨c, _, by rw [hchange], fun h => absurd h hdisk⟩
  simp only [hchange]
  rcases sync_cases (t.withTemporary path dir (.file (t.replacementMode path) content)) disk with
    hsync | ⟨c, hsync, hdisk⟩
  case inr => exact .inr ⟨c, _, by rw [hsync], fun h => absurd h hdisk⟩
  simp only [hsync]
  rcases persist_cases t path dir (.file (t.replacementMode path) content) with
    hpersist | ⟨c, htarget, hpersist⟩
  · exact .inl hpersist
  · exact .inr ⟨c, _, hpersist, fun _ => htarget⟩

end Steps

/-- A replacement changes the entry that the path names, or nothing. -/
theorem replace_cases (t : FileTree) (path : Bytes) (content : ByteArray) (disk : Disk) :
    (∃ l, t.target path = .ok l ∧ t.replace path content disk =
      (.ok (), t.insert l (.file (t.replacementMode path) content))) ∨
    ∃ c, t.replace path content disk = (.error c, t) ∧
      (disk = .sound → t.createTemporary path = .error c ∨ t.target path = .error c) := by
  unfold replace
  cases hcreate : t.createTemporary path with
  | error c => exact .inr ⟨c, rfl, fun _ => .inl rfl⟩
  | ok p =>
    obtain ⟨-, -, dir, -, rfl⟩ := createTemporary_eq_ok_iff.1 hcreate
    rcases commit_cases t path dir content disk (.file temporaryMode ByteArray.empty) with
      ⟨l, htarget, hcommit⟩ | ⟨c, e, hcommit, hsound⟩
    · exact .inl ⟨l, htarget, by simp only [hcommit]⟩
    · refine .inr ⟨c, ?_, fun h => .inr (hsound h)⟩
      simp only [hcommit, erase_withTemporary]

/-! ## What a path names -/

/-- Where a path names a place for a file: an entry of a directory that is none itself, under a
proper name with nothing behind it. -/
theorem target_eq_ok_iff {t : FileTree} {path : Bytes} {l : Location} :
    t.target path = .ok l ↔
      Path.usable path = .ok () ∧ (Path.ofBytes path).trailingSlash = false ∧
        ∃ dir name, (Path.ofBytes path).names.getLast? = some name ∧
          t.directory (Path.ofBytes path).names.dropLast = .ok dir ∧
          name ≠ Path.here ∧ name ≠ Path.up ∧ name.length ≤ Path.nameLimit ∧
          l = dir ++ [name] ∧ ∀ mode, t.get? l ≠ some (.directory mode) := by
  simp only [target]
  cases Path.usable path with
  | error c => simp [bind, Except.bind]
  | ok u =>
    cases hlast : (Path.ofBytes path).names.getLast? with
    | none => simp [bind, Except.bind]
    | some name =>
      cases hdir : t.directory (Path.ofBytes path).names.dropLast with
      | error c => simp [bind, Except.bind]
      | ok dir =>
        simp only [bind, Except.bind, Option.some.injEq, Except.ok.injEq]
        constructor
        · intro h
          split at h
          · cases h
          next hspecial =>
          split at h
          · cases h
          next hlen =>
          split at h
          · cases h
          next hslash =>
          split at h
          · cases h
          next hentry =>
          cases h
          rw [not_or] at hspecial
          exact ⟨trivial, by simpa using hslash, dir, name, rfl, rfl, hspecial.1, hspecial.2,
            Nat.not_lt.1 hlen, rfl, hentry⟩
        · rintro ⟨-, hslash, dir', name', rfl, rfl, hhere, hup, hlen, rfl, hentry⟩
          rw [if_neg (not_or.2 ⟨hhere, hup⟩), if_neg (Nat.not_lt.2 hlen), hslash,
            if_neg Bool.false_ne_true]
          split
          · next mode hget => exact absurd hget (hentry mode)
          · rfl

theorem named?_of_target {t : FileTree} {path : Bytes} {l : Location}
    (h : t.target path = .ok l) : t.named? path = some l := by
  obtain ⟨-, -, dir, name, hlast, hdir, -, -, -, rfl, -⟩ := target_eq_ok_iff.1 h
  simp only [named?, hlast, hdir]

theorem ne_nil_of_target {t : FileTree} {path : Bytes} {l : Location}
    (h : t.target path = .ok l) : l ≠ [] := by
  obtain ⟨-, -, dir, name, -, -, -, -, -, rfl, -⟩ := target_eq_ok_iff.1 h
  simp

theorem mode?_of_resolve {t : FileTree} {path : Bytes} {k : Location} {e : Entry}
    (h : t.resolve path = .ok (k, e)) : e.mode? = some (t.replacementMode path) := by
  rw [replacementMode, h]
  cases e with
  | file mode content => rfl
  | directory mode => rfl
  | link target => exact absurd h resolve_not_link

theorem replacementMode_of_not_resolve {t : FileTree} {path : Bytes}
    (h : ∀ p, t.resolve path ≠ .ok p) : t.replacementMode path = newFileMode := by
  unfold replacementMode
  split
  · next p hp => exact absurd hp (h _)
  · rfl

end FileTree

open FileTree

/-- A file sink puts a file where its path names one, or it fails and changes nothing. -/
theorem FileSink.write_cases (s : FileSink) (t : FileTree) (text : String) (disk : Disk) :
    (∃ l, t.target s.path = .ok l ∧ s.write t text disk =
      (.ok (), t.insert l (.file (t.replacementMode s.path) text.toUTF8))) ∨
    ∃ c, s.write t text disk = (.error (.io s.path c), t) ∧
      (disk = .sound → t.createTemporary s.path = .error c ∨ t.target s.path = .error c) := by
  unfold FileSink.write
  rcases replace_cases t s.path text.toUTF8 disk with ⟨l, htarget, hok⟩ | ⟨c, herror, hsound⟩
  · exact .inl ⟨l, htarget, by rw [hok]; rfl⟩
  · exact .inr ⟨c, by rw [herror]; rfl, hsound⟩

/-- On a sound disk a file can be written where there is a place for it and room for a temporary
file. -/
theorem FileSink.write_of_target {s : FileSink} {t : FileTree} {p : FileTree × Location}
    {l : Location} (hcreate : t.createTemporary s.path = .ok p) (htarget : t.target s.path = .ok l)
    (text : String) :
    s.write t text = (.ok (), t.insert l (.file (t.replacementMode s.path) text.toUTF8)) := by
  rcases s.write_cases t text .sound with ⟨l', htarget', hok⟩ | ⟨c, -, hsound⟩
  · rw [htarget, Except.ok.injEq] at htarget'
    rw [htarget', hok]
  · rw [hcreate, htarget] at hsound
    rcases hsound rfl with hc | hc <;> cases hc

/-- A file sink replaces the entry that its path names, or it fails and changes nothing. The new
file has the mode of what the path led to through links, or that of a new file; where a link was,
the file behind it stays as it is. On a sound disk only the path can be the reason for a
failure. -/
theorem FileSink.write_changes_one_entry_or_none (s : FileSink) (t : FileTree) (text : String)
    (disk : Disk) :
    (∃ t' l mode, s.write t text disk = (.ok (), t') ∧ t.named? s.path = some l ∧
      (∀ k, t'.get? k = if k = l then some (.file mode text.toUTF8) else t.get? k) ∧
      (∀ k e, t.resolve s.path = .ok (k, e) → e.mode? = some mode) ∧
      ((∀ p, t.resolve s.path ≠ .ok p) → mode = 0o644) ∧
      ∀ link k e, t.get? l = some (.link link) → t.resolve s.path = .ok (k, e) →
        t'.get? k = some e) ∨
    ∃ c, s.write t text disk = (.error (.io s.path c), t) ∧
      (disk = .sound → t.createTemporary s.path = .error c ∨ t.target s.path = .error c) := by
  rcases s.write_cases t text disk with ⟨l, htarget, hok⟩ | herror
  case inr => exact .inr herror
  refine .inl ⟨_, l, t.replacementMode s.path, hok, named?_of_target htarget,
    fun k => get?_insert (ne_nil_of_target htarget) t k _, fun k e h => mode?_of_resolve h,
    replacementMode_of_not_resolve, fun link k e hlink hresolve => ?_⟩
  have hk : k ≠ l := by
    rintro rfl
    rw [(resolve_eq_ok_iff.1 hresolve).2] at hlink
    cases hlink
    exact resolve_not_link hresolve
  rw [get?_insert (ne_nil_of_target htarget), if_neg hk]
  exact (resolve_eq_ok_iff.1 hresolve).2

end FieldMacros
