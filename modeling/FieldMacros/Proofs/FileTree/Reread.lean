import FieldMacros.Proofs.FileTree.Replace

/-!
# What a path leads to once it has been written

Writing puts a file where a path names one, and reading follows links. When no
link stands on the way to the last name, both end at the same entry: the path
leads to the file that has just been written (`resolve_insert_target`), and it
can be written again in the same way (`FileSink.write_again`).
-/

namespace FieldMacros

namespace Path

/-- The names up to the last one, when that one leads somewhere, are those of the folder. -/
theorem folder_of_getLast? {p : Path} {name : Bytes} (h : p.names.getLast? = some name)
    (hhere : name ≠ here) : p.folder = p.names.dropLast.filter (· != here) := by
  obtain ⟨names, hnames⟩ := List.getLast?_eq_some_iff.1 h
  rw [folder, hnames, List.dropLast_concat, List.filter_append,
    List.filter_cons_of_pos (by simpa using hhere), List.filter_nil, List.dropLast_concat]

end Path

namespace FileTree

theorem directoriesIn_insert {t : FileTree} {l : Location} (hl : l ≠ [])
    (hdir : ∀ mode, t.get? l ≠ some (.directory mode)) (e : Entry) :
    DirectoriesIn t (t.insert l e) := by
  intro k mode hk
  rw [get?_insert hl, if_neg]
  · exact hk
  · rintro rfl
    exact hdir mode hk

section Written

variable {t : FileTree} {path : Bytes} {l : Location} (htarget : t.target path = .ok l)
  (hlink : t.passesLink [] (Path.ofBytes path).names.dropLast = false)

include htarget hlink

/-- A path leads to the file that it has named. -/
theorem resolve_insert_target (mode : Nat) (content : ByteArray) :
    (t.insert l (.file mode content)).resolve path = .ok (l, .file mode content) := by
  obtain ⟨husable, hslash, dir, name, hlast, hdir, hhere, hup, hlen, rfl, hentry⟩ :=
    target_eq_ok_iff.1 htarget
  obtain ⟨hwalk, m, hget⟩ := directory_eq_ok_iff.1 hdir
  obtain ⟨names, hnames⟩ := List.getLast?_eq_some_iff.1 hlast
  have hkeep := directoriesIn_insert (by simp) hentry (.file mode content)
  have hfile : (t.insert (dir ++ [name]) (.file mode content)).get? (dir ++ [name]) =
      some (.file mode content) := by
    rw [get?_insert (by simp), if_pos rfl]
  have hsteps : (Path.ofBytes path).steps = (Path.ofBytes path).names.dropLast ++ [name] := by
    rw [Path.steps, hslash, if_neg Bool.false_ne_true, hnames, List.dropLast_concat]
  refine resolve_eq_ok_iff.2 ⟨?_, hfile⟩
  unfold locate
  rw [husable, hsteps]
  simp only [bind, Except.bind]
  rw [walk_append hkeep hlink hwalk hget, walk, if_neg hhere, if_neg hup,
    if_neg (Nat.not_lt.2 hlen), hfile]
  rfl

/-- A path names the same place once there is a file. -/
theorem target_insert_target (mode : Nat) (content : ByteArray) :
    (t.insert l (.file mode content)).target path = .ok l := by
  obtain ⟨husable, hslash, dir, name, hlast, hdir, hhere, hup, hlen, rfl, hentry⟩ :=
    target_eq_ok_iff.1 htarget
  have hkeep := directoriesIn_insert (by simp) hentry (.file mode content)
  refine target_eq_ok_iff.2 ⟨husable, hslash, dir, name, hlast,
    directory_of_passesLink hkeep hlink hdir, hhere, hup, hlen, rfl, fun m hm => ?_⟩
  rw [get?_insert (by simp), if_pos rfl] at hm
  cases hm

/-- There is room for a temporary file once there is a file. -/
theorem createTemporary_insert_target {p : FileTree × Location}
    (hcreate : t.createTemporary path = .ok p) (mode : Nat) (content : ByteArray) :
    ∃ p', (t.insert l (.file mode content)).createTemporary path = .ok p' := by
  obtain ⟨-, -, dir, name, hlast, -, hhere, -, -, rfl, hentry⟩ := target_eq_ok_iff.1 htarget
  obtain ⟨hnul, hlen, folder, hfolder, -⟩ := createTemporary_eq_ok_iff.1 hcreate
  have hkeep := directoriesIn_insert (by simp) hentry (.file mode content)
  have hpasses : t.passesLink [] (Path.ofBytes path).folder = false := by
    rw [Path.folder_of_getLast? hlast hhere, passesLink_filter_here, hlink]
  exact ⟨_, createTemporary_eq_ok_iff.2
    ⟨hnul, hlen, folder, directory_of_passesLink hkeep hpasses hfolder, rfl⟩⟩

theorem replacementMode_insert_target (mode : Nat) (content : ByteArray) :
    (t.insert l (.file mode content)).replacementMode path = mode :=
  (Option.some.inj (mode?_of_resolve (resolve_insert_target htarget hlink mode content))).symm

end Written

end FileTree

open FileTree

theorem FileSink.createTemporary_of_write {s : FileSink} {t : FileTree} {text : String}
    {disk : Disk} (h : (s.write t text disk).1 = .ok ()) :
    ∃ p, t.createTemporary s.path = .ok p := by
  cases hcreate : t.createTemporary s.path with
  | ok p => exact ⟨p, rfl⟩
  | error c =>
    simp only [FileSink.write, replace, hcreate] at h
    cases h

/-- What has been written through a path without links can be read through it, and written again in
the same way. -/
theorem FileSink.write_again {s : FileSink} {t : FileTree} {text : String}
    (hlink : t.passesLink [] (Path.ofBytes s.path).names.dropLast = false)
    (hok : (s.write t text).1 = .ok ()) :
    (s.write t text).2.readText s.path = .ok text ∧
      s.write (s.write t text).2 text = (.ok (), (s.write t text).2) := by
  obtain ⟨p, hcreate⟩ := FileSink.createTemporary_of_write hok
  rcases s.write_cases t text .sound with ⟨l, htarget, hwrite⟩ | ⟨c, herror, -⟩
  case inr =>
    rw [herror] at hok
    cases hok
  rw [hwrite]
  have hresolve := resolve_insert_target htarget hlink (t.replacementMode s.path) text.toUTF8
  refine ⟨readText_eq_ok_iff.2 (by rw [FileTree.read, hresolve]; rfl), ?_⟩
  obtain ⟨p', hcreate'⟩ := createTemporary_insert_target htarget hlink hcreate
    (t.replacementMode s.path) text.toUTF8
  have htarget' := target_insert_target htarget hlink (t.replacementMode s.path) text.toUTF8
  rw [FileSink.write_of_target hcreate' htarget', replacementMode_insert_target htarget hlink,
    insert_insert]

end FieldMacros
