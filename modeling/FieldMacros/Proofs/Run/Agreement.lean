import FieldMacros.Proofs.FileTree.Reread
import FieldMacros.Proofs.Run.Modes

/-!
# Writing and checking agree

A check reads through links and a write does not follow the last one. Without
links before the last name they mean the same file, so a check right after a
write tells whether the depths are the same, and the same write again changes
nothing (`check_after_write`).
-/

namespace FieldMacros

open CommandLine (Options stdoutName)

/-- A run that has written a file has a depth, and its sink has written the header of it. -/
theorem write_of_run {o : Options} {t : FileTree} {out : Stdout} (hcheck : o.check = false)
    (hout : o.outfile ≠ stdoutName) (hok : (run o t out).verdict.result = .ok ()) :
    ∃ d : Depth, o.maxDepth = d.level ∧
      ((FileSink.mk o.outfile).write t (Header.text d)).1 = .ok () ∧
      (run o t out).tree = ((FileSink.mk o.outfile).write t (Header.text d)).2 := by
  rcases run_cases o t out with ⟨e, heffect⟩ | ⟨d, hdepth, -⟩
  · rw [(Outcome.effect_eq_iff.1 heffect).1] at hok
    cases hok
  · obtain ⟨hresult, htree, -⟩ :=
      Outcome.effect_eq_iff.1 (run_write hdepth hcheck hout t out)
    exact ⟨d, hdepth, hresult.symm.trans hok, htree⟩

/-- A check right after a write goes well if the depths are the same and finds the file out of date
otherwise; the same write goes well again and leaves the same tree. -/
theorem check_after_write {o : Options} {t : FileTree} {out : Stdout}
    (hcheck : o.check = false) (hout : o.outfile ≠ stdoutName)
    (hlink : t.passesLink [] (Path.ofBytes o.outfile).names.dropLast = false)
    (hok : (run o t out).verdict.result = .ok ()) (o' : Options) (out' : Stdout)
    (hfile : o'.outfile = o.outfile) :
    (o'.check = true → 1 ≤ o'.maxDepth →
      (run o' (run o t out).tree out').effect =
        (if o'.maxDepth = o.maxDepth then .ok () else .error (.outOfDate o.outfile),
          (run o t out).tree, "")) ∧
    (o'.check = false → o'.maxDepth = o.maxDepth →
      (run o' (run o t out).tree out').effect = (.ok (), (run o t out).tree, "")) := by
  obtain ⟨d, hdepth, hwrite, htree⟩ := write_of_run hcheck hout hok
  obtain ⟨hread, hagain⟩ := FileSink.write_again (s := ⟨o.outfile⟩) hlink hwrite
  rw [← htree] at hread hagain
  have hout' : o'.outfile ≠ stdoutName := hfile ▸ hout
  constructor
  · intro hcheck' hpos
    obtain ⟨e, he⟩ := Depth.exists_level_eq hpos
    have hsame : Header.text d = Header.text e ↔ o'.maxDepth = o.maxDepth := by
      rw [he, hdepth, Int.ofNat_inj]
      constructor
      · intro htext
        rw [Header.text_injective htext]
      · intro hlevel
        rw [Depth.level_injective hlevel]
    rw [run_check he hcheck' hout', Verdict.result_check (Header.text_ne_empty e), hfile, hread]
    simp only [hsame]
  · intro hcheck' hsame
    rw [run_write (hsame.trans hdepth) hcheck' hout', hfile, hagain]

/-- The file name is that of a dangling link in a directory. -/
theorem check_after_write_dangling :
    let path : Bytes := [0x64, 0x2F, 0x61]
    let t : FileTree :=
      ⟨0o755, 0, [([[0x64]], .directory 0o755), ([[0x64], [0x61]], .link [0x62])]⟩
    let o : Options := ⟨path, 2, false, 0, false⟩
    path ≠ stdoutName ∧ t.passesLink [] (Path.ofBytes path).names.dropLast = false ∧
      (run o t .writable).verdict.result = .ok () ∧
      (run ⟨path, 2, true, 1, false⟩ (run o t .writable).tree .writable).effect =
        (.ok (), (run o t .writable).tree, "") ∧
      (run ⟨path, 1, true, 0, true⟩ (run o t .writable).tree .writable).effect =
        (.error (.outOfDate path), (run o t .writable).tree, "") ∧
      (run ⟨path, 2, false, 0, true⟩ (run o t .writable).tree .writable).effect =
        (.ok (), (run o t .writable).tree, "") := by
  intro path t o
  have hout : o.outfile ≠ stdoutName := by decide
  have hlink : t.passesLink [] (Path.ofBytes path).names.dropLast = false := by decide
  have hdir : t.directory [[0x64]] = .ok [[0x64]] := by
    refine FileTree.directory_eq_ok_iff.2 ⟨?_, 0o755, rfl⟩
    rw [FileTree.walk, if_neg (by decide), if_neg (by decide), if_neg (by decide)]
    change t.walk FileTree.linkLimit [[0x64]] [] = _
    rw [FileTree.walk]
  have hentry : t.get? [[0x64], [0x61]] = some (.link [0x62]) := rfl
  have htarget : t.target o.outfile = .ok [[0x64], [0x61]] :=
    FileTree.target_eq_ok_iff.2 ⟨rfl, rfl, [[0x64]], [0x61], rfl, hdir, by decide, by decide,
      by decide, rfl, by simp [hentry]⟩
  have hcreate : t.createTemporary o.outfile = .ok _ :=
    FileTree.createTemporary_eq_ok_iff.2 ⟨rfl, by decide, [[0x64]], hdir, rfl⟩
  have hwrite := FileSink.write_of_target (s := ⟨o.outfile⟩) hcreate htarget
    (Header.text ⟨2, by decide⟩)
  have heffect := run_write (d := ⟨2, by decide⟩) rfl rfl hout t .writable
  rw [hwrite] at heffect
  have hok : (run o t .writable).verdict.result = .ok () := (Outcome.effect_eq_iff.1 heffect).1
  have hafter := check_after_write rfl hout hlink hok
  exact ⟨hout, hlink, hok, (hafter ⟨path, 2, true, 1, false⟩ .writable rfl).1 rfl (by decide),
    (hafter ⟨path, 1, true, 0, true⟩ .writable rfl).1 rfl (by decide),
    (hafter ⟨path, 2, false, 0, true⟩ .writable rfl).2 rfl rfl⟩

end FieldMacros
