import FieldMacros.Proofs.FileTree.Journey
import FieldMacros.Proofs.Run.Modes

/-!
# How a check ends

A check changes nothing and prints nothing. It tells three cases apart: the
path leads to the header, there is nothing at the path or another text, or there
is something that is no text (`check_result_iff`).
-/

namespace FieldMacros

open CommandLine (Options stdoutName)

theorem Verdict.result_check_eq_outOfDate_iff {generated : String} (hne : generated ≠ "")
    {o : Options} {r : Except IoCause String} :
    (check o generated r).result = .error (.outOfDate o.outfile) ↔
      r = .error .notFound ∨ ∃ s, r = .ok s ∧ s ≠ generated := by
  rw [result_check hne]
  cases r with
  | ok existing => by_cases h : existing = generated <;> simp [h]
  | error c => cases c <;> simp

theorem Verdict.result_check_eq_io_iff {generated : String} (hne : generated ≠ "") {o : Options}
    {r : Except IoCause String} {c : IoCause} :
    (check o generated r).result = .error (.io o.outfile c) ↔ r = .error c ∧ c ≠ .notFound := by
  rw [result_check hne]
  cases r with
  | ok existing => by_cases h : existing = generated <;> simp [h]
  | error c' => cases c' <;> cases c <;> simp

/-- A check leaves the tree alone and prints nothing. It goes well if and only if the path leads to
a file with the bytes of the header. The file is out of date if and only if there is none or it
holds another text; whatever else keeps it from being read is the cause of the error. There are no
other outcomes. -/
theorem check_result_iff {o : Options} {d : Depth} (hcheck : o.check = true)
    (hout : o.outfile ≠ stdoutName) (hdepth : o.maxDepth = d.level) (t : FileTree) (out : Stdout) :
    (run o t out).tree = t ∧ (run o t out).stdout = "" ∧
    ((run o t out).verdict.result = .ok () ↔
      ∃ l mode, t.Leads o.outfile (.ok (l, .file mode (Header.text d).toUTF8))) ∧
    ((run o t out).verdict.result = .error (.outOfDate o.outfile) ↔
      t.Unreadable o.outfile .notFound ∨
        ∃ l mode s, t.Leads o.outfile (.ok (l, .file mode s.toUTF8)) ∧ s ≠ Header.text d) ∧
    (∀ c, (run o t out).verdict.result = .error (.io o.outfile c) ↔
      t.Unreadable o.outfile c ∧ c ≠ .notFound) ∧
    ((run o t out).verdict.result = .ok () ∨
      (run o t out).verdict.result = .error (.outOfDate o.outfile) ∨
      ∃ c ∈ [.isADirectory, .notADirectory, .linkLoop, .nameTooLong, .nulInPath, .notUtf8],
        (run o t out).verdict.result = .error (.io o.outfile c)) := by
  obtain ⟨hresult, htree, hstdout⟩ :=
    Outcome.effect_eq_iff.1 (run_check hdepth hcheck hout t out)
  have hne := Header.text_ne_empty d
  have hreads : ∀ s, t.readText o.outfile = .ok s ↔
      ∃ l mode, t.Leads o.outfile (.ok (l, .file mode s.toUTF8)) := fun s =>
    FileTree.readText_eq_ok_iff.trans FileTree.read_eq_ok_iff
  have hok := Verdict.result_check_eq_ok_iff (o := o) (r := t.readText o.outfile) hne
  have hstale := Verdict.result_check_eq_outOfDate_iff (o := o) (r := t.readText o.outfile) hne
  have hio : ∀ c, _ := fun c =>
    Verdict.result_check_eq_io_iff (o := o) (r := t.readText o.outfile) (c := c) hne
  rw [hresult]
  refine ⟨htree, hstdout, hok.trans (hreads _), hstale.trans ?_, fun c => (hio c).trans ?_, ?_⟩
  · rw [FileTree.readText_eq_error_iff]
    refine or_congr_right ⟨?_, ?_⟩
    · rintro ⟨s, hs, hdiff⟩
      obtain ⟨l, mode, hleads⟩ := (hreads s).1 hs
      exact ⟨l, mode, s, hleads, hdiff⟩
    · rintro ⟨l, mode, s, hleads, hdiff⟩
      exact ⟨s, (hreads s).2 ⟨l, mode, hleads⟩, hdiff⟩
  · rw [FileTree.readText_eq_error_iff]
  · cases hread : t.readText o.outfile with
    | ok s =>
      rw [hread] at hok hstale
      by_cases hs : s = Header.text d
      · exact .inl (hok.2 (congrArg _ hs))
      · exact .inr (.inl (hstale.2 (.inr ⟨s, rfl, hs⟩)))
    | error c =>
      rw [hread] at hstale hio
      by_cases hc : c = .notFound
      · exact .inr (.inl (hstale.2 (.inl (congrArg _ hc))))
      · have hmem := (FileTree.readText_eq_error_iff.1 hread).cause_mem
        exact .inr (.inr ⟨c, (List.mem_cons.1 hmem).resolve_left hc, (hio c).2 ⟨rfl, hc⟩⟩)

/-- A link leads to the header in a directory, another one leads nowhere. -/
theorem check_result_iff_links :
    let content := (Header.text .one).toUTF8
    let t : FileTree := ⟨0o755, 0, [([[0x6C]], .link [0x64, 0x2F, 0x66]), ([[0x64]], .directory 0o755),
      ([[0x64], [0x66]], .file 0o644 content), ([[0x67]], .link [0x6E])]⟩
    (run ⟨[0x6C], 1, true, 0, false⟩ t .writable).verdict.result = .ok () ∧
      (run ⟨[0x67], 1, true, 2, false⟩ t .full).verdict.result =
        .error (.outOfDate [0x67]) := by
  intro content t
  have hname : ∀ n : Bytes, n ∈ [[0x6C], [0x64], [0x66], [0x67], [0x6E]] →
      FileTree.IsEntryName n := by
    intro n hn
    simp only [List.mem_cons, List.not_mem_nil, or_false] at hn
    rcases hn with rfl | rfl | rfl | rfl | rfl <;> exact ⟨by decide, by decide, by decide⟩
  have hfile : t.Leads [0x6C] (.ok ([[0x64], [0x66]], .file 0o644 content)) := by
    have hlink : FileTree.Step t ⟨40, [], [[0x6C]]⟩ ⟨39, [], [[0x64], [0x66]]⟩ :=
      @FileTree.Step.follow t 39 [] [0x6C] [] [0x64, 0x2F, 0x66] (hname _ (by decide)) rfl
    have hdir : FileTree.Step t ⟨39, [], [[0x64], [0x66]]⟩ ⟨39, [[0x64]], [[0x66]]⟩ :=
      .enter (hname [0x64] (by decide)) rfl
    have hstop : FileTree.Stops t ⟨39, [[0x64]], [[0x66]]⟩
        (.ok ([[0x64], [0x66]], .file 0o644 content)) :=
      .file (hname [0x66] (by decide)) rfl
    exact .walked rfl (.head hlink (.single hdir)) hstop
  have hdangling : t.Leads [0x67] (.error .notFound) := by
    have hlink : FileTree.Step t ⟨40, [], [[0x67]]⟩ ⟨39, [], [[0x6E]]⟩ :=
      @FileTree.Step.follow t 39 [] [0x67] [] [0x6E] (hname _ (by decide)) rfl
    have hstop : FileTree.Stops t ⟨39, [], [[0x6E]]⟩ (.error .notFound) :=
      .missing (hname [0x6E] (by decide)) rfl
    exact .walked rfl (.single hlink) hstop
  obtain ⟨-, -, hok, -⟩ := check_result_iff (o := ⟨[0x6C], 1, true, 0, false⟩) (d := .one) rfl
    (by decide) rfl t .writable
  obtain ⟨-, -, -, hstale, -⟩ := check_result_iff (o := ⟨[0x67], 1, true, 2, false⟩) (d := .one) rfl
    (by decide) rfl t .full
  exact ⟨hok.2 ⟨_, _, hfile⟩, hstale.2 (.inl (.nowhere hdangling))⟩

end FieldMacros
