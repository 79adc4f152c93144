import FieldMacros.Proofs.FileTree.Replace
import FieldMacros.Proofs.Header.Lines
import FieldMacros.Run.Basic

/-!
# The modes of a run

A run is refused before it touches anything, or it checks a file, prints the
header or writes the file (`run_cases`). For each mode one lemma says how the
run ends, which tree it leaves and what stands on standard output.
-/

namespace FieldMacros

open CommandLine (Options stdoutName)

namespace Depth

theorem accept_level (d : Depth) : accept d.level = .ok d := by
  rw [accept, ofInt?_eq_some_iff.2 rfl]

theorem accept_cases (z : Int) :
    (∃ d : Depth, z = d.level) ∨ accept z = .error (.invalidDepth z) := by
  unfold accept
  split
  · next d hd => exact .inl ⟨d, ofInt?_eq_some_iff.1 hd⟩
  · exact .inr rfl

theorem exists_level_eq {z : Int} (h : 1 ≤ z) : ∃ d : Depth, z = d.level :=
  ⟨⟨z.toNat, by omega⟩, by simp only; omega⟩

end Depth

namespace CommandLine.Options

theorem writesToStdout_iff {o : Options} : o.writesToStdout = true ↔ o.outfile = stdoutName := by
  simp [writesToStdout]

theorem writesToStdout_eq_false_iff {o : Options} :
    o.writesToStdout = false ↔ o.outfile ≠ stdoutName := by
  rw [Bool.eq_false_iff, ne_eq, writesToStdout_iff]

/-- A check of standard output is refused first, then a depth below one. -/
theorem header_eq (o : Options) :
    o.header =
      if o.check = true ∧ o.outfile = stdoutName then .error .checkStdout
      else (Depth.accept o.maxDepth).map .ofDepth := by
  simp only [header, Bool.and_eq_true, writesToStdout_iff]
  split
  · rfl
  · cases Depth.accept o.maxDepth with
    | error e => rfl
    | ok d => simp [bind, Except.bind, Except.map]

end CommandLine.Options

/-! ## Verdicts -/

namespace Verdict

theorem result_write (o : Options) (h : Header) (bytes : Nat) (r : Except Error Unit) :
    (write o h bytes r).result = r := by
  cases r <;> rfl

theorem result_comparison (o : Options) (existing generated : String) :
    (comparison o existing generated).result =
      if existing = generated then .ok () else .error (.outOfDate o.outfile) := by
  unfold comparison
  split <;> rfl

/-- How a check ends: only a missing file counts as a text, the empty one. -/
theorem result_check {generated : String} (hne : generated ≠ "") (o : Options)
    (r : Except IoCause String) :
    (check o generated r).result =
      match r with
      | .ok existing => if existing = generated then .ok () else .error (.outOfDate o.outfile)
      | .error .notFound => .error (.outOfDate o.outfile)
      | .error c => .error (.io o.outfile c) := by
  cases r with
  | ok existing => exact result_comparison o existing generated
  | error c =>
    cases c with
    | notFound => exact (result_comparison o "" generated).trans (if_neg (Ne.symm hne))
    | _ => rfl

theorem result_check_eq_ok_iff {generated : String} (hne : generated ≠ "") {o : Options}
    {r : Except IoCause String} :
    (check o generated r).result = .ok () ↔ r = .ok generated := by
  rw [result_check hne]
  cases r with
  | ok existing => by_cases h : existing = generated <;> simp [h]
  | error c => cases c <;> simp

end Verdict

/-! ## Runs -/

theorem run_refused {o : Options} {e : Error} (h : o.header = .error e) (t : FileTree)
    (out : Stdout) : run o t out = ⟨⟨.error e, []⟩, t, ""⟩ := by
  rw [run, Options.action, h]
  rfl

theorem run_of_header {o : Options} {h : Header} (hh : o.header = .ok h) (t : FileTree)
    (out : Stdout) :
    run o t out =
      let (v, t', printed) := (deliver o h).perform t out
      ⟨v.after (Verdict.generation h), t', printed⟩ := by
  rw [run, Options.action, hh, Action.perform_map]

/-- How a run ends, which tree it leaves and what it has printed. -/
def Outcome.effect (o : Outcome) : Except Error Unit × FileTree × String :=
  (o.verdict.result, o.tree, o.stdout)

theorem Outcome.effect_eq_iff {o : Outcome} {r : Except Error Unit} {t : FileTree} {s : String} :
    o.effect = (r, t, s) ↔ o.verdict.result = r ∧ o.tree = t ∧ o.stdout = s := by
  simp [effect]

section Modes

variable {o : Options} {d : Depth} (hdepth : o.maxDepth = d.level)

include hdepth

theorem header_of_not_refused (h : ¬(o.check = true ∧ o.outfile = stdoutName)) :
    o.header = .ok (.ofDepth d) := by
  rw [o.header_eq, if_neg h, hdepth, Depth.accept_level]
  rfl

theorem run_check (hcheck : o.check = true) (hout : o.outfile ≠ stdoutName) (t : FileTree)
    (out : Stdout) :
    (run o t out).effect =
      ((Verdict.check o (Header.text d) (t.readText o.outfile)).result, t, "") := by
  rw [run_of_header (header_of_not_refused hdepth fun h => hout h.2), deliver_of_check _ hcheck]
  rfl

theorem run_print (hcheck : o.check = false) (hout : o.outfile = stdoutName) (t : FileTree)
    (out : Stdout) :
    (run o t out).effect =
      ((Verdict.print (out.put (Header.text d)).1).result, t, (out.put (Header.text d)).2) := by
  rw [run_of_header (header_of_not_refused hdepth fun h => by simp [hcheck] at h),
    deliver_of_stdout _ hcheck (Options.writesToStdout_iff.2 hout)]
  rfl

theorem run_write (hcheck : o.check = false) (hout : o.outfile ≠ stdoutName) (t : FileTree)
    (out : Stdout) :
    (run o t out).effect =
      (((FileSink.mk o.outfile).write t (Header.text d)).1,
        ((FileSink.mk o.outfile).write t (Header.text d)).2, "") := by
  rw [run_of_header (header_of_not_refused hdepth fun h => hout h.2),
    deliver_of_file _ hcheck (Options.writesToStdout_eq_false_iff.2 hout)]
  simp only [Action.perform, Outcome.effect, Verdict.after, Verdict.result_write]
  rfl

end Modes

/-- A run is refused, or it has a depth and does one of three things. -/
theorem run_cases (o : Options) (t : FileTree) (out : Stdout) :
    (∃ e, (run o t out).effect = (.error e, t, "")) ∨
      ∃ d : Depth, o.maxDepth = d.level ∧
        ((o.check = true ∧ (run o t out).effect =
            ((Verdict.check o (Header.text d) (t.readText o.outfile)).result, t, "")) ∨
          (o.check = false ∧ o.outfile = stdoutName ∧ (run o t out).effect =
            ((Verdict.print (out.put (Header.text d)).1).result, t,
              (out.put (Header.text d)).2)) ∨
          (o.check = false ∧ o.outfile ≠ stdoutName ∧ (run o t out).effect =
            (((FileSink.mk o.outfile).write t (Header.text d)).1,
              ((FileSink.mk o.outfile).write t (Header.text d)).2, ""))) := by
  by_cases hrefused : o.check = true ∧ o.outfile = stdoutName
  · have hheader : o.header = .error .checkStdout := by rw [o.header_eq, if_pos hrefused]
    exact .inl ⟨_, by rw [run_refused hheader, Outcome.effect]⟩
  rcases Depth.accept_cases o.maxDepth with ⟨d, hdepth⟩ | hinvalid
  · refine .inr ⟨d, hdepth, ?_⟩
    cases hcheck : o.check with
    | true =>
      have hout : o.outfile ≠ stdoutName := fun h => hrefused ⟨hcheck, h⟩
      exact .inl ⟨rfl, run_check hdepth hcheck hout t out⟩
    | false =>
      by_cases hout : o.outfile = stdoutName
      · exact .inr (.inl ⟨rfl, hout, run_print hdepth hcheck hout t out⟩)
      · exact .inr (.inr ⟨rfl, hout, run_write hdepth hcheck hout t out⟩)
  · have hheader : o.header = .error (.invalidDepth o.maxDepth) := by
      rw [o.header_eq, if_neg hrefused, hinvalid]
      rfl
    exact .inl ⟨_, by rw [run_refused hheader, Outcome.effect]⟩

end FieldMacros
