import FieldMacros.Run.Action
import FieldMacros.Run.Verdict

/-!
# One run on a file tree

A run generates the whole header in memory and then does one of three things:
it compares the text with a file, prints it, or replaces the file.
-/

namespace FieldMacros

open CommandLine (Options)

/-- What a run does with a header. -/
def deliver (o : Options) (h : Header) : Action Verdict :=
  let text := h.render
  if o.check then .read o.outfile fun r => Verdict.check o text (r >>= decodeText)
  else if o.writesToStdout then .print text Verdict.print
  else .replace o.outfile text.toUTF8 fun r =>
    Verdict.write o h text.utf8ByteSize ((FileSink.mk o.outfile).report r)

section

variable {o : Options} (h : Header)

theorem deliver_of_check (hcheck : o.check = true) :
    deliver o h = .read o.outfile fun r => Verdict.check o h.render (r >>= decodeText) :=
  if_pos hcheck

theorem deliver_of_stdout (hcheck : o.check = false) (hstdout : o.writesToStdout = true) :
    deliver o h = .print h.render Verdict.print := by
  simp only [deliver, hcheck, hstdout, Bool.false_eq_true, if_false, if_true]

theorem deliver_of_file (hcheck : o.check = false) (hstdout : o.writesToStdout = false) :
    deliver o h = .replace o.outfile h.render.toUTF8 fun r =>
      Verdict.write o h h.render.utf8ByteSize ((FileSink.mk o.outfile).report r) := by
  simp only [deliver, hcheck, hstdout, Bool.false_eq_true, if_false]

end

def CommandLine.Options.action (o : Options) : Action Verdict :=
  match o.header with
  | .error e => .done ⟨.error e, []⟩
  | .ok h => (deliver o h).map (Verdict.after (Verdict.generation h))

structure Outcome where
  verdict : Verdict
  tree : FileTree
  stdout : String

/-- One run. -/
def run (o : Options) (t : FileTree) (out : Stdout) : Outcome :=
  let (verdict, t', printed) := o.action.perform t out
  ⟨verdict, t', printed⟩

end FieldMacros
