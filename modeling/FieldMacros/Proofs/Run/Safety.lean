import FieldMacros.Proofs.Run.Modes
import FieldMacros.Run.Program

/-!
# What an execution can do

An execution that fails leaves the tree as it found it and prints nothing. One
that exits with 0 has printed a text or the header, has found the file to be
the header, or has replaced one entry of the tree by the header
(`execute_safe`).
-/

namespace FieldMacros

open CommandLine (Options parse stdoutName helpText versionText)

/-- What a run that went well has done for a depth, to a tree and to standard output. -/
inductive Accomplished (o : Options) (d : Depth) (t : FileTree) : FileTree → String → Prop
  /-- The header has been printed. -/
  | printed (hcheck : o.check = false) (hout : o.outfile = stdoutName) :
      Accomplished o d t t (Header.text d)
  /-- The file has been found to be the header. -/
  | checked (hcheck : o.check = true)
      (hread : t.read o.outfile = .ok (Header.text d).toUTF8) :
      Accomplished o d t t ""
  /-- The entry that the path names has become a file with the header. -/
  | written {t' : FileTree} {l : Location} {mode : Nat} (hcheck : o.check = false)
      (hout : o.outfile ≠ stdoutName) (hnamed : t.named? o.outfile = some l)
      (hget : ∀ k, t'.get? k =
        if k = l then some (.file mode (Header.text d).toUTF8) else t.get? k) :
      Accomplished o d t t' ""

/-- A run goes well and has done what it was asked for, or it fails and has done nothing. -/
theorem run_accomplished_or_failed (o : Options) (t : FileTree) :
    ((run o t .writable).verdict.result = .ok () ∧ ∃ d : Depth, o.maxDepth = d.level ∧
      Accomplished o d t (run o t .writable).tree (run o t .writable).stdout) ∨
    ∃ e, (run o t .writable).effect = (.error e, t, "") := by
  rcases run_cases o t .writable with hrefused | ⟨d, hdepth, hmode⟩
  · exact .inr hrefused
  rcases hmode with ⟨hcheck, heffect⟩ | ⟨hcheck, hout, heffect⟩ | ⟨hcheck, hout, heffect⟩
  · cases hresult : (Verdict.check o (Header.text d) (t.readText o.outfile)).result with
    | error e => exact .inr ⟨e, hresult ▸ heffect⟩
    | ok u =>
      rw [hresult] at heffect
      obtain ⟨hok, htree, hstdout⟩ := Outcome.effect_eq_iff.1 heffect
      have hread := (Verdict.result_check_eq_ok_iff (Header.text_ne_empty d)).1 hresult
      rw [htree, hstdout]
      exact .inl ⟨hok, d, hdepth, .checked hcheck (FileTree.readText_eq_ok_iff.1 hread)⟩
  · obtain ⟨hok, htree, hstdout⟩ := Outcome.effect_eq_iff.1 heffect
    rw [htree, hstdout]
    exact .inl ⟨hok, d, hdepth, .printed hcheck hout⟩
  · rcases FileSink.write_cases ⟨o.outfile⟩ t (Header.text d) .sound with
      ⟨l, htarget, hwrite⟩ | ⟨c, hwrite, -⟩
    · rw [hwrite] at heffect
      obtain ⟨hok, htree, hstdout⟩ := Outcome.effect_eq_iff.1 heffect
      rw [htree, hstdout]
      exact .inl ⟨hok, d, hdepth, .written hcheck hout (FileTree.named?_of_target htarget)
        fun k => FileTree.get?_insert (FileTree.ne_nil_of_target htarget) t k _⟩
    · rw [hwrite] at heffect
      exact .inr ⟨_, heffect⟩

/-- An execution exits with 0, 1 or 2. Unless it is 0, the tree is the one of before and nothing
has been printed; if it is, the command line has asked for a text, or for a run that has done what
it is for. -/
theorem execute_safe (args : List Bytes) (t : FileTree) (setting : Option String) (colors : Bool) :
    let x := execute args ⟨t, .writable, setting, colors⟩
    x.exitCode ∈ [0, 1, 2] ∧
      (x.exitCode ≠ 0 → x.tree = t ∧ x.stdout = "") ∧
      (x.exitCode = 0 →
        ((parse args = .error .help ∧ x.stdout = helpText ∨
          parse args = .error .version ∧ x.stdout = versionText) ∧ x.tree = t) ∨
        ∃ (o : Options) (d : Depth), parse args = .ok o ∧ o.maxDepth = d.level ∧
          Accomplished o d t x.tree x.stdout) := by
  intro x
  have hx : x = execute args ⟨t, .writable, setting, colors⟩ := rfl
  clear_value x
  cases hparse : parse args with
  | error stop =>
    cases stop with
    | help =>
      rw [execute_help _ hparse] at hx
      subst hx
      exact ⟨List.mem_cons_self, fun h => absurd rfl h, fun _ => .inl ⟨.inl ⟨rfl, rfl⟩, rfl⟩⟩
    | version =>
      rw [execute_version _ hparse] at hx
      subst hx
      exact ⟨List.mem_cons_self, fun h => absurd rfl h, fun _ => .inl ⟨.inr ⟨rfl, rfl⟩, rfl⟩⟩
    | refused r =>
      rw [execute_refused _ hparse] at hx
      subst hx
      exact ⟨by simp, fun _ => ⟨rfl, rfl⟩, nofun⟩
  | ok o =>
    rw [execute_run _ hparse, Execution.ofRun_eq] at hx
    have htree : x.tree = (run o t .writable).tree := by rw [hx]
    have hstdout : x.stdout = (run o t .writable).stdout := by rw [hx]
    have hcode : x.exitCode = Ending.codeOf (run o t .writable).verdict.result := by
      rw [hx]
      rfl
    rw [htree, hstdout, hcode]
    rcases run_accomplished_or_failed o t with ⟨hok, d, hdepth, hdone⟩ | ⟨e, heffect⟩
    · rw [hok]
      exact ⟨List.mem_cons_self, fun h => absurd rfl h, fun _ => .inr ⟨o, d, rfl, hdepth, hdone⟩⟩
    · obtain ⟨herror, hsame, hnothing⟩ := Outcome.effect_eq_iff.1 heffect
      rw [herror]
      exact ⟨by simp [Ending.codeOf], fun _ => ⟨hsame, hnothing⟩, nofun⟩

end FieldMacros
