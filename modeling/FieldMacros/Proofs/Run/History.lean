import FieldMacros.Proofs.FileTree.PlainName
import FieldMacros.Proofs.Run.Modes

/-!
# Histories of runs

Runs are made one after the other, each on the tree that the one before has
left. When they all name their files plainly, each writes one entry or nothing
(`Record.wrote_or_kept`). So a file holds what the last run that wrote it has
put there, and it has the mode that it had at first (`last_write_decides`).
-/

namespace FieldMacros

open CommandLine (Options stdoutName)
open FileTree FieldMacros.Path

structure Call where
  options : Options
  stdout : Stdout

/-- A run that has been made, with the tree that it was made on. -/
structure Record extends Call where
  before : FileTree

namespace Record

def outcome (r : Record) : Outcome :=
  run r.options r.before r.stdout

def result (r : Record) : Except Error Unit :=
  r.outcome.verdict.result

def after (r : Record) : FileTree :=
  r.outcome.tree

/-- Whether the run has written the file with the given name. One that fails, checks or prints
writes none. -/
def wrote (name : Bytes) (r : Record) : Bool :=
  r.options.outfile == name && !r.options.check && !r.options.writesToStdout && r.result.isOk

end Record

/-- The runs with the trees that they are made on. -/
def history (t : FileTree) : List Call → List Record
  | [] => []
  | c :: cs => ⟨c, t⟩ :: history (Record.mk c t).after cs

def afterAll (t : FileTree) : List Call → FileTree
  | [] => t
  | c :: cs => afterAll (Record.mk c t).after cs

/-- The last run that has written the file with the given name. -/
def lastWrite (name : Bytes) (rs : List Record) : Option Record :=
  (rs.filter (·.wrote name)).getLast?

theorem call_mem_of_mem_history {t : FileTree} {cs : List Call} {r : Record}
    (h : r ∈ history t cs) : r.toCall ∈ cs := by
  induction cs generalizing t with
  | nil => cases h
  | cons c cs ih =>
    rcases List.mem_cons.1 h with rfl | h
    · exact List.mem_cons_self
    · exact List.mem_cons_of_mem c (ih h)

theorem lastWrite_cons (name : Bytes) (r : Record) (rs : List Record) :
    lastWrite name (r :: rs) =
      (lastWrite name rs).or (if r.wrote name then some r else none) := by
  unfold lastWrite
  rw [List.filter_cons]
  split
  · rw [List.getLast?_cons]
    cases (rs.filter (·.wrote name)).getLast? <;> rfl
  · rw [Option.or_none]

theorem lastWrite_eq_none_iff {name : Bytes} {rs : List Record} :
    lastWrite name rs = none ↔ ∀ r ∈ rs, r.wrote name = false := by
  simp [lastWrite]

/-! ## One run -/

namespace Record

variable {r : Record} (hplain : IsPlainName r.options.outfile)

theorem wrote_eq_false_of_result {e : Error} (h : r.result = .error e) (name : Bytes) :
    r.wrote name = false := by
  simp [wrote, h, Except.isOk, Except.toBool]

include hplain

/-- A run that is to write a file does so unless the name is that of a directory or there is no room
for a temporary file. -/
theorem write_cases {d : Depth} (hdepth : r.options.maxDepth = d.level)
    (hcheck : r.options.check = false) (hout : r.options.outfile ≠ stdoutName) :
    ((∀ mode, r.before.get? [r.options.outfile] ≠ some (.directory mode)) ∧ r.result = .ok () ∧
      r.after = r.before.insert [r.options.outfile]
        (.file (r.before.replacementMode r.options.outfile) (Header.text d).toUTF8)) ∨
    (r.before.HasRoom → ∃ mode, r.before.get? [r.options.outfile] = some (.directory mode)) ∧
      (∃ e, r.result = .error e) ∧ r.after = r.before := by
  have heffect := run_write hdepth hcheck hout r.before r.stdout
  have hsink : IsPlainName (FileSink.mk r.options.outfile).path := hplain
  rcases FileSink.write_plainName_cases hsink r.before (Header.text d) with
    ⟨hdir, hwrite⟩ | ⟨hdir, c, hwrite⟩
  · rw [hwrite] at heffect
    obtain ⟨hresult, hafter, -⟩ := Outcome.effect_eq_iff.1 heffect
    exact .inl ⟨hdir, hresult, hafter⟩
  · rw [hwrite] at heffect
    obtain ⟨hresult, hafter, -⟩ := Outcome.effect_eq_iff.1 heffect
    exact .inr ⟨hdir, ⟨_, hresult⟩, hafter⟩

/-- A run writes the one file that it names, or it changes nothing. -/
theorem wrote_or_kept :
    (∃ d : Depth, r.options.maxDepth = d.level ∧
      (∀ name, r.wrote name = (r.options.outfile == name)) ∧
      r.after = r.before.insert [r.options.outfile]
        (.file (r.before.replacementMode r.options.outfile) (Header.text d).toUTF8)) ∨
    (∀ name, r.wrote name = false) ∧ r.after = r.before := by
  rcases run_cases r.options r.before r.stdout with ⟨e, heffect⟩ | ⟨d, hdepth, hmode⟩
  · obtain ⟨hresult, hafter, -⟩ := Outcome.effect_eq_iff.1 heffect
    exact .inr ⟨wrote_eq_false_of_result hresult, hafter⟩
  rcases hmode with ⟨hcheck, heffect⟩ | ⟨hcheck, hout, heffect⟩ | ⟨hcheck, hout, -⟩
  · exact .inr ⟨fun name => by simp [wrote, hcheck], (Outcome.effect_eq_iff.1 heffect).2.1⟩
  · have hstdout := Options.writesToStdout_iff.2 hout
    exact .inr ⟨fun name => by simp [wrote, hstdout], (Outcome.effect_eq_iff.1 heffect).2.1⟩
  · rcases write_cases hplain hdepth hcheck hout with
      ⟨-, hresult, hafter⟩ | ⟨-, ⟨e, hresult⟩, hafter⟩
    · have hstdout := Options.writesToStdout_eq_false_iff.2 hout
      have hwrote name : r.wrote name = (r.options.outfile == name) := by
        simp [wrote, hcheck, hstdout, hresult, Except.isOk, Except.toBool]
      exact .inl ⟨d, hdepth, hwrote, hafter⟩
    · exact .inr ⟨wrote_eq_false_of_result hresult, hafter⟩

theorem rootLength_after : r.after.rootLength = r.before.rootLength := by
  rcases wrote_or_kept hplain with ⟨d, -, -, hafter⟩ | ⟨-, hafter⟩
  · rw [hafter]
    rfl
  · rw [hafter]

theorem get?_of_wrote {name : Bytes} (h : r.wrote name = true) :
    ∃ (d : Depth) (mode : Nat), r.options.maxDepth = d.level ∧
      r.after.get? [name] = some (.file mode (Header.text d).toUTF8) := by
  rcases wrote_or_kept hplain with ⟨d, hdepth, hwrote, hafter⟩ | ⟨hwrote, -⟩
  · rw [hwrote, beq_iff_eq] at h
    subst h
    exact ⟨d, _, hdepth, by rw [hafter, get?_insert (List.cons_ne_nil _ _), if_pos rfl]⟩
  · rw [hwrote] at h
    cases h

theorem get?_of_not_wrote {l : Location} (h : ∀ name, l = [name] → r.wrote name = false) :
    r.after.get? l = r.before.get? l := by
  rcases wrote_or_kept hplain with ⟨d, -, hwrote, hafter⟩ | ⟨-, hafter⟩
  · rw [hafter, get?_insert (List.cons_ne_nil _ _), if_neg]
    intro hl
    have hself := h _ hl
    rw [hwrote, beq_self_eq_true] at hself
    cases hself
  · rw [hafter]

/-- What a later run finds under a name leads to the same mode as what was there before. -/
theorem keptMode?_after {name : Bytes} {mode : Nat}
    (h : keptMode? (r.before.get? [name]) = some mode) :
    keptMode? (r.after.get? [name]) = some mode := by
  rcases wrote_or_kept hplain with ⟨d, -, -, hafter⟩ | ⟨-, hafter⟩
  · rw [hafter, get?_insert (List.cons_ne_nil _ _)]
    split
    · next hname =>
      cases hname
      rw [replacementMode_of_keptMode? hplain h]
      rfl
    · exact h
  · rwa [hafter]

end Record

/-! ## All runs -/

section Runs

variable {cs : List Call} (hplain : ∀ c ∈ cs, IsPlainName c.options.outfile)

include hplain

/-- No run takes away the room for the next one. -/
theorem hasRoom_of_mem_history {t : FileTree} (hroom : t.HasRoom) {r : Record}
    (hr : r ∈ history t cs) : r.before.HasRoom := by
  induction cs generalizing t with
  | nil => cases hr
  | cons c cs ih =>
    rw [List.forall_mem_cons] at hplain
    rcases List.mem_cons.1 hr with rfl | hr
    · exact hroom
    · refine ih hplain.2 ?_ hr
      rw [hasRoom_iff, Record.rootLength_after hplain.1]
      exact hasRoom_iff.1 hroom

/-- What no run has written is as it was at first. -/
theorem get?_afterAll_of_not_wrote {t : FileTree} {l : Location}
    (h : ∀ r ∈ history t cs, ∀ name, l = [name] → r.wrote name = false) :
    (afterAll t cs).get? l = t.get? l := by
  induction cs generalizing t with
  | nil => rfl
  | cons c cs ih =>
    rw [List.forall_mem_cons] at hplain
    rw [history, List.forall_mem_cons] at h
    exact (ih hplain.2 h.2).trans (Record.get?_of_not_wrote hplain.1 h.1)

/-- What the last run has written that wrote a file is in the file at the end. -/
theorem get?_afterAll_of_lastWrite {t : FileTree} {name : Bytes} {r : Record}
    (h : lastWrite name (history t cs) = some r) :
    ∃ (d : Depth) (mode : Nat), r.options.maxDepth = d.level ∧
      (afterAll t cs).get? [name] = some (.file mode (Header.text d).toUTF8) := by
  induction cs generalizing t with
  | nil => cases h
  | cons c cs ih =>
    rw [List.forall_mem_cons] at hplain
    rw [history, lastWrite_cons] at h
    cases hlast : lastWrite name (history (Record.mk c t).after cs) with
    | some r' =>
      rw [hlast] at h
      cases h
      exact ih hplain.2 hlast
    | none =>
      -- No later run writes the file, so this one is the last and its text stays.
      have hkept : (afterAll (Record.mk c t).after cs).get? [name] =
          (Record.mk c t).after.get? [name] :=
        get?_afterAll_of_not_wrote hplain.2 fun r' hr' name' hname => by
          cases hname
          exact lastWrite_eq_none_iff.1 hlast r' hr'
      rw [hlast, Option.none_or] at h
      split at h
      · next hwrote =>
        cases h
        obtain ⟨d, mode, hdepth, hget⟩ := Record.get?_of_wrote hplain.1 hwrote
        exact ⟨d, mode, hdepth, hkept.trans hget⟩
      · cases h

theorem keptMode?_afterAll {t : FileTree} {name : Bytes} {mode : Nat}
    (h : keptMode? (t.get? [name]) = some mode) :
    keptMode? ((afterAll t cs).get? [name]) = some mode := by
  induction cs generalizing t with
  | nil => exact h
  | cons c cs ih =>
    rw [List.forall_mem_cons] at hplain
    exact ih hplain.2 (Record.keptMode?_after hplain.1 h)

end Runs

/-- A file that no run has written is what it was at first. Any other one is a file with the header
of the last run that has written it, in the mode that it had at first or that of a new file. Where
there is room for a temporary file, a run that is to write fails only if its name is that of a
directory. No run touches anything but the file that it writes. -/
theorem last_write_decides (t : FileTree) (cs : List Call)
    (hplain : ∀ c ∈ cs, IsPlainName c.options.outfile) :
    (∀ name, lastWrite name (history t cs) = none →
      (afterAll t cs).get? [name] = t.get? [name]) ∧
    (∀ name r, lastWrite name (history t cs) = some r →
      ∃ (d : Depth) (mode : Nat), r.options.maxDepth = d.level ∧
        (afterAll t cs).get? [name] = some (.file mode (Header.text d).toUTF8) ∧
        (∀ m content, t.get? [name] = some (.file m content) → mode = m) ∧
        (t.get? [name] = none → mode = 0o644)) ∧
    (t.HasRoom → ∀ r ∈ history t cs, r.options.check = false → r.options.outfile ≠ stdoutName →
      1 ≤ r.options.maxDepth → (r.result ≠ .ok () ↔
        ∃ mode, r.before.get? [r.options.outfile] = some (.directory mode))) ∧
    ∀ l, (∀ r ∈ history t cs, ∀ name, l = [name] → r.wrote name = false) →
      (afterAll t cs).get? l = t.get? l := by
  refine ⟨fun name h => ?_, fun name r h => ?_, fun hroom r hr hcheck hout hdepth => ?_,
    fun l h => get?_afterAll_of_not_wrote hplain h⟩
  · refine get?_afterAll_of_not_wrote hplain fun r hr name' hname => ?_
    cases hname
    exact lastWrite_eq_none_iff.1 h r hr
  · obtain ⟨d, mode, hdepth, hget⟩ := get?_afterAll_of_lastWrite hplain h
    have hmode {m : Nat} (hm : keptMode? (t.get? [name]) = some m) : mode = m := by
      have hend := keptMode?_afterAll hplain hm
      rw [hget] at hend
      exact Option.some.inj hend
    exact ⟨d, mode, hdepth, hget, fun m content hfile => hmode (by rw [hfile]; rfl),
      fun hnone => hmode (by rw [hnone]; rfl)⟩
  · have hname := hplain _ (call_mem_of_mem_history hr)
    obtain ⟨d, hd⟩ := Depth.exists_level_eq hdepth
    rcases Record.write_cases hname hd hcheck hout with
      ⟨hdir, hresult, -⟩ | ⟨hdir, ⟨e, hresult⟩, -⟩
    · simp [hresult, hdir]
    · simp [hresult, hdir (hasRoom_of_mem_history hplain hroom hr)]

/-- In a root that is as deep as it can be a file is checked and then written: it gets the header of
the second run and keeps its mode. -/
theorem last_write_decides_check_write :
    let name : Bytes := [0x61]
    let t : FileTree := ⟨0o755, 4082, [([name], .file 0o640 ByteArray.empty)]⟩
    let calls : List Call :=
      [⟨⟨name, 1, true, 0, false⟩, .writable⟩, ⟨⟨name, 2, false, 0, false⟩, .writable⟩]
    (∀ c ∈ calls, IsPlainName c.options.outfile) ∧
      (afterAll t calls).get? [name] =
        some (.file 0o640 (Header.text ⟨2, by decide⟩).toUTF8) := by
  intro name t calls
  have hplain : ∀ c ∈ calls, IsPlainName c.options.outfile := by decide
  obtain ⟨-, hwritten, hfails, -⟩ := last_write_decides t calls hplain
  let check : Record := ⟨⟨⟨name, 1, true, 0, false⟩, .writable⟩, t⟩
  let write : Record := ⟨⟨⟨name, 2, false, 0, false⟩, .writable⟩, t⟩
  have hhistory : history t calls = [check, write] := by
    have hkept : check.after = t := (Outcome.effect_eq_iff.1
      (run_check (d := Depth.one) rfl rfl (by decide) t .writable)).2.1
    change [check, ⟨write.toCall, check.after⟩] = [check, write]
    rw [hkept]
  have hresult : write.result = .ok () := by
    have hmem : write ∈ history t calls := by simp [hhistory]
    have hdir := hfails (by decide) write hmem rfl (by decide) (by decide)
    exact Classical.byContradiction fun hne => by
      obtain ⟨mode, hget⟩ := hdir.1 hne
      cases hget
  have hlast : lastWrite name (history t calls) = some write := by
    have hcheck : check.wrote name = false := by simp [Record.wrote, check]
    have hwrite : write.wrote name = true := by
      have hstdout : write.options.writesToStdout = false := by decide
      simp [Record.wrote, hresult, hstdout, Except.isOk, Except.toBool, write]
    simp [lastWrite, hhistory, hcheck, hwrite]
  obtain ⟨d, mode, hdepth, hget, hmode, -⟩ := hwritten name write hlast
  have hd : d = ⟨2, by decide⟩ := Depth.level_injective (Int.ofNat_inj.1 hdepth).symm
  rw [hmode 0o640 ByteArray.empty rfl, hd] at hget
  exact ⟨hplain, hget⟩

end FieldMacros
