import FieldMacros.Proofs.Run.Modes
import FieldMacros.Run.Program

/-!
# Verbosity

Two flags choose how much a run says. They change neither what it does nor
which events it reports (`run_saying`). A filter at one level lets through what
a filter at a lesser level does (`Notice.logLines_upTo_sublist`), and pieces for
the user come from runs that are not quiet only (`said_run`).
-/

namespace FieldMacros

open CommandLine (Options)

namespace Log.Filter

/-- A filter at a level lets through the events within it. -/
theorem allows_upTo (l : Level) (e : Event) :
    (upTo l).allows e = decide (e.level.rank ≤ l.rank) := by
  have hspeaks : (upTo l).filter (·.speaksFor e) = upTo l := List.filter_cons_of_pos rfl
  have hdeciding : (upTo l).deciding? e = some (Directive.upTo l) := by
    rw [deciding?, hspeaks]
    rfl
  rw [allows, hdeciding]
  rfl

theorem rank_le_error_iff {l : Level} : l.rank ≤ Level.error.rank ↔ l = .error := by
  cases l <;> decide

/-- Without a setting of the environment the flags choose the level. -/
theorem choose_none (o : Options) : choose none o = upTo o.logLevel := rfl

end Log.Filter

/-! ## Events among notices -/

namespace Notice

def event? : Notice → Option Log.Event
  | event e => some e
  | piece _ => none

def events (ns : List Notice) : List Log.Event :=
  ns.filterMap event?

theorem events_append (ns ms : List Notice) : events (ns ++ ms) = events ns ++ events ms :=
  List.filterMap_append

theorem events_ofPieces (ps : List Console.Piece) : events (ofPieces ps) = [] := by
  simp [events, ofPieces, List.filterMap_map, Function.comp_def, event?]

theorem logLines_eq (f : Log.Filter) (ns : List Notice) :
    logLines f ns = ((events ns).filter f.allows).map Log.Event.line := by
  unfold logLines events
  rw [List.filter_filterMap, List.map_filterMap]
  refine List.filterMap_congr fun n _ => ?_
  cases n with
  | piece p => rfl
  | event e => cases h : f.allows e <;> simp [event?, Option.filter_some, h]

theorem renderAll_eq_empty {colors : Bool} {f : Log.Filter} {ns : List Notice}
    (h : ∀ n ∈ ns, n.render colors f = "") : renderAll colors f ns = "" := by
  induction ns with
  | nil => rfl
  | cons n ns ih =>
    rw [List.forall_mem_cons] at h
    have hns := ih h.2
    unfold renderAll at hns ⊢
    rw [List.map_cons, String.join_cons, h.1, hns, String.empty_append]

/-- More detail keeps the log lines and adds to them. -/
theorem logLines_upTo_sublist {l l' : Log.Level} (h : l.rank ≤ l'.rank) (ns : List Notice) :
    (logLines (.upTo l) ns).Sublist (logLines (.upTo l') ns) := by
  rw [logLines_eq, logLines_eq]
  refine (List.monotone_filter_right (events ns) fun e he => ?_).map _
  rw [Log.Filter.allows_upTo, decide_eq_true_eq] at he ⊢
  exact Nat.le_trans he h

end Notice

/-! ## What a run does and reports -/

/-- The options with other flags for what is said. -/
def CommandLine.Options.saying (o : Options) (verbose : Nat) (quiet : Bool) : Options :=
  { o with verbose, quiet }

namespace Verdict

theorem events_unlessQuiet (o : Options) (ps : List Console.Piece) :
    Notice.events (unlessQuiet o ps) = [] := by
  unfold unlessQuiet
  split
  · rfl
  · exact Notice.events_ofPieces ps

/-- A verdict without what it has for the user. -/
def substance (v : Verdict) : Except Error Unit × List Log.Event :=
  (v.result, Notice.events v.notices)

variable (o : Options) (verbose : Nat) (quiet : Bool)

theorem substance_after (ns : List Notice) (v : Verdict) :
    (v.after ns).substance = (v.result, Notice.events ns ++ v.substance.2) := by
  simp only [substance, after, Notice.events_append]

theorem substance_comparison (existing generated : String) :
    (comparison (o.saying verbose quiet) existing generated).substance =
      (comparison o existing generated).substance := by
  unfold comparison
  split
  · simp only [substance, events_unlessQuiet]
  · simp only [substance, events_unlessQuiet, Options.saying]

theorem substance_check (generated : String) (r : Except IoCause String) :
    (check (o.saying verbose quiet) generated r).substance = (check o generated r).substance := by
  cases r with
  | ok existing => exact substance_comparison o verbose quiet existing generated
  | error c =>
    cases c with
    | notFound =>
      have h := substance_comparison o verbose quiet "" generated
      exact congrArg (fun s => (s.1, Log.Event.nothingToCheck o.outfile :: s.2)) h
    | _ => rfl

theorem substance_write (h : Header) (bytes : Nat) (r : Except Error Unit) :
    (write (o.saying verbose quiet) h bytes r).substance = (write o h bytes r).substance := by
  cases r with
  | error e => rfl
  | ok u =>
    have hevents : ∀ o' : Options, (write o' h bytes (.ok u)).substance =
        (.ok (), .wrote o'.outfile bytes ::
          Notice.events (unlessQuiet o' (Console.written o'.outfile h.depth))) :=
      fun _ => rfl
    rw [hevents, hevents, events_unlessQuiet, events_unlessQuiet]
    rfl

end Verdict

def Outcome.substance (x : Outcome) : (Except Error Unit × List Log.Event) × FileTree × String :=
  (x.verdict.substance, x.tree, x.stdout)

/-- The flags for what is said change neither what a run does with a header nor the substance of
what follows. -/
theorem deliver_saying (o : Options) (verbose : Nat) (quiet : Bool) (h : Header) :
    (deliver (o.saying verbose quiet) h).map Verdict.substance =
      (deliver o h).map Verdict.substance := by
  -- Both deliver in the same way, so only what follows is left to compare.
  cases hcheck : o.check with
  | true =>
    rw [deliver_of_check h hcheck, deliver_of_check (o := o.saying verbose quiet) h hcheck]
    exact congrArg (Action.read _) (funext fun _ => Verdict.substance_check o verbose quiet _ _)
  | false =>
    cases hstdout : o.writesToStdout with
    | true =>
      rw [deliver_of_stdout h hcheck hstdout,
        deliver_of_stdout (o := o.saying verbose quiet) h hcheck hstdout]
    | false =>
      rw [deliver_of_file h hcheck hstdout,
        deliver_of_file (o := o.saying verbose quiet) h hcheck hstdout]
      exact congrArg (Action.replace _ _)
        (funext fun _ => Verdict.substance_write o verbose quiet h _ _)

theorem action_saying (o : Options) (verbose : Nat) (quiet : Bool) :
    (o.saying verbose quiet).action.map Verdict.substance = o.action.map Verdict.substance := by
  have hheader : (o.saying verbose quiet).header = o.header := rfl
  unfold Options.action
  rw [hheader]
  cases o.header with
  | error e => rfl
  | ok h =>
    have hafter : Verdict.substance ∘ Verdict.after (Verdict.generation h) =
        (fun s => (s.1, Notice.events (Verdict.generation h) ++ s.2)) ∘ Verdict.substance :=
      funext fun v => Verdict.substance_after _ v
    simp only [Action.map_map, hafter]
    rw [← Action.map_map, ← Action.map_map, deliver_saying]

/-- The flags for what is said change neither what a run does nor what it reports. -/
theorem run_saying (o : Options) (verbose : Nat) (quiet : Bool) (t : FileTree) (out : Stdout) :
    (run (o.saying verbose quiet) t out).substance = (run o t out).substance := by
  have hperform (o' : Options) :
      (run o' t out).substance = (o'.action.map Verdict.substance).perform t out :=
    (Action.perform_map Verdict.substance o'.action t out).symm
  rw [hperform, hperform, action_saying]

/-! ## What a run says -/

/-- What a run may say: events that are no errors, and pieces for its user unless it is quiet. -/
inductive Said (o : Options) : Notice → Prop
  | event {e : Log.Event} (h : e.level ≠ .error) : Said o (.event e)
  | piece {p : Console.Piece} (h : o.quiet = false) : Said o (.piece p)

section Said

variable (o : Options)

theorem said_unlessQuiet (ps : List Console.Piece) : ∀ n ∈ Verdict.unlessQuiet o ps, Said o n := by
  unfold Verdict.unlessQuiet
  split
  · nofun
  · next hquiet =>
    intro n hn
    obtain ⟨p, -, rfl⟩ := List.mem_map.1 hn
    exact .piece (Bool.eq_false_iff.2 hquiet)

theorem said_comparison (existing generated : String) :
    ∀ n ∈ (Verdict.comparison o existing generated).notices, Said o n := by
  unfold Verdict.comparison
  split
  · exact said_unlessQuiet o _
  · exact said_unlessQuiet o _

theorem said_check (generated : String) (r : Except IoCause String) :
    ∀ n ∈ (Verdict.check o generated r).notices, Said o n := by
  cases r with
  | ok existing => exact said_comparison o existing generated
  | error c =>
    cases c with
    | notFound => exact List.forall_mem_cons.2 ⟨.event nofun, said_comparison o "" generated⟩
    | _ => nofun

theorem said_write (h : Header) (bytes : Nat) (r : Except Error Unit) :
    ∀ n ∈ (Verdict.write o h bytes r).notices, Said o n := by
  cases r with
  | error e => nofun
  | ok u => exact List.forall_mem_cons.2 ⟨.event nofun, said_unlessQuiet o _⟩

theorem said_generation (h : Header) : ∀ n ∈ Verdict.generation h, Said o n := by
  intro n hn
  simp only [Verdict.generation, List.mem_append, List.mem_singleton] at hn
  rcases hn with (rfl | hn) | rfl
  · exact .event nofun
  · split at hn
    · rw [List.mem_singleton.1 hn]
      exact .event nofun
    · cases hn
  · exact .event nofun

theorem said_deliver (h : Header) (t : FileTree) (out : Stdout) :
    ∀ n ∈ ((deliver o h).perform t out).1.notices, Said o n := by
  cases hcheck : o.check with
  | true =>
    rw [deliver_of_check h hcheck]
    exact said_check o _ _
  | false =>
    cases hstdout : o.writesToStdout with
    | true =>
      rw [deliver_of_stdout h hcheck hstdout]
      cases out <;> nofun
    | false =>
      rw [deliver_of_file h hcheck hstdout]
      exact said_write o h _ _

theorem said_run (t : FileTree) (out : Stdout) :
    ∀ n ∈ (run o t out).verdict.notices, Said o n := by
  cases hheader : o.header with
  | error e =>
    rw [run_refused hheader]
    nofun
  | ok h =>
    rw [run_of_header hheader]
    exact List.forall_mem_append.2 ⟨said_generation o h, said_deliver o h t out⟩

end Said

/-- A quiet run writes its fatal error on standard error, if there is one, and nothing else. -/
theorem stderr_of_quiet {o : Options} (hquiet : o.quiet = true) (t : FileTree) (out : Stdout)
    (colors : Bool) :
    (Execution.ofRun ⟨t, out, none, colors⟩ o).stderr =
      Ending.fatal (run o t out).verdict.result := by
  have hlevel : o.logLevel = .error := by rw [Options.logLevel, if_pos hquiet]
  have hnothing : ∀ n ∈ (run o t out).verdict.notices,
      n.render colors (.upTo .error) = "" := by
    intro n hn
    cases said_run o t out n hn with
    | piece h => rw [hquiet] at h; cases h
    | event h =>
      rw [Notice.render, Log.Filter.allows_upTo, if_neg]
      rwa [decide_eq_true_eq, Log.Filter.rank_le_error_iff]
  rw [Execution.ofRun_eq]
  simp only [Ending.ofVerdict, Log.Filter.choose_none, hlevel,
    Notice.renderAll_eq_empty hnothing, String.empty_append]

/-- The lines that a run logs when the environment does not set a filter. -/
def logged (o : Options) (t : FileTree) (out : Stdout) : List String :=
  Notice.logLines (Log.Filter.choose none o) (run o t out).verdict.notices

theorem logged_saying (o : Options) (verbose : Nat) (quiet : Bool) (t : FileTree) (out : Stdout) :
    logged (o.saying verbose quiet) t out =
      Notice.logLines (.upTo (o.saying verbose quiet).logLevel) (run o t out).verdict.notices := by
  have hevents := congrArg (fun s => s.1.2) (run_saying o verbose quiet t out)
  simp only [Outcome.substance, Verdict.substance] at hevents
  rw [logged, Log.Filter.choose_none, Notice.logLines_eq, hevents, ← Notice.logLines_eq]

/-- However much is said, a run ends in the same way, leaves the same tree and prints the same. What
is logged grows from a quiet run over one without flags and one `verbose` to two and more. A quiet
run has nothing for its user, and nothing is on standard error when it has gone well. -/
theorem verbosity_noninterference (o : Options) (t : FileTree) (out : Stdout) (colors : Bool) :
    (∀ verbose verbose' quiet quiet',
      (run (o.saying verbose quiet) t out).effect = (run (o.saying verbose' quiet') t out).effect) ∧
    (∀ verbose more,
      (logged (o.saying verbose true) t out).Sublist (logged (o.saying 0 false) t out) ∧
      (logged (o.saying 0 false) t out).Sublist (logged (o.saying 1 false) t out) ∧
      (logged (o.saying 1 false) t out).Sublist (logged (o.saying (more + 2) false) t out)) ∧
    ∀ verbose,
      (∀ p, .piece p ∉ (run (o.saying verbose true) t out).verdict.notices) ∧
      ((run (o.saying verbose true) t out).verdict.result = .ok () →
        (Execution.ofRun ⟨t, out, none, colors⟩ (o.saying verbose true)).stderr = "") := by
  refine ⟨fun verbose verbose' quiet quiet' => ?_, fun verbose more => ?_, fun verbose => ⟨?_, ?_⟩⟩
  · have hsame := (run_saying o verbose quiet t out).trans (run_saying o verbose' quiet' t out).symm
    exact congrArg (fun s => (s.1.1, s.2)) hsame
  · have hquiet : (o.saying verbose true).logLevel = .error := rfl
    have hplain : (o.saying 0 false).logLevel = .warn := rfl
    have hone : (o.saying 1 false).logLevel = .info := rfl
    have hmore : (o.saying (more + 2) false).logLevel = .debug := rfl
    simp only [logged_saying, hquiet, hplain, hone, hmore]
    exact ⟨Notice.logLines_upTo_sublist (by decide) _, Notice.logLines_upTo_sublist (by decide) _,
      Notice.logLines_upTo_sublist (by decide) _⟩
  · intro p hp
    cases said_run _ t out _ hp with
    | piece h => cases h
  · intro hok
    rw [stderr_of_quiet rfl, hok]
    rfl

end FieldMacros
