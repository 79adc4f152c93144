import FieldMacros.CommandLine.Help
import FieldMacros.CommandLine.Parse
import FieldMacros.Run.Basic

/-!
# The whole program

An execution reads the command line, chooses what is logged and does one run.
It exits with 0 when all went well, with 1 when the run failed and with 2 when
the command line is refused.
-/

namespace FieldMacros

open CommandLine (Options Stop Refusal)

def CommandLine.Options.logLevel (o : Options) : Log.Level :=
  if o.quiet then .error
  else
    match o.verbose with
    | 0 => .warn
    | 1 => .info
    | _ => .debug

/-- The filter for a run: a valid setting of the environment wins over the flags. -/
def Log.Filter.choose (setting : Option String) (o : Options) : Log.Filter :=
  (setting.bind Log.Filter.parse?).getD (Log.Filter.upTo o.logLevel)

/-- The exit code of a program and what it has put on standard error. -/
structure Ending where
  exitCode : Nat
  stderr : String

namespace Ending

def codeOf : Except Error Unit → Nat
  | .ok () => 0
  | .error _ => 1

/-- The report that a failed run ends with. -/
def fatal : Except Error Unit → String
  | .ok () => ""
  | .error e => e.report

def ofVerdict (logSetting : Option String) (colors : Bool) (o : Options) (v : Verdict) : Ending :=
  ⟨codeOf v.result,
    Notice.renderAll colors (Log.Filter.choose logSetting o) v.notices ++ fatal v.result⟩

end Ending

/-- What the program does with its arguments, its own name not among them. That a text in place of a
run cannot be printed is no failure. -/
def program (logSetting : Option String) (colors : Bool) (args : List Bytes) : Action Ending :=
  match CommandLine.parse args with
  | .error .help => .print CommandLine.helpText fun _ => ⟨0, ""⟩
  | .error .version => .print CommandLine.versionText fun _ => ⟨0, ""⟩
  | .error (.refused r) => .done ⟨2, r.report Console.visibleOnStream⟩
  | .ok o => o.action.map (Ending.ofVerdict logSetting colors o)

structure Execution where
  exitCode : Nat
  tree : FileTree
  stdout : String
  stderr : String

namespace Execution

structure Surroundings where
  tree : FileTree
  stdout : Stdout
  logSetting : Option String
  colors : Bool

def ofAction (s : Surroundings) (a : Action Ending) : Execution :=
  let (ending, t, printed) := a.perform s.tree s.stdout
  ⟨ending.exitCode, t, printed, ending.stderr⟩

def ofRun (s : Surroundings) (o : Options) : Execution :=
  .ofAction s (o.action.map (Ending.ofVerdict s.logSetting s.colors o))

theorem ofRun_eq (s : Surroundings) (o : Options) :
    ofRun s o =
      let x := run o s.tree s.stdout
      let ending := Ending.ofVerdict s.logSetting s.colors o x.verdict
      ⟨ending.exitCode, x.tree, x.stdout, ending.stderr⟩ := by
  rw [ofRun, ofAction, Action.perform_map]
  rfl

end Execution

/-- One execution of the program with the given arguments. -/
def execute (args : List Bytes) (s : Execution.Surroundings) : Execution :=
  .ofAction s (program s.logSetting s.colors args)

section

variable {args : List Bytes} (s : Execution.Surroundings)

theorem execute_help (h : CommandLine.parse args = .error .help) :
    execute args s = ⟨0, s.tree, (s.stdout.put CommandLine.helpText).2, ""⟩ := by
  rw [execute, program, h]
  rfl

theorem execute_version (h : CommandLine.parse args = .error .version) :
    execute args s = ⟨0, s.tree, (s.stdout.put CommandLine.versionText).2, ""⟩ := by
  rw [execute, program, h]
  rfl

theorem execute_refused {r : Refusal} (h : CommandLine.parse args = .error (.refused r)) :
    execute args s = ⟨2, s.tree, "", r.report Console.visibleOnStream⟩ := by
  rw [execute, program, h]
  rfl

theorem execute_run {o : Options} (h : CommandLine.parse args = .ok o) :
    execute args s = .ofRun s o := by
  rw [execute, program, h]
  rfl

end

end FieldMacros
