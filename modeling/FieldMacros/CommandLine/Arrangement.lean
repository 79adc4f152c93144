import FieldMacros.CommandLine.Canonical

/-!
# Arrangements of arguments

Arguments that only give flags, and the ways to put them between operands. A
list of flags is consistent if a command line may give all of them together.
-/

namespace FieldMacros

namespace CommandLine

/-- Flags of which no two are refused together: only `verbose` is repeated, and not beside
`quiet`. -/
structure Flag.Consistent (fs : List Flag) : Prop where
  check_once : fs.count .check ≤ 1
  quiet_once : fs.count .quiet ≤ 1
  no_conflict : ¬(.quiet ∈ fs ∧ .verbose ∈ fs)

instance (fs : List Flag) : Decidable (Flag.Consistent fs) :=
  decidable_of_iff (fs.count .check ≤ 1 ∧ fs.count .quiet ≤ 1 ∧ ¬(.quiet ∈ fs ∧ .verbose ∈ fs))
    ⟨fun ⟨h₁, h₂, h₃⟩ => ⟨h₁, h₂, h₃⟩, fun ⟨h₁, h₂, h₃⟩ => ⟨h₁, h₂, h₃⟩⟩

/-- An argument that gives flags for a run: one by its long name, or some by their letters. -/
inductive FlagWord where
  | long (f : Flag) (run : f.asksForText = false)
  | cluster (fs : List Flag) (ne_nil : fs ≠ []) (letters : ∀ f ∈ fs, f = .verbose ∨ f = .quiet)

namespace FlagWord

def flags : FlagWord → List Flag
  | long f _ => [f]
  | cluster fs _ _ => fs

def argument : FlagWord → Bytes
  | long f _ => Options.longArgument f
  | cluster fs _ _ => Bytes.ofString ("-" ++ String.ofList (fs.filterMap Flag.letter?))

/-- All flags that the arguments give, in order. -/
def given (ws : List FlagWord) : List Flag :=
  ws.flatMap flags

end FlagWord

end CommandLine

/-- The third list has the elements of the first two, those of each in their order. -/
inductive Interleaving {α : Type} : List α → List α → List α → Prop
  | nil : Interleaving [] [] []
  | left {x : α} {xs ys zs : List α} : Interleaving xs ys zs → Interleaving (x :: xs) ys (x :: zs)
  | right {y : α} {xs ys zs : List α} : Interleaving xs ys zs → Interleaving xs (y :: ys) (y :: zs)

end FieldMacros
