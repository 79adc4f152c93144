import FieldMacros.Sink

/-!
# Actions

A program touches the world at most once: it reads a file, prints a text or
replaces a file. Which of them it does, and what it makes of the answer, is
decided without touching anything, so an action is a value that holds both.
`perform` does it to a tree and to standard output; the command does it to the
system.
-/

namespace FieldMacros

/-- One thing that is done to the world, and what follows from how it ends. -/
inductive Action (α : Type) where
  | done (a : α)
  | read (path : Bytes) (next : Except IoCause ByteArray → α)
  | print (text : String) (next : Except IoCause Unit → α)
  | replace (path : Bytes) (content : ByteArray) (next : Except IoCause Unit → α)

namespace Action

variable {α β : Type}

def map (f : α → β) : Action α → Action β
  | done a => done (f a)
  | read path next => read path (f ∘ next)
  | print text next => print text (f ∘ next)
  | replace path content next => replace path content (f ∘ next)

/-- What follows from the action, the tree that it leaves and what arrives on standard output. -/
def perform (t : FileTree) (out : Stdout) : Action α → α × FileTree × String
  | done a => (a, t, "")
  | read path next => (next (t.read path), t, "")
  | print text next =>
    let (result, printed) := out.put text
    (next result, t, printed)
  | replace path content next =>
    let (result, t') := t.replace path content
    (next result, t', "")

theorem map_map {γ : Type} (f : α → β) (g : β → γ) (a : Action α) :
    (a.map f).map g = a.map (g ∘ f) := by
  cases a <;> rfl

theorem perform_map (f : α → β) (a : Action α) (t : FileTree) (out : Stdout) :
    (a.map f).perform t out = (f (a.perform t out).1, (a.perform t out).2) := by
  cases a <;> rfl

end Action

end FieldMacros
