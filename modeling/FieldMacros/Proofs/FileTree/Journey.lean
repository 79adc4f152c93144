import FieldMacros.Proofs.FileTree.Walk
import FieldMacros.Proofs.Text.Encoding
import Mathlib.Logic.Relation

/-!
# Where a path leads

A walk in single steps: a walker passes one name after the other and stops at an
entry or where it cannot go on, with one rule for every reason to stop. A step
does not change where a walk ends (`Step.ending_eq`), and every walk comes to a
stop (`exists_stops`). So a path leads to what the rules say and to nothing else
(`resolve_eq_iff`), and a file cannot be read for the reasons that they tell
(`readText_eq_error_iff`).
-/

namespace FieldMacros.FileTree

/-- A walk on its way: the links that it may still follow, its directory and the names to go. -/
structure Walker where
  links : Nat
  dir : Location
  names : List Bytes

/-- What a walk finds: an entry and its location, or why there is none. -/
abbrev Found := Except IoCause (Location × Entry)

/-- A name that an entry of a directory can have. -/
structure IsEntryName (name : Bytes) : Prop where
  ne_here : name ≠ Path.here
  ne_up : name ≠ Path.up
  length_le : name.length ≤ Path.nameLimit

/-- A walker passes a name. A link is replaced by the steps of its target. -/
inductive Step (t : FileTree) : Walker → Walker → Prop
  | here {links : Nat} {dir : Location} {rest : List Bytes} :
      Step t ⟨links, dir, Path.here :: rest⟩ ⟨links, dir, rest⟩
  | up {links : Nat} {dir : Location} {rest : List Bytes} :
      Step t ⟨links, dir, Path.up :: rest⟩ ⟨links, dir.dropLast, rest⟩
  | enter {links : Nat} {dir : Location} {name : Bytes} {rest : List Bytes} {mode : Nat}
      (hname : IsEntryName name) (hget : t.get? (dir ++ [name]) = some (.directory mode)) :
      Step t ⟨links, dir, name :: rest⟩ ⟨links, dir ++ [name], rest⟩
  | follow {links : Nat} {dir : Location} {name : Bytes} {rest : List Bytes} {target : Bytes}
      (hname : IsEntryName name) (hget : t.get? (dir ++ [name]) = some (.link target)) :
      Step t ⟨links + 1, dir, name :: rest⟩
        ⟨links, if (Path.ofBytes target).absolute then [] else dir,
          (Path.ofBytes target).steps ++ rest⟩

inductive Stops (t : FileTree) : Walker → Found → Prop
  | directory {links : Nat} {dir : Location} {mode : Nat}
      (hget : t.get? dir = some (.directory mode)) :
      Stops t ⟨links, dir, []⟩ (.ok (dir, .directory mode))
  | file {links : Nat} {dir : Location} {name : Bytes} {mode : Nat} {content : ByteArray}
      (hname : IsEntryName name) (hget : t.get? (dir ++ [name]) = some (.file mode content)) :
      Stops t ⟨links, dir, [name]⟩ (.ok (dir ++ [name], .file mode content))
  /-- Nothing has the name, be it the last one or that of a directory on the way. -/
  | missing {links : Nat} {dir : Location} {name : Bytes} {rest : List Bytes}
      (hname : IsEntryName name) (hget : t.get? (dir ++ [name]) = none) :
      Stops t ⟨links, dir, name :: rest⟩ (.error .notFound)
  | throughFile {links : Nat} {dir : Location} {name : Bytes} {rest : List Bytes} {mode : Nat}
      {content : ByteArray} (hname : IsEntryName name)
      (hget : t.get? (dir ++ [name]) = some (.file mode content)) (hrest : rest ≠ []) :
      Stops t ⟨links, dir, name :: rest⟩ (.error .notADirectory)
  | tooLong {links : Nat} {dir : Location} {name : Bytes} {rest : List Bytes}
      (hhere : name ≠ Path.here) (hup : name ≠ Path.up) (hlen : Path.nameLimit < name.length) :
      Stops t ⟨links, dir, name :: rest⟩ (.error .nameTooLong)
  | tooManyLinks {dir : Location} {name : Bytes} {rest : List Bytes} {target : Bytes}
      (hname : IsEntryName name) (hget : t.get? (dir ++ [name]) = some (.link target)) :
      Stops t ⟨0, dir, name :: rest⟩ (.error .linkLoop)

def held (t : FileTree) (l : Location) : Found :=
  match t.get? l with
  | some e => .ok (l, e)
  | none => .error .notFound

theorem held_of_get? {t : FileTree} {l : Location} {e : Entry} (h : t.get? l = some e) :
    t.held l = .ok (l, e) := by
  rw [held, h]

def Walker.ending (t : FileTree) (w : Walker) : Found :=
  (t.walk w.links w.dir w.names).bind t.held

theorem walk_entryName {t : FileTree} {name : Bytes} (h : IsEntryName name) (links : Nat)
    (dir : Location) (rest : List Bytes) :
    t.walk links dir (name :: rest) =
      match t.get? (dir ++ [name]) with
      | some (.directory _) => t.walk links (dir ++ [name]) rest
      | some (.file _ _) => if rest.isEmpty then .ok (dir ++ [name]) else .error .notADirectory
      | some (.link target) =>
        match links with
        | 0 => .error .linkLoop
        | links + 1 => t.walk links (if (Path.ofBytes target).absolute then [] else dir)
            ((Path.ofBytes target).steps ++ rest)
      | none => if rest.isEmpty then .ok (dir ++ [name]) else .error .notFound := by
  rw [walk, if_neg h.ne_here, if_neg h.ne_up]
  exact if_neg (Nat.not_lt.2 h.length_le)

/-- A step does not change where a walk ends. -/
theorem Step.ending_eq {t : FileTree} {w w' : Walker} (h : Step t w w') :
    w.ending t = w'.ending t := by
  unfold Walker.ending
  cases h with
  | here => rw [walk, if_pos rfl]
  | up => rw [walk, if_neg (by decide), if_pos rfl]
  | enter hname hget => rw [walk_entryName hname, hget]
  | follow hname hget => rw [walk_entryName hname, hget]

theorem ending_eq_of_steps {t : FileTree} {w w' : Walker}
    (h : Relation.ReflTransGen (Step t) w w') : w.ending t = w'.ending t := by
  induction h with
  | refl => rfl
  | tail _ hstep ih => exact ih.trans hstep.ending_eq

/-- A walk ends where its walker stops. -/
theorem Stops.ending_eq {t : FileTree} {w : Walker} {r : Found} (h : Stops t w r) :
    w.ending t = r := by
  unfold Walker.ending
  cases h with
  | directory hget =>
    rw [walk]
    exact held_of_get? hget
  | file hname hget =>
    rw [walk_entryName hname, hget]
    exact held_of_get? hget
  | @missing links dir name rest hname hget =>
    rw [walk_entryName hname, hget]
    cases rest with
    | nil =>
      have hheld : t.held (dir ++ [name]) = .error .notFound := by rw [held, hget]
      exact hheld
    | cons n ns => rfl
  | throughFile hname hget hrest =>
    rw [walk_entryName hname, hget]
    simp only [List.isEmpty_iff, if_neg hrest]
    rfl
  | tooLong hhere hup hlen =>
    rw [walk, if_neg hhere, if_neg hup, if_pos hlen]
    rfl
  | tooManyLinks hname hget =>
    rw [walk_entryName hname, hget]
    rfl

/-- A walk that starts inside directories comes to a stop. -/
theorem exists_stops {t : FileTree} {dir : Location} (hdir : t.Inside dir) (links : Nat)
    (names : List Bytes) :
    ∃ w r, Relation.ReflTransGen (Step t) ⟨links, dir, names⟩ w ∧ Stops t w r := by
  fun_induction walk t links dir names with
  | case1 links dir =>
    obtain ⟨mode, hget⟩ := hdir dir (List.prefix_refl dir)
    exact ⟨_, _, .refl, .directory hget⟩
  | case2 links dir rest ih =>
    obtain ⟨w, r, hwalk, hstop⟩ := ih hdir
    exact ⟨w, r, .head .here hwalk, hstop⟩
  | case3 links dir rest hup ih =>
    obtain ⟨w, r, hwalk, hstop⟩ := ih hdir.dropLast
    exact ⟨w, r, .head .up hwalk, hstop⟩
  | case4 links dir name rest hhere hup hlen => exact ⟨_, _, .refl, .tooLong hhere hup hlen⟩
  | case5 links dir name rest hhere hup hlen mode hget ih =>
    obtain ⟨w, r, hwalk, hstop⟩ := ih (hdir.concat hget)
    exact ⟨w, r, .head (.enter ⟨hhere, hup, Nat.not_lt.1 hlen⟩ hget) hwalk, hstop⟩
  | case6 links dir name rest hhere hup hlen mode content hget hlast =>
    rw [List.isEmpty_iff.1 hlast]
    exact ⟨_, _, .refl, .file ⟨hhere, hup, Nat.not_lt.1 hlen⟩ hget⟩
  | case7 links dir name rest hhere hup hlen mode content hget hmore =>
    exact ⟨_, _, .refl, .throughFile ⟨hhere, hup, Nat.not_lt.1 hlen⟩ hget (by simpa using hmore)⟩
  | case8 dir name rest hhere hup hlen target hget =>
    exact ⟨_, _, .refl, .tooManyLinks ⟨hhere, hup, Nat.not_lt.1 hlen⟩ hget⟩
  | case9 dir name rest hhere hup hlen target hget links p ih =>
    have hstart : t.Inside (if p.absolute then [] else dir) := by
      split
      · exact inside_root t
      · exact hdir
    obtain ⟨w, r, hwalk, hstop⟩ := ih hstart
    exact ⟨w, r, .head (.follow ⟨hhere, hup, Nat.not_lt.1 hlen⟩ hget) hwalk, hstop⟩
  | case10 links dir name rest hhere hup hlen hget =>
    exact ⟨_, _, .refl, .missing ⟨hhere, hup, Nat.not_lt.1 hlen⟩ hget⟩
  | case11 links dir name rest hhere hup hlen hget =>
    exact ⟨_, _, .refl, .missing ⟨hhere, hup, Nat.not_lt.1 hlen⟩ hget⟩

/-- What a path leads to: one that cannot be used leads nowhere, any other one to where its walk
stops. -/
inductive Leads (t : FileTree) (path : Bytes) : Found → Prop
  | unusable {c : IoCause} (h : Path.usable path = .error c) : Leads t path (.error c)
  | walked {w : Walker} {r : Found} (husable : Path.usable path = .ok ())
      (hwalk : Relation.ReflTransGen (Step t) ⟨linkLimit, [], (Path.ofBytes path).steps⟩ w)
      (hstop : Stops t w r) : Leads t path r

theorem resolve_of_usable {t : FileTree} {path : Bytes} (h : Path.usable path = .ok ()) :
    t.resolve path = Walker.ending t ⟨linkLimit, [], (Path.ofBytes path).steps⟩ := by
  unfold resolve locate
  rw [h]
  rfl

/-- A path leads to one thing, and that is what it resolves to. -/
theorem resolve_eq_iff {t : FileTree} {path : Bytes} {r : Found} :
    t.resolve path = r ↔ t.Leads path r := by
  have hsound : ∀ r, t.Leads path r → t.resolve path = r := by
    intro r h
    cases h with
    | unusable h =>
      unfold resolve locate
      rw [h]
      rfl
    | walked husable hwalk hstop =>
      exact (resolve_of_usable husable).trans
        ((ending_eq_of_steps hwalk).trans hstop.ending_eq)
  refine ⟨fun h => ?_, hsound r⟩
  cases husable : Path.usable path with
  | error c =>
    have hleads : t.Leads path (.error c) := .unusable husable
    rwa [← h, hsound _ hleads]
  | ok u =>
    obtain ⟨w, r', hwalk, hstop⟩ :=
      exists_stops t.inside_root linkLimit (Path.ofBytes path).steps
    have hleads : t.Leads path r' := .walked husable hwalk hstop
    rwa [← h, hsound _ hleads]

/-! ## Reading -/

/-- Why there is no text to be read at a path. -/
inductive Unreadable (t : FileTree) (path : Bytes) : IoCause → Prop
  | nowhere {c : IoCause} (h : t.Leads path (.error c)) : Unreadable t path c
  | directory {l : Location} {mode : Nat} (h : t.Leads path (.ok (l, .directory mode))) :
      Unreadable t path .isADirectory
  | notText {l : Location} {mode : Nat} {content : ByteArray}
      (h : t.Leads path (.ok (l, .file mode content))) (htext : ∀ s : String, content ≠ s.toUTF8) :
      Unreadable t path .notUtf8

theorem read_eq_ok_iff {t : FileTree} {path : Bytes} {content : ByteArray} :
    t.read path = .ok content ↔ ∃ l mode, t.Leads path (.ok (l, .file mode content)) := by
  simp only [← resolve_eq_iff]
  unfold read
  cases t.resolve path with
  | error c => simp [bind, Except.bind]
  | ok p =>
    obtain ⟨l, e⟩ := p
    cases e <;> simp [bind, Except.bind]

theorem readText_eq_error_iff {t : FileTree} {path : Bytes} {c : IoCause} :
    t.readText path = .error c ↔ t.Unreadable path c := by
  have hsound : ∀ c, t.Unreadable path c → t.readText path = .error c := by
    intro c h
    unfold readText read decodeText
    cases h with
    | nowhere h =>
      rw [resolve_eq_iff.2 h]
      rfl
    | directory h =>
      rw [resolve_eq_iff.2 h]
      rfl
    | notText h htext =>
      rw [resolve_eq_iff.2 h]
      simp only [bind, Except.bind, Bytes.fromUTF8?_eq_none_iff.2 htext]
  refine ⟨fun h => ?_, hsound c⟩
  have hunique : ∀ c', t.Unreadable path c' → t.Unreadable path c := by
    intro c' h'
    cases (hsound c' h').symm.trans h
    exact h'
  cases hresolve : t.resolve path with
  | error c' => exact hunique c' (.nowhere (resolve_eq_iff.1 hresolve))
  | ok p =>
    obtain ⟨l, e⟩ := p
    cases e with
    | link target => exact absurd hresolve resolve_not_link
    | directory mode => exact hunique _ (.directory (resolve_eq_iff.1 hresolve))
    | file mode content =>
      refine hunique _ (.notText (resolve_eq_iff.1 hresolve) fun s hs => ?_)
      have hread := read_eq_ok_iff.2 ⟨l, mode, resolve_eq_iff.1 hresolve⟩
      rw [hs] at hread
      rw [readText_eq_ok_iff.2 hread] at h
      cases h

/-- The causes for which there is no text to be read. -/
theorem Unreadable.cause_mem {t : FileTree} {path : Bytes} {c : IoCause}
    (h : t.Unreadable path c) :
    c ∈ [.notFound, .isADirectory, .notADirectory, .linkLoop, .nameTooLong, .nulInPath,
      .notUtf8] := by
  cases h with
  | directory h => decide
  | notText h htext => decide
  | nowhere h =>
    cases h with
    | walked husable hwalk hstop => cases hstop <;> decide
    | unusable h =>
      unfold Path.usable at h
      repeat' split at h
      all_goals cases h
      all_goals decide

end FieldMacros.FileTree
