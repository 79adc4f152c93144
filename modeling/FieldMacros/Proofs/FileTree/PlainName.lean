import FieldMacros.Proofs.FileTree.Replace

/-!
# Plain names

A plain name is that of an entry of the directory where the program runs. It
can be written where there is room for a temporary file, unless it is a
directory (`FileSink.write_plainName_cases`), and a file keeps its mode then
(`replacementMode_of_keptMode?`).
-/

namespace FieldMacros

namespace Path

/-- A name that is neither empty nor special nor too long, without a slash or a NUL. -/
structure IsPlainName (b : Bytes) : Prop where
  ne_nil : b ≠ []
  slash_not_mem : slash ∉ b
  nul_not_mem : 0 ∉ b
  ne_here : b ≠ here
  ne_up : b ≠ up
  length_le : b.length ≤ nameLimit

instance (b : Bytes) : Decidable (IsPlainName b) :=
  decidable_of_iff (b ≠ [] ∧ slash ∉ b ∧ 0 ∉ b ∧ b ≠ here ∧ b ≠ up ∧ b.length ≤ nameLimit)
    ⟨fun ⟨h₁, h₂, h₃, h₄, h₅, h₆⟩ => ⟨h₁, h₂, h₃, h₄, h₅, h₆⟩,
      fun ⟨h₁, h₂, h₃, h₄, h₅, h₆⟩ => ⟨h₁, h₂, h₃, h₄, h₅, h₆⟩⟩

namespace IsPlainName

variable {b : Bytes} (h : IsPlainName b)

include h

theorem splitOn_eq : b.splitOn slash = [b] :=
  List.splitOn_eq_singleton h.slash_not_mem

theorem ofBytes_eq : ofBytes b = ⟨false, [b], false⟩ := by
  have hne : b.isEmpty = false := List.isEmpty_eq_false_iff.2 h.ne_nil
  have hhead : b.head? ≠ some slash := fun heq => h.slash_not_mem (List.mem_of_head? heq)
  have hlast : b.getLast? ≠ some slash := fun heq => h.slash_not_mem (List.mem_of_getLast? heq)
  simp [ofBytes, h.splitOn_eq, hne, hhead, hlast]

theorem usable_eq : usable b = .ok () := by
  have hlen : ¬ pathLimit < b.length := Nat.not_lt.2 (Nat.le_trans h.length_le (by decide))
  simp [usable, h.nul_not_mem, h.ne_nil, hlen]

theorem folder_eq : (ofBytes b).folder = [] := by
  rw [h.ofBytes_eq, folder, List.filter_cons_of_pos (by simpa using h.ne_here)]
  rfl

theorem folderText_eq : folderText b = here := by
  simp [folderText, h.splitOn_eq, proper, h.ne_nil, h.ne_here]

end IsPlainName

end Path

namespace FileTree

open FieldMacros.Path

theorem directory_nil (t : FileTree) : t.directory [] = .ok [] :=
  directory_eq_ok_iff.2 ⟨by rw [walk], t.rootMode, t.get?_root⟩

variable {t : FileTree} {name : Bytes} (h : IsPlainName name)

include h

theorem createTemporary_plainName (hroom : t.HasRoom) : ∃ p, t.createTemporary name = .ok p := by
  have hlen : t.temporaryPathLength name = t.temporaryPathLength here := by
    rw [temporaryPathLength, h.ofBytes_eq, h.folderText_eq]
    rfl
  have hshort : t.temporaryPathLength name ≤ pathLimit := hlen ▸ hroom
  exact ⟨_, createTemporary_eq_ok_iff.2
    ⟨by rw [h.folder_eq]; rfl, hshort, [], by rw [h.folder_eq, directory_nil], rfl⟩⟩

theorem target_plainName_iff {l : Location} :
    t.target name = .ok l ↔ l = [name] ∧ ∀ mode, t.get? [name] ≠ some (.directory mode) := by
  rw [target_eq_ok_iff, h.ofBytes_eq]
  constructor
  · rintro ⟨-, -, dir, last, hlast, hdir, -, -, -, rfl, hentry⟩
    have hroot : t.directory [] = .ok dir := hdir
    rw [directory_nil, Except.ok.injEq] at hroot
    cases hlast
    subst hroot
    exact ⟨rfl, hentry⟩
  · rintro ⟨rfl, hentry⟩
    exact ⟨h.usable_eq, rfl, [], name, rfl, directory_nil t, h.ne_here, h.ne_up, h.length_le, rfl,
      hentry⟩

theorem walk_plainName (links : Nat) (hlink : ∀ target, t.get? [name] ≠ some (.link target)) :
    t.walk links [] [name] = .ok [name] := by
  rw [walk, if_neg h.ne_here, if_neg h.ne_up, if_neg (Nat.not_lt.2 h.length_le)]
  rw [List.nil_append]
  split
  · rw [walk]
  · rfl
  · next target hget => exact absurd hget (hlink target)
  · rfl

theorem locate_plainName (hlink : ∀ target, t.get? [name] ≠ some (.link target)) :
    t.locate name = .ok [name] := by
  simp only [locate, h.usable_eq, h.ofBytes_eq, steps, bind, Except.bind, if_neg Bool.false_ne_true,
    walk_plainName h linkLimit hlink]

theorem read_plainName {mode : Nat} {content : ByteArray}
    (hget : t.get? [name] = some (.file mode content)) : t.read name = .ok content := by
  have hlocate := locate_plainName h (t := t) (by simp [hget])
  rw [read, resolve_eq_ok_iff.2 ⟨hlocate, hget⟩]
  rfl

/-- The mode of a file that replaces an entry, or nothing, under a plain name. What a link leads to
does not tell it. -/
def keptMode? : Option Entry → Option Nat
  | some (.file mode _) => some mode
  | some _ => none
  | none => some newFileMode

/-- A file that is replaced keeps its mode. -/
theorem replacementMode_of_keptMode? {mode : Nat} (hkept : keptMode? (t.get? [name]) = some mode) :
    t.replacementMode name = mode := by
  cases hget : t.get? [name] with
  | none =>
    have hlocate := locate_plainName h (t := t) (by simp [hget])
    have hresolve : ∀ p, t.resolve name ≠ .ok p := by
      rintro ⟨l, e⟩ hp
      obtain ⟨hl, he⟩ := resolve_eq_ok_iff.1 hp
      rw [hlocate, Except.ok.injEq] at hl
      rw [← hl, hget] at he
      cases he
    rw [replacementMode_of_not_resolve hresolve]
    rw [hget] at hkept
    exact Option.some.inj hkept
  | some e =>
    rw [hget] at hkept
    cases e with
    | directory m => cases hkept
    | link target => cases hkept
    | file m content =>
      have hlocate := locate_plainName h (t := t) (by simp [hget])
      rw [replacementMode, resolve_eq_ok_iff.2 ⟨hlocate, hget⟩]
      exact Option.some.inj hkept

end FileTree

open FileTree

/-- A plain name can be written unless it is that of a directory or the root has no room for a
temporary file. -/
theorem FileSink.write_plainName_cases {s : FileSink} (h : Path.IsPlainName s.path) (t : FileTree)
    (text : String) :
    ((∀ mode, t.get? [s.path] ≠ some (.directory mode)) ∧ s.write t text =
      (.ok (), t.insert [s.path] (.file (t.replacementMode s.path) text.toUTF8))) ∨
    (t.HasRoom → ∃ mode, t.get? [s.path] = some (.directory mode)) ∧
      ∃ c, s.write t text = (.error (.io s.path c), t) := by
  rcases s.write_cases t text .sound with ⟨l, htarget, hwrite⟩ | ⟨c, herror, -⟩
  · obtain ⟨rfl, hdir⟩ := (target_plainName_iff h).1 htarget
    exact .inl ⟨hdir, hwrite⟩
  · refine .inr ⟨fun hroom => ?_, c, herror⟩
    by_cases hdir : ∃ mode, t.get? [s.path] = some (.directory mode)
    · exact hdir
    · obtain ⟨p, hcreate⟩ := createTemporary_plainName h hroom
      have htarget := (target_plainName_iff h).2 ⟨rfl, not_exists.1 hdir⟩
      have hwrite := FileSink.write_of_target hcreate htarget text
      rw [herror] at hwrite
      cases hwrite

end FieldMacros
