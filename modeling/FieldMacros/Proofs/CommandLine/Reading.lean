import FieldMacros.CommandLine.Arrangement
import FieldMacros.Proofs.CommandLine.Validity
import FieldMacros.Proofs.Text.Encoding

/-!
# Reading a command line step by step

`Settles p q` says that what is pending in `p` can be taken over, which gives
`q`. The lemmas here follow a reading along the states that it settles to: flag
words add their flags and change nothing else (`Settles.readAll_flagWords`), and
an operand becomes the outfile or the depth (`settles_outfile`, `settles_depth`).
-/

namespace FieldMacros.CommandLine

namespace Flag.Consistent

theorem sublist {fs gs : List Flag} (h : Consistent gs) (hsub : fs.Sublist gs) :
    Consistent fs where
  check_once := Nat.le_trans (hsub.count_le .check) h.check_once
  quiet_once := Nat.le_trans (hsub.count_le .quiet) h.quiet_once
  no_conflict := fun ⟨hquiet, hverbose⟩ =>
    h.no_conflict ⟨hsub.subset hquiet, hsub.subset hverbose⟩

theorem perm {fs gs : List Flag} (h : Consistent gs) (hperm : fs.Perm gs) : Consistent fs where
  check_once := hperm.count_eq .check ▸ h.check_once
  quiet_once := hperm.count_eq .quiet ▸ h.quiet_once
  no_conflict := fun ⟨hquiet, hverbose⟩ =>
    h.no_conflict ⟨hperm.subset hquiet, hperm.subset hverbose⟩

/-- Of the flags for a run only `verbose` comes again. -/
theorem eq_verbose_or_not_mem {fs gs : List Flag} {f : Flag} (h : Consistent (fs ++ f :: gs))
    (hf : f.asksForText = false) : f = .verbose ∨ f ∉ fs := by
  have hcount : (fs ++ f :: gs).count f = fs.count f + (gs.count f + 1) := by
    rw [List.count_append, List.count_cons_self]
  have hone : fs.count f + (gs.count f + 1) ≤ 1 → f ∉ fs := fun hle =>
    List.count_eq_zero.1 (by omega)
  cases f with
  | check => exact .inr (hone (hcount ▸ h.check_once))
  | quiet => exact .inr (hone (hcount ▸ h.quiet_once))
  | verbose => exact .inl rfl
  | help => cases hf
  | version => cases hf

end Flag.Consistent

namespace Progress

/-- Everything has been taken over. -/
def settled (flags : List Flag) (outfile : Option Bytes) (maxDepth : Option Int) : Progress :=
  ⟨flags, outfile, maxDepth, none⟩

/-- What is pending in `p` can be taken over, which gives `q`. -/
structure Settles (p q : Progress) : Prop where
  settle : p.settle = .ok q
  operands : p.operands = q.operands

variable {p : Progress} {fs : List Flag} {o : Option Bytes} {z : Option Int}

theorem settles_settled : (settled fs o z).Settles (settled fs o z) := ⟨rfl, rfl⟩

/-! ## Flags -/

theorem Settles.flag (h : p.Settles (settled fs o z)) {f : Flag} (hf : f.asksForText = false)
    (hnew : f = .verbose ∨ f ∉ fs) : p.flag f = .ok (settled (fs ++ [f]) o z) := by
  unfold Progress.flag
  rw [h.settle]
  cases f with
  | help => cases hf
  | version => cases hf
  | verbose => rfl
  | check | quiet =>
    rcases hnew with hnew | hnew
    · cases hnew
    · exact if_neg hnew

theorem Settles.cluster (h : p.Settles (settled fs o z)) {gs : List Flag}
    (hgs : ∀ f ∈ gs, f = .verbose ∨ f = .quiet) (hfs : Flag.Consistent (fs ++ gs)) :
    ∃ q, p.cluster ((gs.filterMap Flag.letter?).map some) = .ok q ∧
      q.Settles (settled (fs ++ gs) o z) := by
  induction gs generalizing p fs with
  | nil => exact ⟨p, rfl, by rwa [List.append_nil]⟩
  | cons f gs ih =>
    rw [List.forall_mem_cons] at hgs
    obtain ⟨hf, c, hletter, hflag⟩ : f.asksForText = false ∧
        ∃ c, f.letter? = some c ∧ Flag.ofLetter? c = some f := by
      rcases hgs.1 with rfl | rfl
      · exact ⟨rfl, _, rfl, by decide⟩
      · exact ⟨rfl, _, rfl, by decide⟩
    have hstep := h.flag hf (hfs.eq_verbose_or_not_mem hf)
    rw [List.append_cons] at hfs
    obtain ⟨q, hq, hsettles⟩ := ih settles_settled hgs.2 hfs
    refine ⟨q, ?_, by rwa [List.append_cons]⟩
    rw [List.filterMap_cons, hletter]
    unfold Progress.cluster
    simp only [List.map_cons, Option.bind_some, hflag]
    rw [hstep]
    exact hq

end Progress

namespace FlagWord

theorem ofDecoded_long (f : Flag) :
    Word.ofDecoded (Options.longArgument f).decode = .long (f.longName.toList.map some) none := by
  rw [Options.longArgument, Bytes.decode_ofString]
  cases f <;> rfl

theorem ofName?_longName (f : Flag) : Flag.ofName? (f.longName.toList.map some) = some f := by
  cases f <;> decide

theorem toList_letters (fs : List Flag) :
    ("-" ++ String.ofList (fs.filterMap Flag.letter?)).toList =
      '-' :: fs.filterMap Flag.letter? := by
  have hdash : "-".toList = ['-'] := rfl
  rw [String.toList_append, hdash, String.toList_ofList, List.singleton_append]

/-- Letters are told from a second dash and from a number. -/
theorem ofDecoded_cluster {fs : List Flag} (hne : fs ≠ [])
    (hfs : ∀ f ∈ fs, f = .verbose ∨ f = .quiet) :
    Word.ofDecoded ((some '-') :: (fs.filterMap Flag.letter?).map some) =
        .cluster ((fs.filterMap Flag.letter?).map some) ∧
      looksNumeric (fs.filterMap Flag.letter?) = false := by
  cases fs with
  | nil => exact absurd rfl hne
  | cons f fs =>
    rw [List.forall_mem_cons] at hfs
    rcases hfs.1 with rfl | rfl
    · exact ⟨rfl, rfl⟩
    · exact ⟨rfl, rfl⟩

end FlagWord

namespace Progress

variable {p : Progress} {fs : List Flag} {o : Option Bytes} {z : Option Int}

/-- A flag word adds its flags, whether an operand is pending or not. -/
theorem Settles.readAll_flagWord (h : p.Settles (settled fs o z)) {w : FlagWord}
    (hfs : Flag.Consistent (fs ++ w.flags)) (rest : List Bytes) :
    ∃ q : Progress, q.Settles (settled (fs ++ w.flags) o z) ∧
      p.readAll true (w.argument :: rest) = q.readAll true rest := by
  cases w with
  | long f hf =>
    have hstep := h.flag hf (hfs.eq_verbose_or_not_mem hf)
    refine ⟨_, settles_settled, ?_⟩
    rw [readAll, if_pos rfl, FlagWord.argument, FlagWord.ofDecoded_long]
    simp only [long, FlagWord.ofName?_longName, hstep]
    rfl
  | cluster gs hne hgs =>
    obtain ⟨q, hq, hsettles⟩ := h.cluster hgs hfs
    obtain ⟨hword, hnumeric⟩ := FlagWord.ofDecoded_cluster hne hgs
    refine ⟨q, hsettles, ?_⟩
    rw [readAll, if_pos rfl, FlagWord.argument, Bytes.decode_ofString, FlagWord.toList_letters,
      List.map_cons, hword]
    have hshown : (Bytes.shown ((gs.filterMap Flag.letter?).map some)).toList =
        gs.filterMap Flag.letter? := by
      simp [Bytes.shown, Function.comp_def]
    simp only [hshown, hnumeric, hq, Bool.false_eq_true, and_false, if_false]
    rfl

theorem Settles.readAll_flagWords (h : p.Settles (settled fs o z)) {ws : List FlagWord}
    (hfs : Flag.Consistent (fs ++ FlagWord.given ws)) (rest : List Bytes) :
    ∃ q : Progress, q.Settles (settled (fs ++ FlagWord.given ws) o z) ∧
      p.readAll true (ws.map FlagWord.argument ++ rest) = q.readAll true rest := by
  induction ws generalizing p fs with
  | nil => exact ⟨p, by simpa [FlagWord.given] using h, rfl⟩
  | cons w ws ih =>
    have hgiven : fs ++ FlagWord.given (w :: ws) = fs ++ w.flags ++ FlagWord.given ws := by
      simp [FlagWord.given]
    rw [hgiven] at hfs ⊢
    obtain ⟨r, hr, hword⟩ := h.readAll_flagWord (hfs.sublist (List.sublist_append_left _ _))
      (ws.map FlagWord.argument ++ rest)
    obtain ⟨q, hq, hwords⟩ := ih hr hfs
    exact ⟨q, hq, hword.trans hwords⟩

/-! ## Operands -/

/-- Behind a `--` there are no flags. -/
theorem readAll_terminator (rest : List Bytes) :
    p.readAll true (Bytes.ofString "--" :: rest) = p.readAll false rest := by
  have hterminator : Word.ofDecoded (Bytes.ofString "--").decode = .terminator := by
    rw [Bytes.decode_ofString]
    rfl
  rw [readAll, if_pos rfl, hterminator]

theorem Settles.operand (h : p.Settles (settled fs o z)) (hroom : (settled fs o z).operands ≠ 2)
    (b : Bytes) : p.operand b = .ok { settled fs o z with pending := some b } := by
  unfold Progress.operand
  rw [if_neg (h.operands ▸ hroom), h.settle]
  rfl

theorem settles_outfile {b : Bytes} (hb : b ≠ []) :
    ({ settled fs none none with pending := some b } : Progress).Settles
      (settled fs (some b) none) where
  settle := by simp [settle, settled, hb]
  operands := rfl

theorem settles_depth {b : Bytes} {z : Int} (hlow : Numeral.least ≤ z)
    (hhigh : z ≤ Numeral.greatest) :
    ({ settled fs (some b) none with pending := some (Bytes.ofString z.repr) } : Progress).Settles
      (settled fs (some b) (some z)) where
  settle := by
    have hread : Numeral.read z.repr.toList = .ok z := by
      rw [Numeral.read_repr, if_neg (Int.not_lt.2 hhigh), if_neg (Int.not_lt.2 hlow)]
    simp [settle, settled, hread]
  operands := rfl

/-- The options that settled progress stands for. -/
theorem finish_settled {b : Bytes} (hfs : ¬(.quiet ∈ fs ∧ .verbose ∈ fs)) :
    (settled fs (some b) z).finish = .ok {
      outfile := b
      maxDepth := z.getD Depth.documentLimit
      check := fs.contains .check
      verbose := min (fs.count .verbose) countLimit
      quiet := fs.contains .quiet } := by
  have hnone : (settled fs (some b) z).conflict? = none := conflict?_eq_none_iff.2 hfs
  unfold finish
  rw [hnone]
  rfl

end Progress

end FieldMacros.CommandLine
