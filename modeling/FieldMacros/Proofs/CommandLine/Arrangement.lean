import FieldMacros.Proofs.CommandLine.Reading
import Mathlib.Data.List.TakeWhile

/-!
# The place of flags

Arguments that give flags may stand before, between and behind the operands.
Which options come out depends on the operands and on how often each flag is
given, and on nothing else (`parse_interleaving`).
-/

namespace FieldMacros

namespace Interleaving

variable {α : Type} {xs ys zs : List α}

/-- Where the first element of the second list stands, the first list is cut in two. -/
theorem exists_append {y : α} (h : Interleaving xs (y :: ys) zs) :
    ∃ as bs cs, xs = as ++ bs ∧ zs = as ++ y :: cs ∧ Interleaving bs ys cs := by
  generalize hys : y :: ys = ys' at h
  induction h with
  | nil => cases hys
  | left _ ih =>
    obtain ⟨as, bs, cs, rfl, rfl, hrest⟩ := ih hys
    exact ⟨_ :: as, bs, cs, rfl, rfl, hrest⟩
  | right hrest =>
    cases hys
    exact ⟨[], _, _, rfl, rfl, hrest⟩

theorem eq_of_nil (h : Interleaving xs [] zs) : zs = xs := by
  generalize hys : ([] : List α) = ys at h
  induction h with
  | nil => rfl
  | left _ ih => rw [ih hys]
  | right => cases hys

end Interleaving

namespace CommandLine

/-! ## Operands among flags -/

namespace Word

theorem ofDecoded_operand {cs : List (Option Char)} (h : cs.head? ≠ some (some '-')) :
    ofDecoded cs = .operand := by
  unfold ofDecoded
  split
  · exact absurd rfl h
  · exact absurd rfl h
  · rfl
  · exact absurd rfl h
  · rfl

theorem ofDecoded_cluster {cs : List (Option Char)} (hne : cs ≠ [])
    (h : cs.head? ≠ some (some '-')) : ofDecoded (some '-' :: cs) = .cluster cs := by
  unfold ofDecoded
  split
  · next heq =>
    cases heq
    exact absurd rfl h
  · next heq =>
    cases heq
    exact absurd rfl h
  · next heq =>
    cases heq
    exact absurd rfl hne
  · next heq =>
    cases heq
    rfl
  · next hcluster => exact absurd rfl (hcluster cs)

/-- Digits do not begin with a dash. -/
theorem head?_digits (n : Nat) : (n.repr.toList.map some).head? ≠ some (some '-') := by
  intro h
  rw [List.head?_map] at h
  obtain ⟨c, hc, hdash⟩ := Option.map_eq_some_iff.1 h
  cases hdash
  exact absurd (Numeral.isDigit_of_mem_repr (List.mem_of_head? hc)) (by decide)

end Word

theorem looksNumeric_repr (n : Nat) : looksNumeric n.repr.toList = true := by
  have hdigits : ∀ c ∈ n.repr.toList, c.isDigit = true := fun c => Numeral.isDigit_of_mem_repr
  obtain ⟨c, cs, hcs⟩ := List.exists_cons_of_ne_nil (Numeral.repr_toList_ne_nil n)
  unfold looksNumeric
  rw [List.takeWhile_eq_self_iff.2 hdigits, List.dropWhile_eq_nil_iff.2 hdigits, hcs]
  rfl

namespace Progress

variable {p : Progress}

/-- An argument that does not begin with a dash is an operand, and so is a lone dash. -/
theorem readAll_outfile {b : Bytes} (hb : b = stdoutName ∨ ¬ Bytes.ofString "-" <+: b)
    (rest : List Bytes) :
    p.readAll true (b :: rest) = p.operand b >>= fun q => q.readAll true rest := by
  have hword : Word.ofDecoded b.decode = .operand := by
    rcases hb with rfl | hb
    · rw [stdoutName, Bytes.decode_ofString]
      rfl
    · exact Word.ofDecoded_operand fun h => hb (Bytes.dash_prefix_of_decode h)
  rw [readAll, if_pos rfl, hword]

/-- A number is an operand where the depth may stand, whatever its sign is. -/
theorem readAll_depth (hone : p.operands = 1) (z : Int) (rest : List Bytes) :
    p.readAll true (Bytes.ofString z.repr :: rest) =
      p.operand (Bytes.ofString z.repr) >>= fun q => q.readAll true rest := by
  rw [readAll, if_pos rfl, Bytes.decode_ofString]
  cases z with
  | ofNat n =>
    rw [Int.repr, Word.ofDecoded_operand (Word.head?_digits n)]
  | negSucc n =>
    have hne : (n + 1).repr.toList.map some ≠ [] :=
      mt List.map_eq_nil_iff.1 (Numeral.repr_toList_ne_nil (n + 1))
    have hchars : (Int.negSucc n).repr.toList = '-' :: (n + 1).repr.toList := by
      rw [Int.repr, String.toList_append]
      rfl
    have hshown : (Bytes.shown ((n + 1).repr.toList.map some)).toList = (n + 1).repr.toList := by
      simp [Bytes.shown, Function.comp_def]
    rw [hchars, List.map_cons, Word.ofDecoded_cluster hne (Word.head?_digits (n + 1))]
    simp only [hone, hshown, looksNumeric_repr, and_self, if_true]

end Progress

/-! ## Flags around operands -/

theorem FlagWord.given_append (ws₁ ws₂ : List FlagWord) :
    given (ws₁ ++ ws₂) = given ws₁ ++ given ws₂ :=
  List.flatMap_append

namespace Progress.Settles

variable {p : Progress} {fs : List Flag} {o : Option Bytes} {z : Option Int}
  (h : p.Settles (settled fs o z)) {ws : List FlagWord}
  (hfs : Flag.Consistent (fs ++ FlagWord.given ws)) {args : List Bytes}

include h hfs

/-- Behind the last operand only flags come. -/
theorem readAll_last (hargs : Interleaving (ws.map FlagWord.argument) [] args) :
    p.readAll true args = .ok (settled (fs ++ FlagWord.given ws) o z) := by
  obtain ⟨q, hq, hread⟩ := h.readAll_flagWords hfs []
  rw [hargs.eq_of_nil, ← List.append_nil (ws.map FlagWord.argument), hread]
  exact hq.settle

/-- The flags up to the next operand are taken, and then the operand. -/
theorem readAll_operand {b : Bytes} {bs : List Bytes}
    (hargs : Interleaving (ws.map FlagWord.argument) (b :: bs) args)
    (hroom : (settled fs o z).operands ≠ 2)
    (hword : ∀ q : Progress, q.operands = (settled fs o z).operands → ∀ rest,
      q.readAll true (b :: rest) = q.operand b >>= fun r => r.readAll true rest) :
    ∃ ws₁ ws₂ rest, ws = ws₁ ++ ws₂ ∧ Interleaving (ws₂.map FlagWord.argument) bs rest ∧
      p.readAll true args =
        { settled (fs ++ FlagWord.given ws₁) o z with pending := some b }.readAll true rest := by
  obtain ⟨as₁, as₂, rest, hmap, rfl, hrest⟩ := hargs.exists_append
  obtain ⟨ws₁, ws₂, rfl, rfl, rfl⟩ := List.map_eq_append_iff.1 hmap
  rw [FlagWord.given_append, ← List.append_assoc] at hfs
  obtain ⟨q, hq, hread⟩ :=
    h.readAll_flagWords (hfs.sublist (List.sublist_append_left _ _)) (b :: rest)
  refine ⟨ws₁, ws₂, rest, rfl, hrest, ?_⟩
  rw [hread, hword q hq.operands, hq.operand hroom]
  rfl

end Progress.Settles

/-- Of a command line with one or two operands, between which flags stand anywhere, only the
operands and the numbers of flags matter. -/
theorem parse_interleaving {outfile : Bytes} {depth : Option Int} {ws ws' : List FlagWord}
    {args : List Bytes}
    (hfile : outfile = stdoutName ∨ outfile ≠ [] ∧ ¬ Bytes.ofString "-" <+: outfile)
    (hdepth : ∀ z ∈ depth, Numeral.least ≤ z ∧ z ≤ Numeral.greatest)
    (hflags : Flag.Consistent (FlagWord.given ws)) (horder : ws'.Perm ws)
    (hargs : Interleaving (ws'.map FlagWord.argument)
      (outfile :: depth.toList.map fun z => Bytes.ofString z.repr) args) :
    parse args = .ok {
      outfile := outfile
      maxDepth := depth.getD 100
      check := (FlagWord.given ws).contains .check
      verbose := min ((FlagWord.given ws).count .verbose) 255
      quiet := (FlagWord.given ws).contains .quiet } := by
  have hne : outfile ≠ [] := by
    rcases hfile with rfl | ⟨hne, -⟩
    · decide
    · exact hne
  have hperm : (FlagWord.given ws').Perm (FlagWord.given ws) := horder.flatMap_right _
  have hfs : Flag.Consistent ([] ++ FlagWord.given ws') := hflags.perm hperm
  have hstart : Progress.start.Settles (.settled [] none none) := Progress.settles_settled
  have hread : Progress.start.readAll true args =
      .ok (.settled (FlagWord.given ws') (some outfile) depth) := by
    obtain ⟨ws₁, ws₂, rest, rfl, hrest, hread⟩ := hstart.readAll_operand hfs hargs (by decide)
      fun q _ => Progress.readAll_outfile (hfile.imp_right And.right)
    rw [FlagWord.given_append, ← List.append_assoc] at hfs
    rw [hread]
    cases depth with
    | none =>
      rw [(Progress.settles_outfile hne).readAll_last hfs hrest, FlagWord.given_append]
      rfl
    | some z =>
      obtain ⟨hlow, hhigh⟩ := hdepth z rfl
      obtain ⟨ws₃, ws₄, rest', rfl, hrest', hread'⟩ :=
        (Progress.settles_outfile hne).readAll_operand hfs hrest (of_decide_eq_false rfl)
          fun q hq => Progress.readAll_depth hq z
      rw [FlagWord.given_append, ← List.append_assoc] at hfs
      rw [hread', (Progress.settles_depth hlow hhigh).readAll_last hfs hrest',
        FlagWord.given_append, FlagWord.given_append, List.append_assoc, List.append_assoc]
      rfl
  unfold parse
  rw [hread]
  refine (Progress.finish_settled (hflags.perm hperm).no_conflict).trans ?_
  rw [hperm.contains_eq, hperm.contains_eq, hperm.count_eq]
  rfl

/-- Flags stand on both sides of a lone dash and of a negative depth. -/
theorem parse_interleaving_dash :
    let ws : List FlagWord := [.long .check rfl,
      .cluster [.verbose, .verbose] (by decide) (by decide), .long .verbose rfl]
    Flag.Consistent (FlagWord.given ws) ∧
      parse (["-vv", "-", "--check", "-5", "--verbose"].map Bytes.ofString) =
        .ok ⟨Bytes.ofString "-", -5, true, 3, false⟩ := by
  intro ws
  have hflags : Flag.Consistent (FlagWord.given ws) := by decide
  have hdepth : ∀ z ∈ some (-5), Numeral.least ≤ z ∧ z ≤ Numeral.greatest := by decide
  exact ⟨hflags, parse_interleaving (.inl rfl) hdepth hflags (.swap _ _ _)
    (.left (.right (.left (.right (.left .nil)))))⟩

end CommandLine

end FieldMacros
