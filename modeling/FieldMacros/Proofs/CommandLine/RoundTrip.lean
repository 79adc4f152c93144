import FieldMacros.Proofs.CommandLine.Reading

/-!
# Options written down and read back

The canonical command line of options gives their flags and, behind a `--`, both
operands. It is read back as the options that it was written for, and nothing
but admissible options is read at all (`parse_arguments`).
-/

namespace FieldMacros.CommandLine

namespace Options

def flagWords (o : Options) : List FlagWord :=
  (if o.check then [.long .check rfl] else []) ++ List.replicate o.verbose (.long .verbose rfl) ++
    (if o.quiet then [.long .quiet rfl] else [])

def flags (o : Options) : List Flag :=
  (if o.check then [.check] else []) ++ List.replicate o.verbose .verbose ++
    (if o.quiet then [.quiet] else [])

theorem given_flagWords (o : Options) : FlagWord.given o.flagWords = o.flags := by
  have hverbose (n : Nat) : (List.replicate n (FlagWord.long .verbose rfl)).flatMap
      FlagWord.flags = List.replicate n .verbose := by
    simp [List.flatMap_replicate, FlagWord.flags]
  cases hcheck : o.check <;> cases hquiet : o.quiet <;>
    simp [FlagWord.given, flagWords, flags, FlagWord.flags, hverbose, hcheck, hquiet]

theorem arguments_eq (o : Options) :
    o.arguments = o.flagWords.map FlagWord.argument ++
      [Bytes.ofString "--", o.outfile, Bytes.ofString o.maxDepth.repr] := by
  cases hcheck : o.check <;> cases hquiet : o.quiet <;>
    simp [arguments, flagWords, FlagWord.argument, hcheck, hquiet]

theorem contains_check_flags (o : Options) : o.flags.contains .check = o.check := by
  cases hcheck : o.check <;> cases hquiet : o.quiet <;> simp [flags, hcheck, hquiet]

theorem contains_quiet_flags (o : Options) : o.flags.contains .quiet = o.quiet := by
  cases hcheck : o.check <;> cases hquiet : o.quiet <;> simp [flags, hcheck, hquiet]

theorem count_verbose_flags (o : Options) : o.flags.count .verbose = o.verbose := by
  cases hcheck : o.check <;> cases hquiet : o.quiet <;> simp [flags, hcheck, hquiet]

theorem consistent_flags {o : Options} (h : o.Admissible) : Flag.Consistent o.flags where
  check_once := by
    cases hcheck : o.check <;> cases hquiet : o.quiet <;>
      simp [flags, List.count_replicate, hcheck, hquiet]
  quiet_once := by
    cases hcheck : o.check <;> cases hquiet : o.quiet <;>
      simp [flags, List.count_replicate, hcheck, hquiet]
  no_conflict := by
    rintro ⟨hquiet, hverbose⟩
    rw [← List.count_pos_iff, count_verbose_flags] at hverbose
    rw [← List.contains_iff_mem, contains_quiet_flags] at hquiet
    exact h.2.2.2.2 ⟨hquiet, hverbose⟩

end Options

namespace Progress

/-- Behind a `--` both operands are taken as they are. -/
theorem Settles.readAll_operands {p : Progress} {fs : List Flag}
    (h : p.Settles (settled fs none none)) {b : Bytes} (hb : b ≠ []) {z : Int}
    (hlow : Numeral.least ≤ z) (hhigh : z ≤ Numeral.greatest) :
    p.readAll true [Bytes.ofString "--", b, Bytes.ofString z.repr] =
      .ok (settled fs (some b) (some z)) := by
  have hroom (o : Option Bytes) : (settled fs o none).operands ≠ 2 := by
    cases o <;> exact of_decide_eq_false rfl
  rw [readAll_terminator]
  simp only [readAll, Bool.false_eq_true, if_false, h.operand (hroom _), bind, Except.bind,
    (settles_outfile hb).operand (hroom _), (settles_depth hlow hhigh).settle]

end Progress

/-- What a command line asks for is admissible, and everything admissible is asked for by its
canonical command line. -/
theorem parse_arguments :
    (∀ args o, parse args = .ok o → o.Admissible) ∧
      ∀ o : Options, o.Admissible → parse o.arguments = .ok o := by
  refine ⟨fun args o => admissible_of_parse, fun o ho => ?_⟩
  have hfs := Options.consistent_flags ho
  obtain ⟨houtfile, hlow, hhigh, hverbose, -⟩ := ho
  have hstart : Progress.start.Settles (.settled [] none none) := Progress.settles_settled
  have hgiven : Flag.Consistent ([] ++ FlagWord.given o.flagWords) := by
    rwa [o.given_flagWords]
  obtain ⟨p, hp, hwords⟩ := hstart.readAll_flagWords hgiven
    [Bytes.ofString "--", o.outfile, Bytes.ofString o.maxDepth.repr]
  rw [o.given_flagWords, List.nil_append] at hp
  have hread : Progress.start.readAll true o.arguments =
      .ok (.settled o.flags (some o.outfile) (some o.maxDepth)) := by
    rw [o.arguments_eq, hwords, hp.readAll_operands houtfile hlow hhigh]
  unfold parse
  rw [hread]
  refine (Progress.finish_settled hfs.no_conflict).trans ?_
  rw [o.contains_check_flags, o.contains_quiet_flags, o.count_verbose_flags,
    Nat.min_eq_left hverbose]
  rfl

/-- The outfile looks like a flag, and the depth is the least there is. -/
theorem parse_arguments_dashes :
    let o : Options := ⟨Bytes.ofString "--check", Numeral.least, true, 2, false⟩
    o.Admissible ∧
      parse (["--check", "--verbose", "--verbose", "--", "--check", "-9223372036854775808"].map
        Bytes.ofString) = .ok o := by
  intro o
  have ho : o.Admissible := by decide
  have harguments : o.arguments = ["--check", "--verbose", "--verbose", "--", "--check",
      "-9223372036854775808"].map Bytes.ofString := by decide +kernel
  exact ⟨ho, harguments ▸ parse_arguments.2 o ho⟩

end FieldMacros.CommandLine
