import FieldMacros.Proofs.CommandLine.Arrangement
import FieldMacros.Proofs.Run.Modes
import FieldMacros.Proofs.Text.Numerals
import FieldMacros.Run.Program
import Mathlib.Algebra.Group.Int.Defs

/-!
# Which depths are admitted

An integer on the command line is refused as a numeral if it does not fit, is
refused by the run if it is below one, and is the depth of the header otherwise
(`depth_admission`). Behind a `--` any numeral of an integer that fits is taken.
-/

namespace FieldMacros

open CommandLine (Options Refusal Fault parse)

/-! ## Texts shown as they are -/

namespace Console

theorem Scan.stream_printable {b : Bytes} (h : ∀ x ∈ b, 0x20 ≤ x ∧ x ≤ 0x7E) (run : Bool) :
    plain.stream run b = b := by
  induction b generalizing run with
  | nil => rfl
  | cons x b ih =>
    rw [List.forall_mem_cons] at h
    have hshows : plain.shows x = true := by simp [shows, h.1]
    have hescape : x ≠ 0x1B := by
      rintro rfl
      exact absurd h.1.1 (by decide)
    have hnext : plain.next x = plain := by
      unfold next
      rw [if_neg hescape]
      split <;> rfl
    unfold stream
    rw [hshows, hnext, Bool.and_true, ih h.2, ih h.2]
    simp

theorem visibleOnStream_of_printable {s : String}
    (h : ∀ c ∈ s.toList, 0x20 ≤ c.toNat ∧ c.toNat ≤ 0x7E) : visibleOnStream s = s := by
  unfold visibleOnStream
  rw [Scan.stream_printable (fun _ => Bytes.printable_of_mem_ofString h), Bytes.display_ofString]

theorem visibleOnStream_repr (z : Int) : visibleOnStream z.repr = z.repr := by
  have hdigit : ∀ {c : Char} {n : Nat}, c ∈ n.repr.toList → 0x20 ≤ c.toNat ∧ c.toNat ≤ 0x7E := by
    intro c n hc
    have hrange : 48 ≤ c.toNat ∧ c.toNat ≤ 57 :=
      Char.isDigit_iff_toNat.1 (Numeral.isDigit_of_mem_repr hc)
    omega
  refine visibleOnStream_of_printable fun c hc => ?_
  cases z with
  | ofNat n => exact hdigit hc
  | negSucc n =>
    rw [Int.repr, String.toList_append] at hc
    rcases List.mem_cons.1 hc with rfl | hc
    · decide
    · exact hdigit hc

end Console

/-! ## Two operands -/

namespace CommandLine

namespace Progress

/-- The outfile has been taken over, and the depth is pending. -/
def awaiting (outfile depth : Bytes) : Progress :=
  { settled [] (some outfile) none with pending := some depth }

variable {outfile : Bytes}

theorem settle_awaiting (depth : Bytes) :
    (awaiting outfile depth).settle =
      match depth.text? with
      | none => .error (.refused (.withUsage .notUtf8 .general))
      | some s =>
        match Numeral.read s.toList with
        | .error r => .error (.refused (.plain (.invalidDepth s r)))
        | .ok z => .ok (settled [] (some outfile) (some z)) := rfl

section

variable (hne : outfile ≠ [])

include hne

/-- A second operand lets the first one be taken over. -/
theorem operand_awaiting (depth : Bytes) :
    ({ settled [] none none with pending := some outfile } : Progress).operand depth =
      .ok (awaiting outfile depth) :=
  (settles_outfile hne).operand (of_decide_eq_false rfl) depth

variable (hdash : ¬ Bytes.ofString "-" <+: outfile)

include hdash

theorem readAll_integer (z : Int) :
    start.readAll true [outfile, Bytes.ofString z.repr] =
      (awaiting outfile (Bytes.ofString z.repr)).settle := by
  have hstart : start.Settles (settled [] none none) := settles_settled
  have hfirst := hstart.operand (by decide) outfile
  rw [readAll_outfile (.inr hdash), hfirst]
  refine (readAll_depth rfl z []).trans ?_
  rw [operand_awaiting hne]
  rfl

theorem readAll_terminated (depth : Bytes) :
    start.readAll true [outfile, Bytes.ofString "--", depth] = (awaiting outfile depth).settle := by
  have hstart : start.Settles (settled [] none none) := settles_settled
  have hfirst := hstart.operand (by decide) outfile
  rw [readAll_outfile (.inr hdash), hfirst]
  refine (readAll_terminator [depth]).trans ?_
  rw [readAll, if_neg (by decide), operand_awaiting hne]
  rfl

end

end Progress

variable {outfile : Bytes} (hne : outfile ≠ []) (hdash : ¬ Bytes.ofString "-" <+: outfile)

include hne hdash

/-- An integer behind the outfile is never taken as a flag; only its size decides. -/
theorem parse_integer (z : Int) :
    parse [outfile, Bytes.ofString z.repr] =
      if Numeral.greatest < z then .error (.refused (.plain (.invalidDepth z.repr .tooLarge)))
      else if z < Numeral.least then .error (.refused (.plain (.invalidDepth z.repr .tooSmall)))
      else .ok ⟨outfile, z, false, 0, false⟩ := by
  unfold parse
  rw [Progress.readAll_integer hne hdash, Progress.settle_awaiting, Bytes.text?_ofString]
  by_cases hhigh : Numeral.greatest < z
  · simp only [Numeral.read_repr, if_pos hhigh]
    rfl
  · by_cases hlow : z < Numeral.least
    · simp only [Numeral.read_repr, if_neg hhigh, if_pos hlow]
      rfl
    · simp only [Numeral.read_repr, if_neg hhigh, if_neg hlow]
      rfl

/-- Behind a `--` the numerals of the integers that fit are taken as the depth, and nothing else. -/
theorem parse_terminated_eq_ok_iff {depth : Bytes} {o : Options} :
    parse [outfile, Bytes.ofString "--", depth] = .ok o ↔
      ∃ (s : String) (z : Int), depth = Bytes.ofString s ∧ Numeral.Denotes s.toList z ∧
        Numeral.least ≤ z ∧ z ≤ Numeral.greatest ∧ o = ⟨outfile, z, false, 0, false⟩ := by
  have hparse : parse [outfile, Bytes.ofString "--", depth] =
      (Progress.awaiting outfile depth).settle >>= Progress.finish := by
    unfold parse
    rw [Progress.readAll_terminated hne hdash]
  rw [hparse, Progress.settle_awaiting]
  constructor
  · intro h
    obtain ⟨p, hp, hfinish⟩ := exists_of_bind h
    split at hp
    · cases hp
    · next s hs =>
      split at hp
      · cases hp
      · next z hz =>
        cases hp
        cases hfinish
        obtain ⟨hdenotes, hlow, hhigh⟩ := Numeral.read_eq_ok_iff.1 hz
        exact ⟨s, z, Bytes.eq_ofString_of_text? hs, hdenotes, hlow, hhigh, rfl⟩
  · rintro ⟨s, z, rfl, hdenotes, hlow, hhigh, rfl⟩
    have hread := Numeral.read_eq_ok_iff.2 ⟨hdenotes, hlow, hhigh⟩
    simp only [Bytes.text?_ofString, hread]
    rfl

end CommandLine

/-! ## Executions -/

theorem CommandLine.Refusal.report_plain (view : String → String) (f : Fault) :
    (Refusal.plain f).report view =
      f.message view ++ "\n\nFor more information, try '--help'.\n" := by
  have hparts : (Refusal.plain f).report view =
      f.message view ++ "\n\n" ++ "" ++ "" ++ "For more information, try '--help'.\n" := rfl
  rw [hparts, String.append_empty, String.append_empty, String.append_assoc]
  rfl

theorem execute_invalidDepth_of_parse {args : List Bytes} {z : Int} {r : NumeralFault}
    (h : parse args = .error (.refused (.plain (.invalidDepth z.repr r))))
    (s : Execution.Surroundings) :
    execute args s = ⟨2, s.tree, "", "error: invalid value '" ++ z.repr ++
      "' for '[MAX_DEPTH]': " ++ r.message ++ "\n\nFor more information, try '--help'.\n"⟩ := by
  have hmessage : (Fault.invalidDepth z.repr r).message Console.visibleOnStream =
      "error: invalid value '" ++ Console.visibleOnStream z.repr ++ "' for '[MAX_DEPTH]': " ++
        r.message := rfl
  rw [execute_refused s h, Refusal.report_plain, hmessage, Console.visibleOnStream_repr]

/-- A depth below one is refused by the run, before it touches anything. -/
theorem execute_of_nonpositive {args : List Bytes} {o : Options} (h : parse args = .ok o)
    (hcheck : o.check = false) (hdepth : o.maxDepth ≤ 0) (s : Execution.Surroundings) :
    execute args s = ⟨1, s.tree, "", (Error.invalidDepth o.maxDepth).report⟩ := by
  have hheader : o.header = .error (.invalidDepth o.maxDepth) := by
    rw [o.header_eq, if_neg (by simp [hcheck]), Depth.accept, Depth.ofInt?_eq_none_iff.2 hdepth]
    rfl
  rw [execute_run s h, Execution.ofRun_eq, run_refused hheader]
  exact congrArg _ String.empty_append

/-- Which integers become a depth. One that does not fit into 64 bits is refused on the command line
and one below one by the run, and neither touches the files or standard output; every other one is
the depth. Behind a `--` the depth may be any numeral of an integer that fits, and nothing else. -/
theorem depth_admission {outfile : Bytes} (hne : outfile ≠ [])
    (hdash : ¬ Bytes.ofString "-" <+: outfile) :
    (∀ (z : Int) (s : Execution.Surroundings),
      let args := [outfile, Bytes.ofString z.repr]
      (2 ^ 63 - 1 < z →
        parse args = .error (.refused (.plain (.invalidDepth z.repr .tooLarge))) ∧
        execute args s = ⟨2, s.tree, "", "error: invalid value '" ++ z.repr ++
          "' for '[MAX_DEPTH]': " ++ "number too large to fit in target type" ++
          "\n\nFor more information, try '--help'.\n"⟩) ∧
      (z < -2 ^ 63 →
        parse args = .error (.refused (.plain (.invalidDepth z.repr .tooSmall))) ∧
        execute args s = ⟨2, s.tree, "", "error: invalid value '" ++ z.repr ++
          "' for '[MAX_DEPTH]': " ++ "number too small to fit in target type" ++
          "\n\nFor more information, try '--help'.\n"⟩) ∧
      (-2 ^ 63 ≤ z ∧ z ≤ 0 →
        parse args = .ok ⟨outfile, z, false, 0, false⟩ ∧
        Depth.accept z = .error (.invalidDepth z) ∧
        execute args s = ⟨1, s.tree, "", (Error.invalidDepth z).report⟩) ∧
      (1 ≤ z ∧ z ≤ 2 ^ 63 - 1 →
        parse args = .ok ⟨outfile, z, false, 0, false⟩ ∧
        ∃ d : Depth, Depth.accept z = .ok d ∧ d.level = z)) ∧
    ∀ (depth : Bytes) (o : Options), parse [outfile, Bytes.ofString "--", depth] = .ok o ↔
      ∃ (t : String) (z : Int), depth = Bytes.ofString t ∧ Numeral.Denotes t.toList z ∧
        -2 ^ 63 ≤ z ∧ z ≤ 2 ^ 63 - 1 ∧ o = ⟨outfile, z, false, 0, false⟩ := by
  have hleast : Numeral.least = -2 ^ 63 := rfl
  have hgreatest : Numeral.greatest = 2 ^ 63 - 1 := rfl
  refine ⟨fun z s => ?_, fun depth o => CommandLine.parse_terminated_eq_ok_iff hne hdash⟩
  have hparse := CommandLine.parse_integer hne hdash z
  rw [hleast, hgreatest] at hparse
  refine ⟨fun hhigh => ?_, fun hlow => ?_, fun hnonpositive => ?_, fun hdepth => ?_⟩
  · rw [if_pos hhigh] at hparse
    exact ⟨hparse, execute_invalidDepth_of_parse hparse s⟩
  · rw [if_neg (by omega), if_pos hlow] at hparse
    exact ⟨hparse, execute_invalidDepth_of_parse hparse s⟩
  · rw [if_neg (by omega), if_neg (by omega)] at hparse
    exact ⟨hparse, by rw [Depth.accept, Depth.ofInt?_eq_none_iff.2 hnonpositive.2],
      execute_of_nonpositive hparse rfl hnonpositive.2 s⟩
  · rw [if_neg (by omega), if_neg (by omega)] at hparse
    obtain ⟨d, rfl⟩ := Depth.exists_level_eq hdepth.1
    exact ⟨hparse, d, Depth.accept_level d, rfl⟩

/-- Both ends of the range from either side, and a numeral that no integer is printed as. -/
theorem depth_admission_ends :
    let s : Execution.Surroundings := ⟨⟨0o755, 0, []⟩, .writable, none, false⟩
    (execute (["a.hpp", "9223372036854775808"].map Bytes.ofString) s).exitCode = 2 ∧
      (execute (["a.hpp", "-9223372036854775809"].map Bytes.ofString) s).exitCode = 2 ∧
      (execute (["a.hpp", "-9223372036854775808"].map Bytes.ofString) s).exitCode = 1 ∧
      parse (["a.hpp", "9223372036854775807"].map Bytes.ofString) =
        .ok ⟨Bytes.ofString "a.hpp", 2 ^ 63 - 1, false, 0, false⟩ ∧
      parse (["a.hpp", "--", "+007"].map Bytes.ofString) =
        .ok ⟨Bytes.ofString "a.hpp", 7, false, 0, false⟩ := by
  intro s
  have hne : Bytes.ofString "a.hpp" ≠ [] := by decide
  have hdash : ¬ Bytes.ofString "-" <+: Bytes.ofString "a.hpp" := by decide
  have hdigits : Numeral.Digits ['0', '0', '7'] := ⟨by decide, List.all_eq_true.1 rfl⟩
  have hnumeral : Numeral.Denotes "+007".toList 7 := .plus hdigits
  obtain ⟨hinteger, hterminated⟩ := depth_admission hne hdash
  obtain ⟨htooLarge, -⟩ := hinteger (2 ^ 63) s
  obtain ⟨-, htooSmall, -⟩ := hinteger (-2 ^ 63 - 1) s
  obtain ⟨-, -, hleast, -⟩ := hinteger (-2 ^ 63) s
  obtain ⟨-, -, -, hgreatest⟩ := hinteger (2 ^ 63 - 1) s
  exact ⟨congrArg _ (htooLarge (by decide)).2, congrArg _ (htooSmall (by decide)).2,
    congrArg _ (hleast (by decide)).2.2, (hgreatest (by decide)).1,
    (hterminated _ _).2 ⟨"+007", 7, rfl, hnumeral, by decide, by decide, rfl⟩⟩

end FieldMacros
