import FieldMacros.Proofs.FileTree.PlainName
import FieldMacros.Proofs.Run.Modes
import FieldMacros.Proofs.Text.Encoding

/-!
# What a check accepts

No header begins with another one: the lines of the shorter text would be lines
of the longer one, and its selector would tell the other depth
(`Header.text_prefix_iff`). So a header that has been cut short is no header,
and a check accepts a content at one depth at most (`Header.text_prefix_free`).
-/

namespace FieldMacros

open CommandLine (Options stdoutName)

namespace Header

theorem text_prefix_iff {a b : Depth} : (text a).toList <+: (text b).toList ↔ a = b := by
  constructor
  · rintro ⟨cs, hcs⟩
    have htext : text b = text a ++ String.ofList cs := by
      rw [← String.toList_inj, String.toList_append, String.toList_ofList, hcs]
    -- The macros of the shorter text come first, and the third of each text is its selector.
    have hmacros : macros b = macros a ++ Macro.readAll (String.ofList cs) := by
      rw [← readAll_text b, htext, Macro.readAll_append (ended_text a), readAll_text]
    unfold macros sized at hmacros
    have hsized := (List.cons.inj (List.cons.inj hmacros).2).2
    exact (Counting.selectorMacro_injective (List.cons.inj hsized).1).symm
  · rintro rfl
    exact List.prefix_rfl

/-- A header that has been cut short is not that of any depth. -/
theorem take_ofString_text_ne {a b : Depth} {n : Nat}
    (h : n < (Bytes.ofString (text a)).length) :
    (Bytes.ofString (text a)).take n ≠ Bytes.ofString (text b) := by
  intro htake
  have hprefix : Bytes.ofString (text b) <+: Bytes.ofString (text a) := by
    rw [← htake]
    exact List.take_prefix n _
  obtain rfl := text_prefix_iff.1 (Bytes.ofString_prefix_iff.1 hprefix)
  have hlen := congrArg List.length htake
  rw [List.length_take] at hlen
  omega

end Header

/-! ## Checks -/

/-- A check for the depth `z` of some file with the given content goes well. -/
def Accepts (z : Int) (content : ByteArray) : Prop :=
  ∃ (o : Options) (t : FileTree) (out : Stdout), o.check = true ∧ o.maxDepth = z ∧
    t.read o.outfile = .ok content ∧ (run o t out).verdict.result = .ok ()

/-- A check accepts the header of its depth and nothing else. -/
theorem accepts_iff {z : Int} {content : ByteArray} :
    Accepts z content ↔ ∃ d : Depth, z = d.level ∧ content = (Header.text d).toUTF8 := by
  constructor
  · rintro ⟨o, t, out, hcheck, rfl, hread, hok⟩
    rcases run_cases o t out with ⟨e, heffect⟩ | ⟨d, hdepth, hmode⟩
    · rw [(Outcome.effect_eq_iff.1 heffect).1] at hok
      cases hok
    rcases hmode with ⟨-, heffect⟩ | ⟨hprint, -⟩ | ⟨hwrite, -⟩
    · rw [(Outcome.effect_eq_iff.1 heffect).1,
        Verdict.result_check_eq_ok_iff (Header.text_ne_empty d), FileTree.readText_eq_ok_iff, hread,
        Except.ok.injEq] at hok
      exact ⟨d, hdepth, hok⟩
    · rw [hcheck] at hprint
      cases hprint
    · rw [hcheck] at hwrite
      cases hwrite
  · rintro ⟨d, rfl, rfl⟩
    let name : Bytes := [0x61]
    let o : Options := ⟨name, d.level, true, 0, false⟩
    let t : FileTree := ⟨0o755, 0, [([name], .file 0o644 (Header.text d).toUTF8)]⟩
    have hplain : Path.IsPlainName name := by decide
    have hout : name ≠ stdoutName := by decide
    have hread : t.read name = .ok (Header.text d).toUTF8 := FileTree.read_plainName hplain rfl
    have heffect := run_check (o := o) rfl rfl hout t .writable
    refine ⟨o, t, .writable, rfl, rfl, hread, ?_⟩
    rw [(Outcome.effect_eq_iff.1 heffect).1,
      Verdict.result_check_eq_ok_iff (Header.text_ne_empty d)]
    exact FileTree.readText_eq_ok_iff.2 hread

/-- A header begins with another one only if both are the same, so the text tells the depth; a
header that has been cut short is none, and a content is accepted at one depth at most. -/
theorem Header.text_prefix_free :
    (∀ a b : Depth, (text a).toList <+: (text b).toList ↔ a = b) ∧
      Function.Injective text ∧
      (∀ (a b : Depth) (n : Nat), n < (Bytes.ofString (text a)).length →
        (Bytes.ofString (text a)).take n ≠ Bytes.ofString (text b)) ∧
      ∀ (content : ByteArray) (z z' : Int), Accepts z content → Accepts z' content → z = z' := by
  refine ⟨fun a b => text_prefix_iff, fun a b h => text_injective h,
    fun a b n hn => take_ofString_text_ne hn, ?_⟩
  intro content z z' hz hz'
  obtain ⟨d, rfl, rfl⟩ := accepts_iff.1 hz
  obtain ⟨d', rfl, htext⟩ := accepts_iff.1 hz'
  rw [text_injective (String.toByteArray_inj.1 htext)]

end FieldMacros
