import FieldMacros.CommandLine.Canonical

/-!
# What is taken over is admissible

Whatever the arguments are, an outfile that has been taken over is not empty and
a depth that has been is in range (`Progress.Valid`), since every step of the
reading keeps this. So options that come out of a command line are admissible
(`admissible_of_parse`).
-/

namespace FieldMacros.CommandLine

/-- A chain of steps that succeeds does so step by step. -/
theorem exists_of_bind {ε α β : Type} {x : Except ε α} {k : α → Except ε β} {r : β}
    (h : (x >>= k) = .ok r) : ∃ a, x = .ok a ∧ k a = .ok r := by
  cases x with
  | error e => cases h
  | ok a => exact ⟨a, rfl, h⟩

namespace Progress

/-- The operands that have been taken over are those of admissible options. -/
structure Valid (p : Progress) : Prop where
  outfile : ∀ b ∈ p.outfile, b ≠ []
  maxDepth : ∀ z ∈ p.maxDepth, Numeral.least ≤ z ∧ z ≤ Numeral.greatest

theorem valid_start : start.Valid where
  outfile := nofun
  maxDepth := nofun

namespace Valid

variable {p q : Progress}

/-- What the flags and the pending operand are has no part in it. -/
theorem congr (hp : p.Valid) (houtfile : q.outfile = p.outfile) (hdepth : q.maxDepth = p.maxDepth) :
    q.Valid where
  outfile := houtfile ▸ hp.outfile
  maxDepth := hdepth ▸ hp.maxDepth

theorem settle (hp : p.Valid) (h : p.settle = .ok q) : q.Valid := by
  unfold Progress.settle at h
  split at h
  · cases h
    exact hp
  · next b _ =>
    split at h
    · split at h
      · cases h
      · next hb =>
        cases h
        exact ⟨fun c hc => by cases hc; simpa using hb, hp.maxDepth⟩
    · split at h
      · cases h
      · split at h
        · cases h
        · next z hz =>
          cases h
          exact ⟨hp.outfile, fun y hy => by cases hy; exact Numeral.read_inRange hz⟩

theorem flag {f : Flag} (hp : p.Valid) (h : p.flag f = .ok q) : q.Valid := by
  obtain ⟨r, hr, h⟩ := exists_of_bind h
  have hsettled := hp.settle hr
  cases f with
  | help => cases h
  | version => cases h
  | verbose =>
    cases h
    exact hsettled.congr rfl rfl
  | check | quiet =>
    simp only at h
    split at h
    · cases h
    · cases h
      exact hsettled.congr rfl rfl

theorem long {name : List (Option Char)} {value : Option (List (Option Char))} (hp : p.Valid)
    (h : p.long name value = .ok q) : q.Valid := by
  unfold Progress.long at h
  split at h
  · split at h
    · exact hp.flag h
    · cases h
  · simp only at h
    split at h <;> cases h

theorem cluster {letters : List (Option Char)} (hp : p.Valid) (h : p.cluster letters = .ok q) :
    q.Valid := by
  induction letters generalizing p with
  | nil =>
    cases h
    exact hp
  | cons c letters ih =>
    unfold Progress.cluster at h
    split at h
    · obtain ⟨r, hr, h⟩ := exists_of_bind h
      exact ih (hp.flag hr) h
    · cases h

theorem operand {b : Bytes} (hp : p.Valid) (h : p.operand b = .ok q) : q.Valid := by
  unfold Progress.operand at h
  split at h
  · cases h
  · obtain ⟨r, hr, h⟩ := exists_of_bind h
    cases h
    exact (hp.settle hr).congr rfl rfl

theorem readAll {flagsAllowed : Bool} {args : List Bytes} (hp : p.Valid)
    (h : p.readAll flagsAllowed args = .ok q) : q.Valid := by
  induction args generalizing p flagsAllowed with
  | nil => exact hp.settle h
  | cons b args ih =>
    unfold Progress.readAll at h
    split at h
    · split at h
      · exact ih hp h
      · obtain ⟨r, hr, h⟩ := exists_of_bind h
        exact ih (hp.operand hr) h
      · obtain ⟨r, hr, h⟩ := exists_of_bind h
        exact ih (hp.long hr) h
      · split at h
        · obtain ⟨r, hr, h⟩ := exists_of_bind h
          exact ih (hp.operand hr) h
        · obtain ⟨r, hr, h⟩ := exists_of_bind h
          exact ih (hp.cluster hr) h
    · obtain ⟨r, hr, h⟩ := exists_of_bind h
      exact ih (hp.operand hr) h

end Valid

theorem conflict?_eq_none_iff {p : Progress} :
    p.conflict? = none ↔ ¬(.quiet ∈ p.flags ∧ .verbose ∈ p.flags) := by
  unfold conflict?
  split
  · next h =>
    have hconflict : ¬¬(Flag.quiet ∈ p.flags ∧ Flag.verbose ∈ p.flags) := not_not_intro h
    simp only [hconflict, iff_false]
    split <;> exact nofun
  · next h => simp [h]

theorem Valid.finish {p : Progress} {o : Options} (hp : p.Valid) (h : p.finish = .ok o) :
    o.Admissible := by
  unfold Progress.finish at h
  split at h
  · cases h
  · next hnone =>
    have hconflict := conflict?_eq_none_iff.1 hnone
    split at h
    · cases h
    · next b hb =>
      cases h
      have hdepth : Numeral.least ≤ p.maxDepth.getD Depth.documentLimit ∧
          p.maxDepth.getD Depth.documentLimit ≤ Numeral.greatest := by
        cases hz : p.maxDepth with
        | none => decide
        | some z => exact hp.maxDepth z hz
      refine ⟨hp.outfile b hb, hdepth.1, hdepth.2, Nat.min_le_right _ _, ?_⟩
      rintro ⟨hquiet, hverbose⟩
      have hcount : 0 < p.flags.count .verbose := Nat.lt_of_lt_of_le hverbose (Nat.min_le_left _ _)
      exact hconflict ⟨List.contains_iff_mem.1 hquiet, List.count_pos_iff.1 hcount⟩

end Progress

theorem admissible_of_parse {args : List Bytes} {o : Options} (h : parse args = .ok o) :
    o.Admissible := by
  obtain ⟨p, hp, h⟩ := exists_of_bind h
  exact (Progress.valid_start.readAll hp).finish h

end FieldMacros.CommandLine
