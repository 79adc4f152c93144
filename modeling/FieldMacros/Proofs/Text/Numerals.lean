import FieldMacros.Text.Numeral

/-!
# Which texts are numerals

`Denotes cs z` says what a numeral is without saying how it is read: a sign, if
there is one, and at least one digit. The reader takes exactly the numerals of
integers that fit (`read_eq_ok_iff`).
-/

namespace FieldMacros.Numeral

structure Digits (cs : List Char) : Prop where
  ne_nil : cs ≠ []
  isDigit : ∀ c ∈ cs, c.isDigit = true

/-- What digits are worth in base ten. -/
def value (cs : List Char) : Nat :=
  Nat.ofDigitChars 10 cs 0

def natural? (s : String) : Option Nat :=
  if !s.toList.isEmpty && s.toList.all Char.isDigit then some (value s.toList) else none

theorem natural?_repr (n : Nat) : natural? n.repr = some n := by
  have hempty : n.repr.toList.isEmpty = false :=
    List.isEmpty_eq_false_iff.2 (repr_toList_ne_nil n)
  have hdigits : n.repr.toList.all Char.isDigit = true :=
    List.all_eq_true.2 fun _ hc => isDigit_of_mem_repr hc
  rw [natural?, hempty, hdigits, value, ofDigitChars_repr]
  rfl

theorem mapM_natural?_repr (ns : List Nat) : (ns.map Nat.repr).mapM natural? = some ns := by
  induction ns with
  | nil => rfl
  | cons n ns ih =>
    rw [List.map_cons, List.mapM_cons, natural?_repr, ih]
    rfl

/-- A text is a numeral of an integer. -/
inductive Denotes : List Char → Int → Prop
  | unsigned {cs : List Char} (h : Digits cs) : Denotes cs (value cs)
  | plus {cs : List Char} (h : Digits cs) : Denotes ('+' :: cs) (value cs)
  | minus {cs : List Char} (h : Digits cs) : Denotes ('-' :: cs) (-value cs)

theorem isDigit_of_digits {negative : Bool} {v z : Int} {cs : List Char}
    (h : digits negative v cs = .ok z) : ∀ c ∈ cs, c.isDigit = true := by
  fun_induction digits negative v cs with
  | case1 => exact List.forall_mem_nil _
  | case4 v c cs hc _ _ _ _ ih => exact List.forall_mem_cons.2 ⟨hc, ih h⟩
  | _ => cases h

theorem digits_of_magnitude {negative : Bool} {cs : List Char} {z : Int}
    (h : magnitude negative cs = .ok z) : Digits cs := by
  unfold magnitude at h
  split at h
  · cases h
  · next hne => exact ⟨fun hnil => hne (List.isEmpty_iff.2 hnil), isDigit_of_digits h⟩

def signed (negative : Bool) (n : Nat) : Int :=
  if negative then -n else n

theorem magnitude_eq {cs : List Char} (h : Digits cs) (negative : Bool) :
    magnitude negative cs =
      if least ≤ signed negative (value cs) ∧ signed negative (value cs) ≤ greatest then
        .ok (signed negative (value cs))
      else .error (if negative then .tooSmall else .tooLarge) := by
  have hempty : ¬cs.isEmpty = true := fun hnil => h.ne_nil (List.isEmpty_iff.1 hnil)
  have hvalue : Nat.ofDigitChars 10 cs 0 = value cs := rfl
  unfold magnitude
  rw [if_neg hempty]
  cases negative with
  | false =>
    have hlow : least ≤ (value cs : Int) := by
      simp only [least]
      omega
    have hread := digits_false h.isDigit 0
    simp only [Int.natCast_zero, h.ne_nil, false_or, hvalue] at hread
    simpa only [signed, Bool.false_eq_true, if_false, hlow, true_and] using hread
  | true =>
    have hhigh : -(value cs : Int) ≤ greatest := by
      simp only [greatest]
      omega
    have hread := digits_true h.isDigit 0
    simp only [Int.natCast_zero, Int.neg_zero, h.ne_nil, false_or, hvalue] at hread
    simpa only [signed, if_true, hhigh, and_true] using hread

theorem magnitude_eq_ok_iff {negative : Bool} {cs : List Char} {z : Int} :
    magnitude negative cs = .ok z ↔
      Digits cs ∧ z = signed negative (value cs) ∧ least ≤ z ∧ z ≤ greatest := by
  constructor
  · intro h
    have hcs := digits_of_magnitude h
    rw [magnitude_eq hcs] at h
    split at h
    · next hrange =>
      cases h
      exact ⟨hcs, rfl, hrange⟩
    · cases h
  · rintro ⟨hcs, rfl, hrange⟩
    rw [magnitude_eq hcs, if_pos hrange]

/-- The numerals that are read are those of the integers that fit. -/
theorem read_eq_ok_iff {cs : List Char} {z : Int} :
    read cs = .ok z ↔ Denotes cs z ∧ least ≤ z ∧ z ≤ greatest := by
  constructor
  · intro h
    unfold read at h
    split at h
    · cases h
    · obtain ⟨hcs, rfl, hrange⟩ := magnitude_eq_ok_iff.1 h
      exact ⟨.plus hcs, hrange⟩
    · obtain ⟨hcs, rfl, hrange⟩ := magnitude_eq_ok_iff.1 h
      exact ⟨.minus hcs, hrange⟩
    · obtain ⟨hcs, rfl, hrange⟩ := magnitude_eq_ok_iff.1 h
      exact ⟨.unsigned hcs, hrange⟩
  · rintro ⟨h, hrange⟩
    cases h with
    | unsigned h =>
      rw [read_eq_magnitude h.ne_nil h.isDigit]
      exact magnitude_eq_ok_iff.2 ⟨h, rfl, hrange⟩
    | plus h => exact magnitude_eq_ok_iff.2 ⟨h, rfl, hrange⟩
    | minus h => exact magnitude_eq_ok_iff.2 ⟨h, rfl, hrange⟩

end FieldMacros.Numeral
