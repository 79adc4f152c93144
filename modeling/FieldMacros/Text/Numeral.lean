/-!
# Signed decimal numerals

Numerals of 64-bit integers: an optional sign and decimal digits. The digits
are read from the left, and the first one that is no digit or leads out of
range decides how the numeral is refused.
-/

namespace FieldMacros

inductive NumeralFault where
  | empty
  | invalidDigit
  | tooLarge
  | tooSmall
  deriving DecidableEq

namespace NumeralFault

def message : NumeralFault → String
  | empty => "cannot parse integer from empty string"
  | invalidDigit => "invalid digit found in string"
  | tooLarge => "number too large to fit in target type"
  | tooSmall => "number too small to fit in target type"

end NumeralFault

namespace Numeral

def greatest : Int := 0x7FFFFFFFFFFFFFFF

def least : Int := -0x8000000000000000

/-- Reads further digits of a numeral whose digits so far have the value `value`. -/
def digits (negative : Bool) (value : Int) : List Char → Except NumeralFault Int
  | [] => .ok value
  | c :: cs =>
    if c.isDigit then
      let d : Int := (c.toNat - '0'.toNat : Nat)
      let next := if negative then value * 10 - d else value * 10 + d
      if next < least then .error .tooSmall
      else if greatest < next then .error .tooLarge
      else digits negative next cs
    else .error .invalidDigit

def magnitude (negative : Bool) (cs : List Char) : Except NumeralFault Int :=
  if cs.isEmpty then .error .invalidDigit else digits negative 0 cs

/-- The integer that a numeral stands for. -/
def read (cs : List Char) : Except NumeralFault Int :=
  match cs with
  | [] => .error .empty
  | '+' :: rest => magnitude false rest
  | '-' :: rest => magnitude true rest
  | _ => magnitude false cs

/-! ## Range -/

theorem digits_inRange {negative : Bool} {value z : Int} {cs : List Char}
    (hvalue : least ≤ value ∧ value ≤ greatest) (h : digits negative value cs = .ok z) :
    least ≤ z ∧ z ≤ greatest := by
  fun_induction digits negative value cs with
  | case1 value =>
    cases h
    exact hvalue
  | case4 value c cs _ d next hlow hhigh ih =>
    exact ih ⟨Int.not_lt.1 hlow, Int.not_lt.1 hhigh⟩ h
  | _ => cases h

theorem magnitude_inRange {negative : Bool} {z : Int} {cs : List Char}
    (h : magnitude negative cs = .ok z) : least ≤ z ∧ z ≤ greatest := by
  unfold magnitude at h
  split at h
  · cases h
  · exact digits_inRange ⟨by decide, by decide⟩ h

/-- Only integers that fit are read. -/
theorem read_inRange {z : Int} {cs : List Char} (h : read cs = .ok z) :
    least ≤ z ∧ z ≤ greatest := by
  unfold read at h
  split at h
  · cases h
  · exact magnitude_inRange h
  · exact magnitude_inRange h
  · exact magnitude_inRange h

/-! ## Numerals as they are printed -/

theorem le_ofDigitChars (cs : List Char) (v : Nat) : v ≤ Nat.ofDigitChars 10 cs v := by
  induction cs generalizing v with
  | nil => simp
  | cons c cs ih =>
    rw [Nat.ofDigitChars_cons]
    exact Nat.le_trans (by omega) (ih _)

theorem digits_false {cs : List Char} (hd : ∀ c ∈ cs, c.isDigit = true) (v : Nat) :
    digits false v cs =
      if cs = [] ∨ (Nat.ofDigitChars 10 cs v : Int) ≤ greatest then .ok (Nat.ofDigitChars 10 cs v)
      else .error .tooLarge := by
  induction cs generalizing v with
  | nil => simp [digits]
  | cons c cs ih =>
    have hc := hd c (by simp)
    have hnext : (v : Int) * 10 + ((c.toNat - '0'.toNat : Nat) : Int) =
        ((10 * v + (c.toNat - '0'.toNat) : Nat) : Int) := by omega
    have hle := le_ofDigitChars cs (10 * v + (c.toNat - '0'.toNat))
    have hlo : ¬ ((10 * v + (c.toNat - '0'.toNat) : Nat) : Int) < least := by
      simp only [least]; omega
    simp only [digits, hc, if_true, Bool.false_eq_true, if_false, hnext, hlo,
      Nat.ofDigitChars_cons, reduceCtorEq, false_or]
    split
    · rw [if_neg]
      omega
    · rw [ih fun d hd' => hd d (by simp [hd'])]
      by_cases hcs : cs = []
      · subst hcs
        rw [if_pos (Or.inl rfl), if_pos]
        rw [Nat.ofDigitChars_nil]
        omega
      · simp [hcs]

theorem digits_true {cs : List Char} (hd : ∀ c ∈ cs, c.isDigit = true) (v : Nat) :
    digits true (-v) cs =
      if cs = [] ∨ least ≤ -(Nat.ofDigitChars 10 cs v : Int) then
        .ok (-(Nat.ofDigitChars 10 cs v : Int))
      else .error .tooSmall := by
  induction cs generalizing v with
  | nil => simp [digits]
  | cons c cs ih =>
    have hc := hd c (by simp)
    have hnext : -(v : Int) * 10 - ((c.toNat - '0'.toNat : Nat) : Int) =
        -((10 * v + (c.toNat - '0'.toNat) : Nat) : Int) := by omega
    have hle := le_ofDigitChars cs (10 * v + (c.toNat - '0'.toNat))
    have hhi : ¬ greatest < -((10 * v + (c.toNat - '0'.toNat) : Nat) : Int) := by
      simp only [greatest]; omega
    simp only [digits, hc, if_true, hnext, Nat.ofDigitChars_cons, reduceCtorEq, false_or]
    split
    · rw [if_neg]
      omega
    · rw [ih fun d hd' => hd d (by simp [hd'])]
      by_cases hcs : cs = []
      · subst hcs
        rw [if_pos (Or.inl rfl), if_pos]
        rw [Nat.ofDigitChars_nil]
        omega
      · simp [hcs]

theorem isDigit_of_mem_repr {n : Nat} {c : Char} (h : c ∈ n.repr.toList) : c.isDigit = true :=
  Nat.isDigit_of_mem_toDigits (by decide) (by decide) (Nat.toList_repr ▸ h)

theorem not_mem_repr {c : Char} (h : c.isDigit = false) (n : Nat) : c ∉ n.repr.toList := by
  intro hmem
  rw [isDigit_of_mem_repr hmem] at h
  cases h

theorem repr_toList_ne_nil (n : Nat) : n.repr.toList ≠ [] := by
  rw [Nat.toList_repr]
  exact Nat.toDigits_ne_nil

/-- Digits without a sign are read as a magnitude. -/
theorem read_eq_magnitude {cs : List Char} (hne : cs ≠ []) (hd : ∀ c ∈ cs, c.isDigit = true) :
    read cs = magnitude false cs := by
  cases cs with
  | nil => exact absurd rfl hne
  | cons c cs =>
    have hc := hd c (by simp)
    unfold read
    split
    · simp_all
    · simp_all [Char.isDigit]
    · simp_all [Char.isDigit]
    · rfl

theorem ofDigitChars_repr (n : Nat) : Nat.ofDigitChars 10 n.repr.toList 0 = n := by
  rw [Nat.toList_repr, Nat.ofDigitChars_ten_toDigits]

/-- A printed integer is read back exactly when it is in range. -/
theorem read_repr (z : Int) :
    read z.repr.toList =
      if greatest < z then .error .tooLarge else if z < least then .error .tooSmall else .ok z := by
  cases z with
  | ofNat n =>
    have h := digits_false (fun c hc => isDigit_of_mem_repr (n := n) hc) 0
    have hlo : ¬ (Int.ofNat n) < least := by simp only [least, Int.ofNat_eq_natCast]; omega
    rw [Int.repr, read_eq_magnitude (repr_toList_ne_nil n) fun c hc => isDigit_of_mem_repr hc,
      magnitude, if_neg (by simp)]
    simp only [Int.natCast_zero] at h
    rw [h, ofDigitChars_repr]
    simp only [repr_toList_ne_nil, false_or, Int.ofNat_eq_natCast] at hlo ⊢
    rw [if_neg hlo]
    by_cases hz : greatest < (n : Int)
    · rw [if_pos hz, if_neg (by omega)]
    · rw [if_neg hz, if_pos (by omega)]
  | negSucc n =>
    have h := digits_true (fun c hc => isDigit_of_mem_repr (n := n + 1) hc) 0
    have hhi : ¬ greatest < Int.negSucc n := by simp only [greatest]; omega
    have hz : Int.negSucc n = -((n + 1 : Nat) : Int) := rfl
    simp only [Int.natCast_zero, Int.neg_zero] at h
    rw [Int.repr, String.toList_append]
    show magnitude true (n + 1).repr.toList = _
    rw [magnitude, if_neg (by simp), h, ofDigitChars_repr,
      if_neg hhi]
    simp only [repr_toList_ne_nil, false_or, hz]
    by_cases hs : -((n + 1 : Nat) : Int) < least
    · rw [if_pos hs, if_neg (by omega)]
    · rw [if_neg hs, if_pos (by omega)]

end Numeral

end FieldMacros
