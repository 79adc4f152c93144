import FieldMacros.Preprocessor.Token
import Mathlib.Data.List.TakeWhile

/-!
# Texts read token by token

A text falls apart into the tokens of its parts wherever no identifier or
number runs across the cut: `ofString_cut` cuts on both sides of a part that
begins and ends with punctuation. `IsIdentifier` is what reads as one
identifier, and `uses` counts the calls of a name in a list of tokens.
-/

namespace FieldMacros.Token

theorem ofChars_nil : ofChars [] = [] := by
  rw [ofChars]

theorem ofChars_blank {c : Char} (h : isBlank c = true) (cs : List Char) :
    ofChars (c :: cs) = ofChars cs := by
  rw [ofChars, if_pos h]

theorem ofChars_identifier {c : Char} (hb : isBlank c = false) (hi : beginsIdentifier c = true)
    (cs : List Char) :
    ofChars (c :: cs) = identifier (String.ofList (c :: cs.takeWhile continuesIdentifier)) ::
      ofChars (cs.dropWhile continuesIdentifier) := by
  rw [ofChars, if_neg (by simp [hb]), if_pos hi]

theorem ofChars_number {c : Char} (hb : isBlank c = false) (hi : beginsIdentifier c = false)
    (hd : c.isDigit = true) (cs : List Char) :
    ofChars (c :: cs) = number (String.ofList (c :: cs.takeWhile continuesIdentifier)) ::
      ofChars (cs.dropWhile continuesIdentifier) := by
  rw [ofChars, if_neg (by simp [hb]), if_neg (by simp [hi]), if_pos hd]

theorem ofChars_symbol {c : Char} (hb : isBlank c = false) (hi : beginsIdentifier c = false)
    (hd : c.isDigit = false) (cs : List Char) :
    ofChars (c :: cs) = symbol c :: ofChars cs := by
  rw [ofChars, if_neg (by simp [hb]), if_neg (by simp [hi]), if_neg (by simp [hd])]

theorem continues_of_begins {c : Char} (h : beginsIdentifier c = true) :
    continuesIdentifier c = true := by
  simp only [beginsIdentifier, continuesIdentifier, Char.isAlphanum, Bool.or_eq_true] at h ⊢
  rcases h with h | h
  · exact .inl (.inl h)
  · exact .inr h

theorem continues_of_isDigit {c : Char} (h : c.isDigit = true) : continuesIdentifier c = true := by
  simp [continuesIdentifier, Char.isAlphanum, h]

/-! ## Cuts -/

/-- No word goes on into the text. -/
def Stops (cs : List Char) : Prop :=
  ∀ c ∈ cs.head?, continuesIdentifier c = false

theorem Stops.takeWhile_append {bs : List Char} (h : Stops bs) (as : List Char) :
    (as ++ bs).takeWhile continuesIdentifier = as.takeWhile continuesIdentifier := by
  induction as with
  | nil =>
    cases bs with
    | nil => rfl
    | cons b bs => simp [h b rfl]
  | cons a as ih =>
    simp only [List.cons_append, List.takeWhile_cons, ih]

theorem Stops.dropWhile_append {bs : List Char} (h : Stops bs) (as : List Char) :
    (as ++ bs).dropWhile continuesIdentifier = as.dropWhile continuesIdentifier ++ bs := by
  induction as with
  | nil =>
    cases bs with
    | nil => rfl
    | cons b bs => simp [h b rfl]
  | cons a as ih =>
    simp only [List.cons_append, List.dropWhile_cons, ih]
    split <;> rfl

theorem ofChars_append {bs : List Char} (h : Stops bs) (as : List Char) :
    ofChars (as ++ bs) = ofChars as ++ ofChars bs := by
  fun_induction ofChars as with
  | case1 => rfl
  | case2 c cs hb ih => rw [List.cons_append, ofChars_blank hb, ih]
  | case3 c cs hb hi ih =>
    rw [List.cons_append, ofChars_identifier (by simpa using hb) hi, h.takeWhile_append,
      h.dropWhile_append, ih, List.cons_append]
  | case4 c cs hb hi hd ih =>
    rw [List.cons_append, ofChars_number (by simpa using hb) (by simpa using hi) hd,
      h.takeWhile_append, h.dropWhile_append, ih, List.cons_append]
  | case5 c cs hb hi hd ih =>
    rw [List.cons_append, ofChars_symbol (by simpa using hb) (by simpa using hi)
      (by simpa using hd), ih, List.cons_append]

/-- A character that is in no word is cut off on both sides. -/
theorem ofChars_cons {c : Char} (h : continuesIdentifier c = false) (cs : List Char) :
    ofChars (c :: cs) = ofChars [c] ++ ofChars cs := by
  have hi : beginsIdentifier c = false := by
    cases hb : beginsIdentifier c with
    | false => rfl
    | true => rw [continues_of_begins hb] at h; cases h
  have hd : c.isDigit = false := by
    cases hb : c.isDigit with
    | false => rfl
    | true => rw [continues_of_isDigit hb] at h; cases h
  cases hb : isBlank c with
  | true => rw [ofChars_blank hb, ofChars_blank hb, ofChars_nil, List.nil_append]
  | false => rw [ofChars_symbol hb hi hd, ofChars_symbol hb hi hd, ofChars_nil]; rfl

-- Named, since the search may prefer an instance that runs through all characters.
instance (cs : List Char) : Decidable (Stops cs) :=
  Option.decidableForallMem (p := fun c => continuesIdentifier c = false) cs.head?

/-- A text in which no word of its surroundings goes on. -/
def Severs (s : String) : Prop :=
  s ≠ "" ∧ Stops s.toList ∧ Stops s.toList.reverse

instance (s : String) : Decidable (Severs s) :=
  inferInstanceAs (Decidable (_ ∧ _ ∧ _))

theorem ofString_append {t : String} (h : Severs t) (s : String) :
    ofString (s ++ t) = ofString s ++ ofString t := by
  rw [ofString, String.toList_append, ofChars_append h.2.1, ofString, ofString]

/-- A text falls apart on both sides of a severing part. -/
theorem ofString_cut {u : String} (h : Severs u) (s t : String) :
    ofString (s ++ u ++ t) = ofString s ++ ofString u ++ ofString t := by
  obtain ⟨hne, hstop, hlast⟩ := h
  rcases List.eq_nil_or_concat u.toList with hu | ⟨cs, c, hu⟩
  · exact absurd (String.toList_eq_nil_iff.1 hu) hne
  · have hc : continuesIdentifier c = false := hlast c (by simp [hu])
    have hstopc : ∀ ds, Stops (c :: ds) := fun ds d hd => by
      cases hd; exact hc
    have hstopu : Stops (u.toList ++ t.toList) := fun d hd => by
      cases cs with
      | nil => rw [hu] at hd; cases hd; exact hc
      | cons e es => rw [hu] at hstop hd; exact hstop d hd
    rw [List.concat_eq_append] at hu
    have hright : ofChars (u.toList ++ t.toList) = ofChars u.toList ++ ofChars t.toList := by
      rw [hu, List.append_assoc, ofChars_append (hstopc []), List.singleton_append,
        ofChars_append (hstopc _), ofChars_cons hc t.toList, List.append_assoc]
    rw [ofString, String.toList_append, String.toList_append, List.append_assoc,
      ofChars_append hstopu, hright, ofString, ofString, ofString, List.append_assoc]

/-! ## Words -/

structure IsIdentifier (s : String) : Prop where
  begins : s.toList.head?.any beginsIdentifier = true
  continues : s.toList.all continuesIdentifier = true

instance (s : String) : Decidable (IsIdentifier s) :=
  decidable_of_iff (s.toList.head?.any beginsIdentifier = true ∧
    s.toList.all continuesIdentifier = true) ⟨fun h => ⟨h.1, h.2⟩, fun h => ⟨h.1, h.2⟩⟩

theorem IsIdentifier.exists_cons {s : String} (h : IsIdentifier s) :
    ∃ c cs, s.toList = c :: cs ∧ beginsIdentifier c = true ∧
      ∀ d ∈ cs, continuesIdentifier d = true := by
  obtain ⟨hbegins, hcontinues⟩ := h
  cases hs : s.toList with
  | nil => rw [hs] at hbegins; cases hbegins
  | cons c cs =>
    rw [hs] at hbegins hcontinues
    rw [List.all_cons, Bool.and_eq_true] at hcontinues
    exact ⟨c, cs, rfl, hbegins, List.all_eq_true.1 hcontinues.2⟩

theorem isBlank_eq_false {c : Char} (h : continuesIdentifier c = true) : isBlank c = false := by
  cases hb : isBlank c with
  | false => rfl
  | true =>
    simp only [isBlank, Bool.or_eq_true, beq_iff_eq] at hb
    rcases hb with ((rfl | rfl) | rfl) | rfl <;> revert h <;> decide

theorem beginsIdentifier_eq_false {c : Char} (h : c.isDigit = true) :
    beginsIdentifier c = false := by
  have hdigit : c.toNat ≤ 57 := (Char.isDigit_iff_toNat.1 h).2
  unfold beginsIdentifier
  rw [Bool.or_eq_false_iff]
  constructor
  · refine Bool.or_eq_false_iff.2 ⟨decide_eq_false fun hupper => ?_, ?_⟩
    · have hge : 65 ≤ c.toNat := UInt32.le_iff_toNat_le.1 hupper.1
      omega
    · refine Bool.and_eq_false_imp.2 fun hlower => ?_
      have hge : 97 ≤ c.toNat := UInt32.le_iff_toNat_le.1 (of_decide_eq_true hlower)
      omega
  · rw [beq_eq_false_iff_ne]
    rintro rfl
    exact absurd hdigit (by decide)

theorem ofString_of_isIdentifier {s : String} (h : IsIdentifier s) :
    ofString s = [identifier s] := by
  obtain ⟨c, cs, hs, hc, hcs⟩ := h.exists_cons
  unfold ofString
  rw [hs, ofChars_identifier (isBlank_eq_false (continues_of_begins hc)) hc,
    List.takeWhile_eq_self_iff.2 hcs, List.dropWhile_eq_nil_iff.2 hcs, ofChars_nil, ← hs,
    String.ofList_toList]

/-- A text of digits alone is one number. -/
theorem ofString_of_digits {s : String} (hne : s.toList ≠ [])
    (h : ∀ c ∈ s.toList, c.isDigit = true) : ofString s = [number s] := by
  obtain ⟨c, cs, hs⟩ := List.exists_cons_of_ne_nil hne
  rw [hs] at h
  have hc := h c (by simp)
  have hcs : ∀ d ∈ cs, continuesIdentifier d = true := fun d hd =>
    continues_of_isDigit (h d (List.mem_cons_of_mem c hd))
  unfold ofString
  rw [hs, ofChars_number (isBlank_eq_false (continues_of_isDigit hc))
    (beginsIdentifier_eq_false hc) hc, List.takeWhile_eq_self_iff.2 hcs,
    List.dropWhile_eq_nil_iff.2 hcs, ofChars_nil, ← hs, String.ofList_toList]

def identifiers (ts : List Token) : List String :=
  ts.filterMap fun
    | identifier name => some name
    | _ => none

theorem mem_identifiers {name : String} {ts : List Token} :
    name ∈ identifiers ts ↔ identifier name ∈ ts := by
  rw [identifiers, List.mem_filterMap]
  constructor
  · rintro ⟨t, ht, hname⟩
    cases t with
    | identifier s => rwa [← Option.some.inj hname]
    | number _ => cases hname
    | symbol _ => cases hname
  · intro h
    exact ⟨_, h, rfl⟩

theorem identifiers_append (ts us : List Token) :
    identifiers (ts ++ us) = identifiers ts ++ identifiers us :=
  List.filterMap_append

/-! ## Calls -/

/-- How often a name stands in front of an opening parenthesis. -/
def uses (name : String) : List Token → Nat
  | [] => 0
  | t :: ts => (if t = identifier name ∧ ts.head? = some (symbol '(') then 1 else 0) + uses name ts

/-- The uses in two lists are those of each, unless one begins at the end of the first. -/
theorem uses_append {name : String} {ts us : List Token}
    (h : ts.getLast? ≠ some (identifier name) ∨ us.head? ≠ some (symbol '(')) :
    uses name (ts ++ us) = uses name ts + uses name us := by
  induction ts with
  | nil => simp [uses]
  | cons t ts ih =>
    cases ts with
    | nil =>
      have hboundary : ¬(t = identifier name ∧ us.head? = some (symbol '(')) := by
        rintro ⟨rfl, hus⟩
        rcases h with h | h
        · exact h rfl
        · exact h hus
      simp [uses, hboundary]
    | cons u ts =>
      have ih := ih (by simpa using h)
      rw [List.cons_append, uses, ih, uses.eq_2 name t (u :: ts), List.cons_append, List.head?_cons,
        List.head?_cons, Nat.add_assoc]

end FieldMacros.Token
