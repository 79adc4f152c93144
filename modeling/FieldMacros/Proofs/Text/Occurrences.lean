import FieldMacros.Proofs.Text.Pieces
import FieldMacros.Text.Occurrence
import Mathlib.Algebra.GroupWithZero.Nat

/-!
# Counting occurrences

An occurrence runs across no character that the text sought lacks: cut at such
a character, a text has the occurrences of its parts
(`occurrencesIn_append_cons`), and cut at its line feeds those of its pieces
(`occurrences_eq_sum`). A word that stands out is met wherever it is written and
nowhere else (`StandsOut.occurrencesIn_append`).
-/

namespace FieldMacros.Text

section Needle

variable {needle : List Char}

/-- A longer text occurs no more often than what it begins with. -/
theorem occurrencesIn_append_le (needle more cs : List Char) :
    occurrencesIn (needle ++ more) cs ≤ occurrencesIn needle cs := by
  induction cs with
  | nil =>
    cases needle with
    | nil => cases more <;> simp [occurrencesIn]
    | cons n ns => simp [occurrencesIn]
  | cons c cs ih =>
    have hstart : (needle ++ more).isPrefixOf (c :: cs) = true → needle.isPrefixOf (c :: cs) = true := by
      rw [List.isPrefixOf_iff_prefix, List.isPrefixOf_iff_prefix]
      exact (List.prefix_append needle more).trans
    simp only [occurrencesIn]
    split
    · rename_i h
      rw [if_pos (hstart h)]
      exact Nat.add_le_add_left ih 1
    · exact Nat.add_le_add (Nat.zero_le _) ih

/-- The text sought occurs in every text that it is a part of. -/
theorem occurrencesIn_pos_iff {cs : List Char} : 0 < occurrencesIn needle cs ↔ needle <:+: cs := by
  induction cs with
  | nil =>
    rw [occurrencesIn, List.infix_nil, ← List.isEmpty_iff]
    split <;> simp_all
  | cons c cs ih =>
    rw [occurrencesIn, List.infix_cons_iff, ← ih, ← List.isPrefixOf_iff_prefix]
    split
    · next h => exact iff_of_true (Nat.add_pos_left Nat.one_pos _) (.inl h)
    · next h => simp [h]

/-- Where a longer text occurs as often as what it begins with, each occurrence of the latter is one
of the longer text. -/
theorem append_prefix_drop {more cs : List Char}
    (h : occurrencesIn (needle ++ more) cs = occurrencesIn needle cs) {i : Nat}
    (hi : needle <+: cs.drop i) : needle ++ more <+: cs.drop i := by
  induction cs generalizing i with
  | nil =>
    rw [List.drop_nil, List.prefix_nil] at hi
    subst hi
    cases more with
    | nil => exact List.nil_prefix
    | cons m ms => cases h
  | cons c cs ih =>
    have hle := occurrencesIn_append_le needle more cs
    have hstart : needle ++ more <+: c :: cs → needle <+: c :: cs :=
      (List.prefix_append needle more).trans
    simp only [occurrencesIn, List.isPrefixOf_iff_prefix] at h
    cases i with
    | zero =>
      rw [List.drop_zero] at hi ⊢
      rw [if_pos hi] at h
      split at h
      · next hmore => exact hmore
      · omega
    | succ i =>
      refine ih ?_ hi
      split at h
      · next hmore =>
        rw [if_pos (hstart hmore)] at h
        omega
      · omega

/-- If no occurrence begins in the first part of a text, all of them are in the rest. -/
theorem occurrencesIn_append_left {xs ys : List Char}
    (h : ∀ zs, zs <:+ xs → zs ≠ [] → ¬needle <+: zs ++ ys) :
    occurrencesIn needle (xs ++ ys) = occurrencesIn needle ys := by
  induction xs with
  | nil => rfl
  | cons x xs ih =>
    have hstart := h (x :: xs) List.suffix_rfl (List.cons_ne_nil x xs)
    have hrest := ih fun zs hzs => h zs (hzs.trans (List.suffix_cons x xs))
    rw [← List.isPrefixOf_iff_prefix, List.cons_append] at hstart
    rw [List.cons_append, occurrencesIn.eq_2, if_neg hstart, hrest, Nat.zero_add]

theorem occurrencesIn_eq_zero {c : Char} (hc : c ∈ needle) {cs : List Char} (h : c ∉ cs) :
    occurrencesIn needle cs = 0 := by
  induction cs with
  | nil =>
    have hne : needle ≠ [] := List.ne_nil_of_mem hc
    simp [occurrencesIn, hne]
  | cons d cs ih =>
    have hstart : needle.isPrefixOf (d :: cs) = false := by
      rw [Bool.eq_false_iff, ne_eq, List.isPrefixOf_iff_prefix]
      exact fun hpre => h (hpre.subset hc)
    rw [occurrencesIn, hstart, ih fun hmem => h (List.mem_cons_of_mem d hmem)]
    rfl

/-- A text that does not occur stands at the beginning of no suffix. -/
theorem isPrefixOf_eq_false {cs : List Char} (hne : needle ≠ [])
    (h : occurrencesIn needle cs = 0) : needle.isPrefixOf cs = false := by
  cases cs with
  | nil =>
    cases needle with
    | nil => exact absurd rfl hne
    | cons n ns => rfl
  | cons c cs =>
    rw [occurrencesIn, Nat.add_eq_zero_iff, ite_eq_right_iff] at h
    exact Bool.eq_false_iff.2 fun hstart => Nat.one_ne_zero (h.1 hstart)

section Separator

variable {sep : Char} (hsep : sep ∉ needle)

include hsep

theorem isPrefixOf_append_cons (xs ys : List Char) :
    needle.isPrefixOf (xs ++ sep :: ys) = needle.isPrefixOf xs := by
  induction needle generalizing xs with
  | nil => rfl
  | cons n ns ih =>
    rw [List.mem_cons, not_or] at hsep
    cases xs with
    | nil => simp [List.isPrefixOf, Ne.symm hsep.1]
    | cons x xs =>
      rw [List.cons_append, List.isPrefixOf, ih hsep.2 xs, List.isPrefixOf]

variable (hne : needle ≠ [])

include hne

/-- No occurrence runs across a character that the text sought lacks. -/
theorem occurrencesIn_append_cons (xs ys : List Char) :
    occurrencesIn needle (xs ++ sep :: ys) =
      occurrencesIn needle xs + occurrencesIn needle ys := by
  induction xs with
  | nil =>
    have hstart : needle.isPrefixOf (sep :: ys) = needle.isPrefixOf [] :=
      isPrefixOf_append_cons hsep [] ys
    cases needle with
    | nil => exact absurd rfl hne
    | cons n ns =>
      rw [List.nil_append, occurrencesIn.eq_2, hstart]
      rfl
  | cons x xs ih =>
    rw [List.cons_append, occurrencesIn, ih, ← List.cons_append, isPrefixOf_append_cons hsep,
      occurrencesIn, Nat.add_assoc]

theorem occurrencesIn_intercalate {ls : List (List Char)} (h : ls ≠ []) :
    occurrencesIn needle ([sep].intercalate ls) = (ls.map (occurrencesIn needle)).sum := by
  induction ls with
  | nil => exact absurd rfl h
  | cons l ls ih =>
    cases ls with
    | nil => simp
    | cons k ks =>
      rw [List.intercalate_cons_cons, List.append_assoc, List.singleton_append,
        occurrencesIn_append_cons hsep hne, ih (List.cons_ne_nil k ks)]
      simp only [List.map_cons, List.sum_cons]

end Separator

end Needle

/-! ## The first occurrence -/

/-- A text that begins with a character of its own occurs first where it is put. -/
theorem behindIn?_append {c : Char} {xs : List Char} (h : c ∉ xs) (word ys : List Char) :
    behindIn? (c :: word) (xs ++ (c :: word ++ ys)) = some ys := by
  induction xs with
  | nil =>
    have hstart : (c :: word).isPrefixOf (c :: word ++ ys) = true := by
      rw [List.isPrefixOf_iff_prefix]
      exact List.prefix_append _ _
    have hdrop : (c :: word ++ ys).drop (c :: word).length = ys := List.drop_left
    rw [List.nil_append]
    unfold behindIn?
    exact (if_pos hstart).trans (congrArg some hdrop)
  | cons x xs ih =>
    rw [List.mem_cons, not_or] at h
    have hstart : ¬(c :: word).isPrefixOf (x :: (xs ++ (c :: word ++ ys))) = true := by
      rw [List.isPrefixOf_iff_prefix, List.cons_prefix_cons]
      exact fun hpre => h.1 hpre.1
    rw [List.cons_append, behindIn?, if_neg hstart]
    exact ih h.2

/-! ## Words that stand out -/

/-- What stands in front of the first separator is determined. -/
theorem eq_of_append_cons {c : Char} {xs ys as bs : List Char} (hxs : c ∉ xs) (hys : c ∉ ys)
    (h : xs ++ c :: as = ys ++ c :: bs) : xs = ys := by
  rw [← (span_ne hxs as).1, h, (span_ne hys bs).1]

theorem append_singleton_prefix_iff {c : Char} {xs ys : List Char} (hxs : c ∉ xs) (hys : c ∉ ys)
    (cs : List Char) : xs ++ [c] <+: ys ++ c :: cs ↔ xs = ys := by
  constructor
  · rintro ⟨ts, hts⟩
    rw [List.append_assoc, List.singleton_append] at hts
    exact eq_of_append_cons hxs hys hts
  · rintro rfl
    exact ⟨cs, by rw [List.append_assoc, List.singleton_append]⟩

/-- A word with a mark that other texts lack; its first character does not come again in it. -/
structure StandsOut (mark : Char) (word : List Char) : Prop where
  mark : mark ∈ word
  head : ∀ c ∈ word.head?, c ∉ word.tail

/-- Behind a text without the mark, what begins with the word occurs where the word stands if it
goes on in the same way, and otherwise only further on. -/
theorem StandsOut.occurrencesIn_append {mark : Char} {word : List Char} (h : StandsOut mark word)
    (more : List Char) {xs : List Char} (hxs : mark ∉ xs) (ys : List Char) :
    occurrencesIn (word ++ more) (xs ++ (word ++ ys)) =
      (if more <+: ys then 1 else 0) + occurrencesIn (word ++ more) ys := by
  -- An occurrence from further left would have its first mark too early.
  have hfront : occurrencesIn (word ++ more) (xs ++ (word ++ ys)) =
      occurrencesIn (word ++ more) (word ++ ys) := by
    obtain ⟨as, bs, hword, has⟩ := List.eq_append_cons_of_mem h.mark
    refine occurrencesIn_append_left fun zs hzs hne hstart => ?_
    obtain ⟨ts, hts⟩ := hstart
    have hleft : mark ∉ zs ++ as := by
      rw [List.mem_append, not_or]
      exact ⟨fun hmem => hxs (hzs.subset hmem), has⟩
    have heq : as ++ mark :: (bs ++ more ++ ts) = zs ++ as ++ mark :: (bs ++ ys) := by
      simpa [hword] using hts
    exact hne (List.self_eq_append_left.1 (eq_of_append_cons has hleft heq))
  cases word with
  | nil => cases h.mark
  | cons c cs =>
    have hback : occurrencesIn (c :: cs ++ more) (cs ++ ys) =
        occurrencesIn (c :: cs ++ more) ys := by
      refine occurrencesIn_append_left fun zs hzs hne hstart => ?_
      obtain ⟨z, zs, rfl⟩ := List.exists_cons_of_ne_nil hne
      obtain ⟨rfl, -⟩ := List.cons_prefix_cons.1 hstart
      exact h.head c rfl (hzs.subset List.mem_cons_self)
    have hstart : (c :: cs ++ more).isPrefixOf (c :: (cs ++ ys)) = true ↔ more <+: ys := by
      rw [List.isPrefixOf_iff_prefix, ← List.cons_append, List.prefix_append_right_inj]
    have hfirst : c :: cs ++ ys = c :: (cs ++ ys) := rfl
    rw [hfront, hfirst, occurrencesIn.eq_2, hback]
    simp only [hstart]

/-! ## Occurrences on lines -/

theorem sum_map_filter {α : Type} {p : α → Bool} {f : α → Nat} {l : List α}
    (h : ∀ x ∈ l, p x = false → f x = 0) : (l.map f).sum = ((l.filter p).map f).sum := by
  induction l with
  | nil => rfl
  | cons x l ih =>
    have hl := ih fun y hy => h y (List.mem_cons_of_mem x hy)
    rw [List.map_cons, List.sum_cons, hl]
    cases hx : p x with
    | true => rw [List.filter_cons_of_pos hx, List.map_cons, List.sum_cons]
    | false =>
      rw [List.filter_cons_of_neg (by simp [hx]), h x List.mem_cons_self hx, Nat.zero_add]

/-- A text that fits on one line occurs as often as in the pieces together. -/
theorem occurrences_eq_sum {needle : String} (hne : needle ≠ "") (h : '\n' ∉ needle.toList)
    (s : String) : occurrences needle s = ((pieces s).map (occurrences needle)).sum := by
  have hlist : needle.toList ≠ [] := fun hnil => hne (String.toList_eq_nil_iff.1 hnil)
  have hjoin : ['\n'].intercalate (s.toList.splitOn '\n') = s.toList :=
    List.intercalate_splitOn '\n'
  have hpieces : (pieces s).map (occurrences needle) =
      (s.toList.splitOn '\n').map (occurrencesIn needle.toList) := by
    simp [pieces, occurrences, Function.comp_def]
  rw [hpieces, ← occurrencesIn_intercalate h hlist (List.splitOn_ne_nil '\n' _), hjoin]
  rfl

end FieldMacros.Text
