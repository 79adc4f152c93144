import FieldMacros.Text.Bytes
import Mathlib.Algebra.Group.Nat.Defs

/-!
# What the bytes of a text tell

One encoded text begins another exactly where the texts do
(`ofString_prefix_iff`), and printable characters are encoded as printable
bytes. A sequence of several bytes never reads as an ASCII character, also where
the bytes are no text: decoded bytes begin with a dash only if the bytes do
(`dash_prefix_of_decode`), and hold an ASCII character only if it is one of the
bytes (`mem_of_mem_decode`).
-/

namespace FieldMacros.Bytes

theorem ofString_append (s t : String) : ofString (s ++ t) = ofString s ++ ofString t := by
  simp [ofString]

theorem ofString_prefix_iff {s t : String} :
    ofString s <+: ofString t ↔ s.toList <+: t.toList := by
  constructor
  · rintro ⟨bs, hbs⟩
    apply List.isPrefix_of_utf8Encode_append_eq_utf8Encode ⟨bs.toArray⟩
    rw [String.utf8Encode_toList, String.utf8Encode_toList]
    apply ByteArray.ext
    rw [← Array.toList_inj]
    simpa [ofString] using hbs
  · rintro ⟨cs, hcs⟩
    have ht : t = s ++ String.ofList cs := by
      rw [← String.toList_inj, String.toList_append, String.toList_ofList, hcs]
    rw [ht, ofString_append]
    exact List.prefix_append _ _

theorem eq_ofString_of_text? {b : Bytes} {s : String} (h : text? b = some s) : b = ofString s :=
  congrArg (fun a => a.data.toList) (fromUTF8?_eq_some_iff.1 h)

theorem fromUTF8?_eq_none_iff {b : ByteArray} :
    String.fromUTF8? b = none ↔ ∀ s : String, b ≠ s.toUTF8 := by
  rw [Option.eq_none_iff_forall_ne_some]
  exact forall_congr' fun s => not_congr fromUTF8?_eq_some_iff

theorem ofString_eq_flatMap (s : String) : ofString s = s.toList.flatMap String.utf8EncodeChar := by
  unfold ofString
  rw [String.toUTF8, ← String.utf8Encode_toList, List.utf8Encode, List.data_toByteArray]

theorem utf8EncodeChar_of_le {c : Char} (h : c.toNat ≤ 0x7F) :
    String.utf8EncodeChar c = [UInt8.ofNat c.toNat] :=
  if_pos h

/-- Printable characters are encoded as printable bytes. -/
theorem printable_of_mem_ofString {s : String}
    (h : ∀ c ∈ s.toList, 0x20 ≤ c.toNat ∧ c.toNat ≤ 0x7E) {b : UInt8} (hb : b ∈ ofString s) :
    0x20 ≤ b ∧ b ≤ 0x7E := by
  rw [ofString_eq_flatMap, List.mem_flatMap] at hb
  obtain ⟨c, hc, hb⟩ := hb
  obtain ⟨hlow, hhigh⟩ := h c hc
  rw [utf8EncodeChar_of_le (by omega), List.mem_singleton] at hb
  rw [hb, UInt8.le_iff_toNat_le, UInt8.le_iff_toNat_le, UInt8.toNat_ofNat']
  simp only [UInt8.reduceToNat]
  omega

/-! ## Sequences of several bytes -/

/-- A character is made from its code point; from what is none, the null character is made. -/
theorem toNat_of_ofNat {c : Char} (hc : c ≠ '\x00') {n : Nat} (h : Char.ofNat n = c) :
    n = c.toNat := by
  by_cases hvalid : n.isValidChar
  · rw [Char.ofNat, dif_pos hvalid] at h
    exact congrArg Char.toNat h
  · rw [Char.ofNat, dif_neg hvalid] at h
    exact absurd h.symm hc

/-- Every byte that follows adds six bits. -/
theorem le_payload (n : Nat) (bs : Bytes) :
    n * 64 ^ bs.length ≤ bs.foldl (fun n b => n * 64 + b.toNat % 64) n := by
  induction bs generalizing n with
  | nil => simp
  | cons b bs ih =>
    rw [List.foldl_cons, List.length_cons, Nat.pow_succ', ← Nat.mul_assoc]
    exact Nat.le_trans (Nat.mul_le_mul_right _ (Nat.le_add_right _ _)) (ih _)

theorem fitting_le_length (ranges : List (UInt8 × UInt8)) (rest : Bytes) :
    fitting ranges rest ≤ rest.length := by
  fun_induction fitting ranges rest with
  | case1 lo hi ranges b rest hb ih => simpa using ih
  | case2 => simp
  | case3 => simp

theorem fitting_cons {lo hi : UInt8} {ranges : List (UInt8 × UInt8)} {rest : Bytes}
    (h : fitting ((lo, hi) :: ranges) rest = ranges.length + 1) :
    ∃ b bs, rest = b :: bs ∧ lo ≤ b ∧ b ≤ hi ∧ (bs.take ranges.length).length = ranges.length := by
  cases rest with
  | nil => simp [fitting] at h
  | cons b bs =>
    simp only [fitting] at h
    split at h
    · next hb =>
      have hle := fitting_le_length ranges bs
      exact ⟨b, bs, rfl, hb.1, hb.2, by rw [List.length_take]; omega⟩
    · simp at h

/-- The first two bytes of a sequence already make a scalar value beyond ASCII. -/
theorem lt_payload {first lo hi b : UInt8} {ranges : List (UInt8 × UInt8)}
    (h : followers first = some ((lo, hi) :: ranges)) (hlo : lo ≤ b) (hhi : b ≤ hi) :
    0x7F < (first.toNat % 1 <<< (6 - (ranges.length + 1)) * 64 + b.toNat % 64) *
      64 ^ ranges.length := by
  unfold followers at h
  simp only [UInt8.le_iff_toNat_le, ← UInt8.toNat_inj] at h hlo hhi
  repeat' split at h
  all_goals cases h
  all_goals
    simp at *
    omega

section Scalar

variable {c : Char} (hc : c ≠ '\x00') (hascii : c.toNat ≤ 0x7F)

include hc hascii

theorem scalar_ne {first : UInt8} {range : UInt8 × UInt8} {ranges : List (UInt8 × UInt8)}
    (h : followers first = some (range :: ranges)) {rest : Bytes}
    (hfit : fitting (range :: ranges) rest = ranges.length + 1) :
    scalar first (rest.take (ranges.length + 1)) ≠ c := by
  obtain ⟨lo, hi⟩ := range
  obtain ⟨b, bs, rfl, hlo, hhi, hlen⟩ := fitting_cons hfit
  intro hscalar
  have hvalue := toNat_of_ofNat hc hscalar
  have hle := le_payload
    (first.toNat % 1 <<< (6 - (ranges.length + 1)) * 64 + b.toNat % 64) (bs.take ranges.length)
  have hlt := lt_payload h hlo hhi
  simp only [List.take_succ_cons, List.length_cons, List.isEmpty_cons, Bool.false_eq_true, if_false,
    List.foldl_cons, hlen] at hvalue hle
  omega

/-- An ASCII character is a sequence of its own. -/
theorem eq_ofNat_of_scalar {first : UInt8} {ranges : List (UInt8 × UInt8)}
    (h : followers first = some ranges) {rest : Bytes} (hfit : fitting ranges rest = ranges.length)
    (hscalar : scalar first (rest.take ranges.length) = c) : first = UInt8.ofNat c.toNat := by
  cases ranges with
  | nil =>
    have hvalue : first.toNat = c.toNat := toNat_of_ofNat hc hscalar
    rw [← hvalue, UInt8.ofNat_toNat]
  | cons range ranges => exact absurd hscalar (scalar_ne hc hascii h hfit)

theorem head?_scan {b : Bytes} (h : (scan b).head? = some (some c)) :
    b.head? = some (UInt8.ofNat c.toNat) := by
  cases b with
  | nil => simp [scan] at h
  | cons first rest =>
    rw [scan] at h
    split at h
    · simp at h
    · next ranges hranges =>
      simp only [List.head?_cons, Option.some.injEq] at h
      split at h
      · next hfit =>
        rw [Option.some.injEq, hfit] at h
        rw [List.head?_cons, eq_ofNat_of_scalar hc hascii hranges hfit h]
      · cases h

theorem mem_of_mem_scan {b : Bytes} (h : some c ∈ scan b) : UInt8.ofNat c.toNat ∈ b := by
  fun_induction scan b with
  | case1 => cases h
  | case2 first rest _ ih =>
    rcases List.mem_cons.1 h with h | h
    · cases h
    · exact List.mem_cons_of_mem first (ih h)
  | case3 first rest ranges hranges k ih =>
    rcases List.mem_cons.1 h with h | h
    · split at h
      · next hfit =>
        rw [Option.some.injEq, hfit] at h
        rw [eq_ofNat_of_scalar hc hascii hranges hfit h.symm]
        exact List.mem_cons_self
      · cases h
    · exact List.mem_cons_of_mem first (List.mem_of_mem_drop (ih h))

/-- Decoded bytes hold an ASCII character only if it is one of the bytes. -/
theorem mem_of_mem_decode {b : Bytes} (h : some c ∈ decode b) : UInt8.ofNat c.toNat ∈ b := by
  unfold decode at h
  split at h
  · next s hs =>
    obtain ⟨d, hd, hdc⟩ := List.mem_map.1 h
    cases hdc
    rw [eq_ofString_of_text? hs, ofString_eq_flatMap, List.mem_flatMap]
    refine ⟨c, hd, ?_⟩
    rw [utf8EncodeChar_of_le hascii]
    exact List.mem_cons_self
  · exact mem_of_mem_scan hc hascii h

end Scalar

/-- Decoded bytes begin with a dash only if the bytes do. -/
theorem dash_prefix_of_decode {b : Bytes} (h : (decode b).head? = some (some '-')) :
    ofString "-" <+: b := by
  unfold decode at h
  split at h
  · next s hs =>
    rw [eq_ofString_of_text? hs, ofString_prefix_iff]
    rw [List.head?_map] at h
    obtain ⟨c, hc, hdash⟩ := Option.map_eq_some_iff.1 h
    cases hdash
    obtain ⟨cs, hcs⟩ := List.head?_eq_some_iff.1 hc
    exact ⟨cs, hcs.symm⟩
  · obtain ⟨rest, rfl⟩ := List.head?_eq_some_iff.1 (head?_scan (c := '-') (by decide) (by decide) h)
    exact ⟨rest, rfl⟩

end FieldMacros.Bytes
