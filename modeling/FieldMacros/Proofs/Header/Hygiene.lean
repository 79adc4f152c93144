import FieldMacros.Proofs.Header.References

/-!
# Parameters of a variant

A definition lists the variant's parameters between its first parentheses, and
its parentheses are balanced. Behind the list it names each parameter once, and
those of the parent once more (`count_identifiers_body`).
-/

namespace FieldMacros.Family

open Macro Text Token Preprocessor

/-! ## Parentheses -/

theorem nests_invocation (d : Depth) (n : Nat) : Nests n (invocation d) n := by
  have h := nests_signature (legible_variant d) n
  rwa [signature_variant] at h

theorem balanced_body (d : Depth) : Balanced (body d) := by
  have hfield : ∀ n, Nests n (fieldName d) n :=
    nests_of_not_mem (not_mem_of_isIdentifier (isIdentifier_fieldName d) (by decide))
      (not_mem_of_isIdentifier (isIdentifier_fieldName d) (by decide))
  unfold body
  split
  · have hlookup : Nests 0 (lookupName ++ "(&base::") 1 := by decide
    exact (hlookup.append (hfield 1)).append (nests_close 0)
  · rename_i p _
    have hlead : Nests 0 lead 3 := by decide
    have htype : Nests 3 ")::child_base_type>::" 2 := by decide
    have hbetween : Nests 2 "), " 1 := by decide
    exact (((((hlead.append (nests_invocation p 3)).append htype).append (hfield 2)).append
      hbetween).append (nests_invocation p 1)).append (nests_close 0)

/-! ## Names behind the parameters -/

/-- Beside the vocabulary and the family, a body names each parameter once, and once more if the
parent has it, too. -/
theorem count_identifiers_body {name : String} (hword : name ∉ vocabulary)
    (hhead : name.toList.head? ≠ some 'M') (d : Depth) :
    (identifiers (ofString (body d))).count name =
      (params d).count name + d.parent?.elim 0 fun p => (params p).count name := by
  have hvariant : ∀ l, variantName l ≠ name := by
    rintro l rfl
    unfold variantName at hhead
    rw [String.toList_append] at hhead
    exact hhead rfl
  have hvocabulary : ∀ s ∈ vocabulary, s ≠ name := fun s hs e => hword (e ▸ hs)
  obtain ⟨i, rfl⟩ := d.exists_eq_nth
  cases i with
  | zero =>
    have hlookup : lookupName ≠ name := hvocabulary lookupName (by decide)
    rw [identifiers_body_nth_zero, List.count_cons_of_ne hlookup]
    rfl
  | succ i =>
    have hwords : ∀ s ∈ identifiers front, s ∈ vocabulary := by decide
    have hfront : (identifiers front).count name = 0 :=
      List.count_eq_zero.2 fun h => hword (hwords _ h)
    have htype : "child_base_type" ≠ name := hvocabulary _ (by decide)
    rw [identifiers_body_nth_succ, params_nth_succ, Depth.parent?_nth_succ, Option.elim_some]
    simp only [List.count_append, hfront, List.count_cons_of_ne (hvariant _),
      List.count_cons_of_ne htype]
    omega

/-! ## Parameters -/

theorem length_params (d : Depth) : (params d).length = d.level + 1 := by
  simp [params]

theorem field_mem_params_iff {s : String} {d : Depth} :
    "field" ++ s ∈ params d ↔ ∃ m : Depth, m.level ≤ d.level ∧ s = m.level.repr := by
  have hbase : "field" ++ s ≠ "base" := fun h => by
    have hhead := congrArg (fun t : String => t.toList.head?) h
    simp only [String.toList_append] at hhead
    cases hhead
  unfold params Depth.levels
  simp only [List.mem_cons, hbase, false_or, List.mem_map, List.mem_range]
  constructor
  · rintro ⟨l, ⟨i, hi, rfl⟩, hl⟩
    exact ⟨.nth i, hi, (append_right_injective hl).symm⟩
  · rintro ⟨m, hm, rfl⟩
    obtain ⟨i, rfl⟩ := m.exists_eq_nth
    exact ⟨.nth i, ⟨i, hm, rfl⟩, rfl⟩

theorem fieldName_mem_params_iff {m d : Depth} : fieldName m ∈ params d ↔ m.level ≤ d.level := by
  unfold fieldName
  rw [field_mem_params_iff]
  exact ⟨fun ⟨l, hl, h⟩ => repr_injective h ▸ hl, fun h => ⟨m, h, rfl⟩⟩

theorem count_parent_le (name : String) (d : Depth) :
    (d.parent?.elim 0 fun p => (params p).count name) ≤ (params d).count name := by
  obtain ⟨i, rfl⟩ := d.exists_eq_nth
  cases i with
  | zero => exact Nat.zero_le _
  | succ i =>
    rw [Depth.parent?_nth_succ, Option.elim_some, params_nth_succ, List.count_append]
    exact Nat.le_add_right _ _

theorem head_field (s : String) : ("field" ++ s).toList.head? = some 'f' := by
  rw [String.toList_append]
  rfl

theorem count_identifiers_body_field (s : String) (d : Depth) :
    (identifiers (ofString (body d))).count ("field" ++ s) =
      (params d).count ("field" ++ s) +
        d.parent?.elim 0 fun p => (params p).count ("field" ++ s) := by
  have hwords : ∀ word ∈ vocabulary, word.toList.head? ≠ some 'f' := by decide
  refine count_identifiers_body (fun h => hwords _ h (head_field s)) ?_ d
  rw [head_field]
  decide

def namesBehindParams (definition : String) : List String :=
  identifiers (ofString (afterEnclosed definition))

theorem namesBehindParams_definition (d : Depth) :
    namesBehindParams (variant d).definition = identifiers (ofString (body d)) := by
  have hbody : (variant d).body = body d := rfl
  unfold namesBehindParams
  rw [(enclosed_definition (legible_variant d)).2, hbody, ofString, String.toList_ofList,
    ofChars_blank (by decide)]
  rfl

theorem items_enclosed_definition (d : Depth) :
    items (enclosed (variant d).definition) = params d := by
  have hparams : (variant d).writtenParams = params d := rfl
  rw [(enclosed_definition (legible_variant d)).1, hparams]
  exact items_listing (List.cons_ne_nil _ _)
    fun p hp => not_mem_of_isIdentifier (isIdentifier_params d p hp) (by decide)

theorem count_base (d : Depth) :
    (identifiers (ofString (body d))).count "base" = if d.level = 1 then 1 else 2 := by
  have hbase : ∀ l, (params l).count "base" = 1 := fun l =>
    (nodup_params l).count.trans (if_pos List.mem_cons_self)
  rw [count_identifiers_body (by decide) (by decide), hbase]
  cases hparent : d.parent? with
  | none =>
    rw [if_pos (Depth.parent?_eq_none_iff.1 hparent)]
    rfl
  | some p =>
    have hlevel := Depth.parent?_eq_some_iff.1 hparent
    have hpos := p.level_pos
    rw [Option.elim_some, hbase, if_neg (by omega)]

theorem count_fieldName (m d : Depth) :
    (identifiers (ofString (body d))).count (fieldName m) =
      if m.level < d.level then 2 else if m.level = d.level then 1 else 0 := by
  have hcount : ∀ l, (params l).count (fieldName m) = if m.level ≤ l.level then 1 else 0 :=
    fun l => by simp only [(nodup_params l).count, fieldName_mem_params_iff]
  have hbody : (identifiers (ofString (body d))).count (fieldName m) =
      (params d).count (fieldName m) + d.parent?.elim 0 fun p => (params p).count (fieldName m) :=
    count_identifiers_body_field m.level.repr d
  have hpos := m.level_pos
  rw [hbody, hcount]
  cases hparent : d.parent? with
  | none =>
    rw [Depth.parent?_eq_none_iff] at hparent
    rw [Option.elim_none]
    split_ifs <;> omega
  | some p =>
    rw [Depth.parent?_eq_some_iff] at hparent
    rw [Option.elim_some, hcount]
    split_ifs <;> omega

/-- A body names no field but the variant's own. -/
theorem field_mem_identifiers_body_iff {s : String} {d : Depth} :
    "field" ++ s ∈ identifiers (ofString (body d)) ↔
      ∃ m : Depth, m.level ≤ d.level ∧ s = m.level.repr := by
  have hparent := count_parent_le ("field" ++ s) d
  rw [← field_mem_params_iff, ← List.count_pos_iff, ← List.count_pos_iff,
    count_identifiers_body_field]
  omega

/-- Between its first parentheses a definition lists the variant's parameters, which are all
different and make up the variant's call; its parentheses are balanced; and behind the parameters it
names each field but the last twice, the last one once, and no other, and the base as often as the
first field. -/
theorem variant_hygiene (n : Depth) :
    items (enclosed (variant n).definition) = params n ∧
    (params n).length = n.level + 1 ∧
    (params n).Nodup ∧
    variantName n ++ "(" ++ ", ".intercalate (params n) ++ ")" = invocation n ∧
    Balanced (variant n).definition ∧
    (namesBehindParams (variant n).definition).count "base" = (if n.level = 1 then 1 else 2) ∧
    (∀ m : Depth, (namesBehindParams (variant n).definition).count ("field" ++ m.level.repr) =
      if m.level < n.level then 2 else if m.level = n.level then 1 else 0) ∧
    ∀ s, "field" ++ s ∈ namesBehindParams (variant n).definition ↔
      ∃ m : Depth, m.level ≤ n.level ∧ s = m.level.repr := by
  rw [namesBehindParams_definition]
  exact ⟨items_enclosed_definition n, length_params n, nodup_params n, (invocation_eq_call n).symm,
    balanced_definition (legible_variant n) (balanced_body n), count_base n,
    fun m => count_fieldName m n, fun s => field_mem_identifiers_body_iff⟩

end FieldMacros.Family
