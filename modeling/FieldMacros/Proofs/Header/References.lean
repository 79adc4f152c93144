import FieldMacros.Proofs.Header.Layout

/-!
# What a variant refers to

The name of the family stands out in a definition, which has a capital C nowhere
else. So the occurrences of whatever begins with that name are found where the
name is written (`occurrencesIn_definition`): in front of the variant's own
parameters and, below the first depth, in the two calls of its parent.
-/

namespace FieldMacros

open Macro Text Token

namespace Depth

theorem parent?_eq_none_iff {d : Depth} : d.parent? = none ↔ d.level = 1 := by
  have hpos := d.level_pos
  simp only [parent?, ofNat?, dite_eq_right_iff, reduceCtorEq, imp_false]
  omega

theorem parent?_eq_some_iff {d p : Depth} : d.parent? = some p ↔ p.level + 1 = d.level := by
  obtain ⟨i, rfl⟩ := p.exists_eq_nth
  obtain ⟨k, rfl⟩ := d.exists_eq_nth
  cases k with
  | zero =>
    rw [parent?_nth_zero]
    simp [nth]
  | succ k =>
    rw [parent?_nth_succ, Option.some.injEq]
    simp [nth, eq_comm]

end Depth

namespace Family

/-! ## Calls -/

theorem standsOut_familyName : StandsOut 'C' familyName.toList where
  mark := by decide
  head := fun c hc => by
    cases hc
    decide

/-- What follows the family's name in the call of a variant on its own parameters. -/
def callTail (d : Depth) : List Char :=
  d.level.repr.toList ++ '(' :: ((listing (params d)).toList ++ [')'])

theorem toList_invocation (d : Depth) :
    (invocation d).toList = familyName.toList ++ callTail d := by
  have hopen : "(".toList = ['('] := rfl
  have hclose : ")".toList = [')'] := rfl
  rw [invocation_eq_call]
  unfold call variantName callTail
  simp only [String.toList_append, hopen, hclose, List.append_assoc, List.cons_append,
    List.nil_append]

theorem mark_not_mem_repr (n : Nat) : 'C' ∉ n.repr.toList :=
  Numeral.not_mem_repr (by decide) n

theorem mark_not_mem_fieldName (d : Depth) : 'C' ∉ (fieldName d).toList :=
  not_mem_append (by decide) (mark_not_mem_repr d.level)

theorem mark_not_mem_callTail (d : Depth) : 'C' ∉ callTail d := by
  have hlisting : 'C' ∉ (listing (params d)).toList := by
    intro h
    rcases mem_listing h with h | h | ⟨p, hp, h⟩
    · cases h
    · cases h
    · rcases List.mem_cons.1 hp with rfl | hp
      · exact absurd h (by decide)
      · obtain ⟨l, -, rfl⟩ := List.mem_map.1 hp
        exact mark_not_mem_fieldName l h
  simp only [callTail, List.mem_append, List.mem_cons, List.not_mem_nil, or_false, not_or]
  exact ⟨mark_not_mem_repr d.level, by decide, hlisting, by decide⟩

/-- A numeral with the parenthesis behind it tells the variant that is called. -/
theorem repr_prefix_callTail_iff {d e : Depth} (cs : List Char) :
    d.level.repr.toList ++ ['('] <+: callTail e ++ cs ↔ d = e := by
  have hopen : ∀ n : Nat, '(' ∉ n.repr.toList := Numeral.not_mem_repr (by decide)
  unfold callTail
  rw [List.append_assoc, List.cons_append, append_singleton_prefix_iff (hopen _) (hopen _),
    String.toList_inj]
  exact ⟨fun h => Depth.level_injective (repr_injective h), fun h => h ▸ rfl⟩

theorem callTail_prefix_callTail_iff {d e : Depth} (cs : List Char) :
    callTail d <+: callTail e ++ cs ↔ d = e := by
  constructor
  · intro h
    have hopen : d.level.repr.toList ++ ['('] <+: callTail d ++ [] :=
      (repr_prefix_callTail_iff []).2 rfl
    rw [List.append_nil] at hopen
    exact (repr_prefix_callTail_iff cs).1 (hopen.trans h)
  · rintro rfl
    exact List.prefix_append _ _

/-! ## Definitions -/

def lead : String :=
  wrapName ++ "(" ++ lookupName ++ "(&std::decay_t<typename decltype("

def link (field : String) : String :=
  ")::child_base_type>::" ++ field ++ "), "

theorem deeper_eq (inner field : String) :
    deeper inner field = lead ++ inner ++ link field ++ inner ++ ")" := by
  unfold deeper lead link
  rw [← String.append_assoc, ← String.append_assoc]

theorem toList_body_nth_succ (i : Nat) :
    (body (.nth (i + 1))).toList =
      lead.toList ++ (familyName.toList ++ (callTail (.nth i) ++
        (link (fieldName (.nth (i + 1)))).toList ++ (familyName.toList ++
          (callTail (.nth i) ++ [')'])))) := by
  have hbody : body (.nth (i + 1)) = deeper (invocation (.nth i)) (fieldName (.nth (i + 1))) := rfl
  have hclose : ")".toList = [')'] := rfl
  rw [hbody, deeper_eq, String.toList_append, String.toList_append, String.toList_append,
    String.toList_append, toList_invocation, hclose]
  simp only [List.append_assoc]

theorem toList_definition_variant (d : Depth) :
    (variant d).definition.toList =
      directive ++ (familyName.toList ++ (callTail d ++ ' ' :: (body d).toList)) := by
  have hdirective : "#define ".toList = directive := rfl
  have hspace : " ".toList = [' '] := rfl
  rw [definition_variant, String.toList_append, String.toList_append, String.toList_append,
    toList_invocation, hdirective, hspace]
  simp only [List.append_assoc, List.cons_append, List.nil_append]

/-- If it depends on the variant whether a call goes on with `more`, then what begins with the
family's name and goes on so occurs in a definition once if the variant is such a one, and twice if
its parent is. -/
theorem occurrencesIn_definition {more : List Char} {p : Depth → Prop} [DecidablePred p]
    (hmore : ∀ d cs, more <+: callTail d ++ cs ↔ p d) (d : Depth) :
    occurrencesIn (familyName.toList ++ more) (variant d).definition.toList =
      (if p d then 1 else 0) + d.parent?.elim 0 fun q => if p q then 2 else 0 := by
  have hmark : 'C' ∈ familyName.toList ++ more :=
    List.mem_append_left more standsOut_familyName.mark
  rw [toList_definition_variant, standsOut_familyName.occurrencesIn_append more (by decide)]
  simp only [hmore]
  congr 1
  obtain ⟨i, rfl⟩ := d.exists_eq_nth
  cases i with
  | zero =>
    have hbody : 'C' ∉ callTail (.nth 0) ++ ' ' :: (body (.nth 0)).toList := by decide
    exact occurrencesIn_eq_zero hmark hbody
  | succ i =>
    have hlead : 'C' ∉ callTail (.nth (i + 1)) ++ ' ' :: lead.toList := by
      rw [List.mem_append, not_or]
      exact ⟨mark_not_mem_callTail _, by decide⟩
    have hlink : 'C' ∉ callTail (.nth i) ++ (link (fieldName (.nth (i + 1)))).toList := by
      unfold link
      simp only [String.toList_append, List.mem_append, not_or]
      exact ⟨mark_not_mem_callTail _, ⟨by decide, mark_not_mem_fieldName _⟩, by decide⟩
    have hlast : 'C' ∉ callTail (.nth i) ++ [')'] := by
      rw [List.mem_append, not_or]
      exact ⟨mark_not_mem_callTail _, by decide⟩
    rw [toList_body_nth_succ, ← List.cons_append, ← List.append_assoc,
      standsOut_familyName.occurrencesIn_append more hlead,
      standsOut_familyName.occurrencesIn_append more hlink, occurrencesIn_eq_zero hmark hlast]
    simp only [List.append_assoc, hmore, Depth.parent?_nth_succ, Option.elim_some]
    split <;> rfl

/-! ## References -/

def callStart (d : Depth) : String :=
  "MANGROVE_CHILD" ++ d.level.repr ++ "("

theorem toList_callStart (d : Depth) :
    (callStart d).toList = familyName.toList ++ (d.level.repr.toList ++ ['(']) := by
  unfold callStart
  rw [String.toList_append, String.toList_append, List.append_assoc]
  rfl

theorem occurrences_callStart (m n : Depth) :
    occurrences (callStart m) (variant n).definition =
      if m.level = n.level then 1 else if m.level + 1 = n.level then 2 else 0 := by
  have hcount := occurrencesIn_definition (fun d => repr_prefix_callTail_iff (d := m) (e := d)) n
  rw [occurrences, toList_callStart, hcount]
  have hself : m = n ↔ m.level = n.level := ⟨congrArg _, Depth.level_injective⟩
  have hpos := m.level_pos
  cases hparent : n.parent? with
  | none =>
    rw [Depth.parent?_eq_none_iff] at hparent
    have habove : ¬m.level + 1 = n.level := by omega
    simp only [hself, habove, if_false, Option.elim_none, Nat.add_zero]
  | some q =>
    rw [Depth.parent?_eq_some_iff] at hparent
    have habove : m = q ↔ m.level + 1 = n.level := by
      rw [← hparent, Nat.add_right_cancel_iff]
      exact ⟨congrArg _, Depth.level_injective⟩
    simp only [hself, habove, Option.elim_some]
    split
    · rw [if_neg (by omega)]
    · exact Nat.zero_add _

theorem occurrences_familyName (n : Depth) :
    occurrences familyName (variant n).definition = if n.level = 1 then 1 else 3 := by
  have hmore : ∀ d cs, [] <+: callTail d ++ cs ↔ True := fun _ _ => iff_true_intro List.nil_prefix
  have hcount := occurrencesIn_definition hmore n
  rw [List.append_nil] at hcount
  rw [occurrences, hcount]
  cases hparent : n.parent? with
  | none => rw [if_pos (Depth.parent?_eq_none_iff.1 hparent)]; rfl
  | some q =>
    have hne : n.level ≠ 1 := fun h => by
      rw [Depth.parent?_eq_none_iff.2 h] at hparent
      cases hparent
    rw [if_neg hne]
    rfl

theorem toList_invocation_eq_append (d : Depth) :
    (invocation d).toList = (callStart d).toList ++ ((listing (params d)).toList ++ [')']) := by
  rw [toList_invocation, toList_callStart, callTail]
  simp only [List.append_assoc, List.singleton_append]

/-- Where a call begins, it is the one on the variant's own parameters. -/
theorem callStart_prefix_drop_iff (m n : Depth) (i : Nat) :
    (callStart m).toList <+: (variant n).definition.toList.drop i ↔
      (invocation m).toList <+: (variant n).definition.toList.drop i := by
  have hcall := occurrencesIn_definition (fun d => callTail_prefix_callTail_iff (d := m) (e := d)) n
  have hstart := occurrencesIn_definition (fun d => repr_prefix_callTail_iff (d := m) (e := d)) n
  rw [← toList_invocation, ← hstart, ← toList_callStart, toList_invocation_eq_append] at hcall
  rw [toList_invocation_eq_append]
  exact ⟨append_prefix_drop hcall, (List.prefix_append _ _).trans⟩

/-- A definition mentions the variant itself once, the one above it twice and no other, and these
are all its mentions of the family; wherever a variant is mentioned, it is called on the whole of
its own parameters. -/
theorem definition_references (n : Depth) :
    (∀ m : Depth, occurrences ("MANGROVE_CHILD" ++ m.level.repr ++ "(") (variant n).definition =
      if m.level = n.level then 1 else if m.level + 1 = n.level then 2 else 0) ∧
    occurrences "MANGROVE_CHILD" (variant n).definition = (if n.level = 1 then 1 else 3) ∧
    ∀ (m : Depth) (i : Nat),
      ("MANGROVE_CHILD" ++ m.level.repr ++ "(").toList <+: (variant n).definition.toList.drop i ↔
        (invocation m).toList <+: (variant n).definition.toList.drop i :=
  ⟨fun m => occurrences_callStart m n, occurrences_familyName n,
    fun m i => callStart_prefix_drop_iff m n i⟩

end Family

end FieldMacros
