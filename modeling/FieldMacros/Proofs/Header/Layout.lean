import FieldMacros.Proofs.Header.Resolution

/-!
# The layout of a header

A header has thirty lines and two more for each depth. The lines that begin as
definitions do are those of its macros (`filter_isDirective`), the definition
of each begins once in the whole text (`occurrences_start`), and a variant is
defined behind the only one that its body names (`foreign_body`,
`exists_earlier_parent`).
-/

namespace FieldMacros

open Macro Preprocessor Text Token

/-! ## Characters -/

def isWritten (c : Char) : Bool :=
  continuesIdentifier c || [' ', '(', ')', '<', '>', '&', ':', ',', '.'].contains c

def Written (s : String) : Prop :=
  s.toList.all isWritten = true

instance (s : String) : Decidable (Written s) :=
  inferInstanceAs (Decidable (_ = true))

theorem Written.append {s t : String} (hs : Written s) (ht : Written t) : Written (s ++ t) := by
  unfold Written
  rw [String.toList_append, List.all_append, hs, ht]
  rfl

theorem Written.not_mem {s : String} (h : Written s) {c : Char} (hc : isWritten c = false) :
    c ∉ s.toList := by
  intro hmem
  rw [List.all_eq_true.1 h c hmem] at hc
  cases hc

theorem isWritten_of_continues {c : Char} (h : continuesIdentifier c = true) :
    isWritten c = true := by
  unfold isWritten
  rw [h, Bool.true_or]

theorem written_of_isIdentifier {s : String} (h : IsIdentifier s) : Written s :=
  List.all_eq_true.2 fun c hc => isWritten_of_continues (List.all_eq_true.1 h.continues c hc)

theorem written_repr (n : Nat) : Written n.repr :=
  List.all_eq_true.2 fun _ hc =>
    isWritten_of_continues (continues_of_isDigit (Numeral.isDigit_of_mem_repr hc))

theorem written_listing {xs : List String} (h : ∀ x ∈ xs, Written x) : Written (listing xs) := by
  refine List.all_eq_true.2 fun c hc => ?_
  rcases mem_listing hc with rfl | rfl | ⟨x, hx, hc⟩
  · decide
  · decide
  · exact List.all_eq_true.1 (h x hx) c hc

theorem written_signature {m : Macro} (h : m.Legible) : Written m.signature := by
  have hparams : Written (listing m.writtenParams) := by
    refine written_listing fun p hp => ?_
    rcases eq_ellipsis_or_isIdentifier h hp with rfl | hp
    · decide
    · exact written_of_isIdentifier hp
  unfold signature call
  exact (((written_of_isIdentifier h.name).append (by decide)).append hparams).append (by decide)

namespace Family

theorem written_body (d : Depth) : Written (body d) := by
  have hfield := written_of_isIdentifier (isIdentifier_fieldName d)
  unfold body
  split
  · exact ((Written.append (by decide) (by decide)).append hfield).append (by decide)
  · rename_i p _
    have hp := written_signature (legible_variant p)
    rw [signature_variant] at hp
    have hlookup : Written (wrapName ++ "(" ++ lookupName ++
        "(&std::decay_t<typename decltype(") := by decide
    exact (((((hlookup.append hp).append (by decide)).append hfield).append (by decide)).append
      hp).append (by decide)

end Family

namespace Counting

theorem written_body_sequenceMacro (d : Depth) : Written (sequenceMacro d).body := by
  show Written (listing ((List.range (slots d + 1)).reverse.map Nat.repr))
  refine written_listing fun x hx => ?_
  obtain ⟨n, -, rfl⟩ := List.mem_map.1 hx
  exact written_repr n

end Counting

namespace Header

theorem written_body {d : Depth} {m : Macro} (h : m ∈ macros d) : Written m.body := by
  simp only [macros, sized, List.mem_cons] at h
  rcases h with rfl | rfl | rfl | rfl | h
  · decide
  · decide
  · exact (by decide : Written "N")
  · exact Counting.written_body_sequenceMacro d
  · obtain ⟨l, -, rfl⟩ := List.mem_map.1 h
    exact Family.written_body l

/-- A definition is a number sign and words and punctuation. -/
theorem exists_definition_eq_cons {d : Depth} {m : Macro} (h : m ∈ macros d) :
    ∃ s, Written s ∧ m.definition.toList = '#' :: s.toList := by
  have hwritten : Written ("define " ++ m.signature ++ " " ++ m.body) :=
    ((Written.append (by decide) (written_signature (legible_of_mem_macros h))).append
      (by decide)).append (written_body h)
  refine ⟨_, hwritten, ?_⟩
  have hsign : m.definition = "#" ++ ("define " ++ m.signature ++ " " ++ m.body) := by
    simp only [definition, ← String.append_assoc]
    rfl
  rw [hsign, String.toList_append]
  rfl

/-! ## Lines -/

/-- Whether a line begins as a definition does. -/
def isDirective (line : String) : Bool :=
  directive.isPrefixOf line.toList

theorem isDirective_definition (m : Macro) : isDirective m.definition = true := by
  unfold isDirective
  rw [toList_definition, List.isPrefixOf_iff_prefix]
  exact List.prefix_append _ _

theorem isDirective_eq_false {l : String} (h : Remark l) : isDirective l = false :=
  isPrefixOf_eq_false (by decide) h.noDirective

theorem filter_isDirective_block (ms : List Macro) :
    (ms.flatMap block).filter isDirective = ms.map definition := by
  have hblank : isDirective "" = false := rfl
  induction ms with
  | nil => rfl
  | cons m ms ih =>
    rw [List.flatMap_cons, List.filter_append, ih, block,
      List.filter_cons_of_pos (isDirective_definition m),
      List.filter_cons_of_neg (by simp [hblank])]
    rfl

/-- The lines that begin as definitions do are the definitions of the macros. -/
theorem filter_isDirective (d : Depth) :
    (pieces (text d)).filter isDirective = (macros d).map definition := by
  have hbanner : (endedLines banner).filter isDirective = [] :=
    List.filter_eq_nil_iff.2 fun l hl => by
      simp [isDirective_eq_false (passage_banner.remark l hl)]
  have hpostlude : (pieces postlude).filter isDirective = [] := by
    rw [pieces_postlude]
    decide
  rw [pieces_text, opening, List.filter_append, List.filter_append, List.filter_append, hbanner,
    hpostlude, filter_isDirective_block, List.filter_cons_of_pos (isDirective_definition _),
    List.filter_cons_of_pos (isDirective_definition _)]
  simp [macros]

theorem length_flatMap_block (ms : List Macro) : (ms.flatMap block).length = 2 * ms.length := by
  induction ms with
  | nil => rfl
  | cons m ms ih =>
    rw [List.flatMap_cons, List.length_append, ih, List.length_cons]
    simp only [block, List.length_cons, List.length_nil]
    omega

theorem length_pieces_text (d : Depth) : (pieces (text d)).length = 2 * d.level + 30 := by
  have hopening : opening.length = 22 := by
    rw [opening, List.length_append, passage_banner.length]
    rfl
  have hsized : (sized d).length = d.level + 2 := by
    simp [sized, Family.upTo]
  rw [pieces_text, List.length_append, List.length_append, hopening, length_flatMap_block, hsized,
    pieces_postlude]
  simp only [List.length_cons, List.length_nil]
  omega

theorem remark_of_mem {d : Depth} {l : String} (h : l ∈ pieces (text d))
    (hl : isDirective l = false) : Remark l := by
  rcases remark_or_definition h with h | ⟨m, -, rfl⟩
  · exact h
  · rw [isDirective_definition] at hl
    cases hl

/-- No line is continued on the next one. -/
theorem backslash_not_mem {d : Depth} {l : String} (h : l ∈ pieces (text d)) :
    '\\' ∉ l.toList := by
  rcases remark_or_definition h with h | ⟨m, hm, rfl⟩
  · exact h.noBackslash
  · obtain ⟨s, hs, hm⟩ := exists_definition_eq_cons hm
    rw [hm, List.mem_cons, not_or]
    exact ⟨by decide, hs.not_mem (by decide)⟩

/-! ## Occurrences -/

/-- What the definition of the macro called `name` begins with. -/
def start (name : String) : String :=
  "#define " ++ name ++ "("

theorem toList_start (name : String) :
    (start name).toList = directive ++ (name.toList ++ ['(']) := by
  unfold start
  rw [String.toList_append, String.toList_append, List.append_assoc]
  rfl

theorem start_prefix_iff {name : String} (hname : IsIdentifier name) {m : Macro} (hm : m.Legible) :
    (start name).toList <+: m.definition.toList ↔ m.name = name := by
  have hopen : ∀ {s : String}, IsIdentifier s → '(' ∉ s.toList := fun hs =>
    not_mem_of_isIdentifier hs (by decide)
  rw [toList_start, toList_definition, List.prefix_append_right_inj,
    append_singleton_prefix_iff (hopen hname) (hopen hm.name), String.toList_inj]
  exact eq_comm

theorem occurrences_definition {name : String} (hname : IsIdentifier name) {d : Depth} {m : Macro}
    (hm : m ∈ macros d) :
    occurrences (start name) m.definition = if m.name = name then 1 else 0 := by
  -- Only the first character of a definition is a number sign.
  obtain ⟨s, hs, hdefinition⟩ := exists_definition_eq_cons hm
  have hsign : '#' ∈ (start name).toList := by
    rw [toList_start]
    exact List.mem_append_left _ (by decide)
  have hrest := occurrencesIn_eq_zero hsign (hs.not_mem (by decide))
  have hstart := start_prefix_iff hname (legible_of_mem_macros hm)
  rw [← List.isPrefixOf_iff_prefix] at hstart
  unfold occurrences
  rw [hdefinition, occurrencesIn, ← hdefinition, hrest, Nat.add_zero]
  simp only [hstart]

theorem sum_map_eq_count {ms : List Macro} {name : String} {f : Macro → Nat}
    (h : ∀ m ∈ ms, f m = if m.name = name then 1 else 0) :
    (ms.map f).sum = (ms.map Macro.name).count name := by
  induction ms with
  | nil => rfl
  | cons m ms ih =>
    have hms := ih fun n hn => h n (List.mem_cons_of_mem m hn)
    rw [List.map_cons, List.sum_cons, h m List.mem_cons_self, hms, List.map_cons, List.count_cons,
      Nat.add_comm]
    simp only [beq_iff_eq]

/-- The definition of a macro begins once in a header that has it, and nowhere else. -/
theorem occurrences_start {name : String} (hname : IsIdentifier name) (d : Depth) :
    occurrences (start name) (text d) = if name ∈ (macros d).map Macro.name then 1 else 0 := by
  have hne : start name ≠ "" := by
    intro h
    have hlist := toList_start name
    rw [h] at hlist
    cases hlist
  have hline : '\n' ∉ (start name).toList := by
    have h : IsLine (start name) :=
      (IsLine.append (by decide) (isLine_of_isIdentifier hname)).append (by decide)
    exact h.newline_not_mem
  have hother : ∀ l ∈ pieces (text d), isDirective l = false → occurrences (start name) l = 0 := by
    intro l hl hdirective
    have hle := occurrencesIn_append_le directive (name.toList ++ ['(']) l.toList
    rw [(remark_of_mem hl hdirective).noDirective, ← toList_start] at hle
    exact Nat.le_zero.1 hle
  have hcount := sum_map_eq_count fun m (hm : m ∈ macros d) => occurrences_definition hname hm
  rw [occurrences_eq_sum hne hline, sum_map_filter hother, filter_isDirective, List.map_map]
  exact hcount.trans (nodup_names_macros d).count

/-! ## Order -/

/-- Of selected elements that occur once, those before another stand before it. -/
theorem exists_earlier {α : Type} {p : α → Bool} {ps xs ys : List α} {x y : α}
    (hps : ps.filter p = xs ++ x :: ys) (hnodup : (xs ++ x :: ys).Nodup) {i : Nat}
    (hi : ps[i]? = some x) (hy : y ∈ xs) : ∃ j < i, ps[j]? = some y := by
  obtain ⟨hlt, hx⟩ := List.getElem?_eq_some_iff.1 hi
  have hsplit : ps = ps.take i ++ x :: ps.drop (i + 1) := by
    rw [← hx, ← List.drop_eq_getElem_cons hlt, List.take_append_drop]
  have hpx : p x = true := by
    have hmem : x ∈ ps.filter p := hps ▸ List.mem_append_right xs List.mem_cons_self
    exact (List.mem_filter.1 hmem).2
  rw [hsplit, List.filter_append, List.filter_cons_of_pos hpx] at hps
  rw [List.nodup_middle, List.nodup_cons, List.mem_append, not_or] at hnodup
  -- `x` occurs once, so it is `xs` that is selected in front of it.
  have htake := (List.append_cons_inj_of_notMem hnodup.1.1 hnodup.1.2).1 hps.symm
  have hy := (List.mem_filter.1 (htake.1 ▸ hy)).1
  obtain ⟨j, hj, rfl⟩ := List.mem_take_iff_getElem.1 hy
  exact ⟨j, by omega, List.getElem?_eq_getElem _⟩

end Header

namespace Family

theorem upTo_eq_append {i : Nat} {d : Depth} (h : .nth (i + 1) ≤ d) :
    upTo d = upTo (.nth i) ++ variant (.nth (i + 1)) :: (upTo d).drop (i + 2) := by
  have hlast : upTo (.nth (i + 1)) = upTo (.nth i) ++ [variant (.nth (i + 1))] := by
    unfold upTo
    rw [Depth.levels_nth_succ, List.map_append]
    rfl
  have hsplit := List.take_append_drop (i + 2) (upTo d)
  have htake : (upTo d).take (i + 2) = upTo (.nth (i + 1)) := take_upTo h
  rw [htake, hlast, List.append_assoc] at hsplit
  exact hsplit.symm

/-! ## Names in a body -/

theorem identifiers_invocation (d : Depth) :
    identifiers (ofString (invocation d)) = variantName d :: params d := by
  rw [ofString_invocation]
  exact identifiers_callTokens (variantName d) (params d)

theorem identifiers_fieldName (d : Depth) :
    identifiers (ofString (fieldName d)) = [fieldName d] := by
  rw [ofString_of_isIdentifier (isIdentifier_fieldName d)]
  rfl

theorem identifiers_body_nth_zero :
    identifiers (ofString (body (.nth 0))) = lookupName :: params (.nth 0) := by
  have hbody : body (.nth 0) = outermost "base" (fieldName (.nth 0)) := rfl
  have hbase : ofString "base" = [identifier "base"] := ofString_of_isIdentifier (by decide)
  rw [hbody, ofString_outermost, hbase]
  simp only [identifiers_append, identifiers_fieldName]
  rfl

theorem identifiers_body_nth_succ (i : Nat) :
    identifiers (ofString (body (.nth (i + 1)))) =
      identifiers front ++ (variantName (.nth i) :: params (.nth i)) ++
        ["child_base_type", fieldName (.nth (i + 1))] ++
          (variantName (.nth i) :: params (.nth i)) := by
  have hbody : body (.nth (i + 1)) = deeper (invocation (.nth i)) (fieldName (.nth (i + 1))) := rfl
  have hmiddle : identifiers middle = ["child_base_type"] := rfl
  have hbetween : identifiers between = [] := rfl
  have hclose : identifiers [symbol ')'] = [] := rfl
  rw [hbody, ofString_deeper]
  simp only [identifiers_append, identifiers_invocation, identifiers_fieldName, hmiddle, hbetween,
    hclose, List.append_assoc, List.nil_append, List.append_nil, List.cons_append]

/-- A body names words of the vocabulary, parameters and the parent. -/
theorem mem_identifiers_body {name : String} {d : Depth}
    (h : name ∈ identifiers (ofString (body d))) :
    name ∈ vocabulary ∨ name ∈ params d ∨ ∃ p, d.parent? = some p ∧ name = variantName p := by
  obtain ⟨i, rfl⟩ := d.exists_eq_nth
  cases i with
  | zero =>
    rw [identifiers_body_nth_zero] at h
    rcases List.mem_cons.1 h with rfl | h
    · exact .inl (by decide)
    · exact .inr (.inl h)
  | succ i =>
    have hfront : ∀ s ∈ identifiers front, s ∈ vocabulary := by decide
    have hcall : name ∈ variantName (.nth i) :: params (.nth i) →
        name ∈ params (.nth (i + 1)) ∨
          ∃ p, (Depth.nth (i + 1)).parent? = some p ∧ name = variantName p := by
      intro h
      rcases List.mem_cons.1 h with rfl | h
      · exact .inr ⟨_, Depth.parent?_nth_succ i, rfl⟩
      · rw [params_nth_succ]
        exact .inl (List.mem_append_left _ h)
    rw [identifiers_body_nth_succ] at h
    simp only [List.mem_append, or_assoc] at h
    rcases h with h | h | h | h
    · exact .inl (hfront name h)
    · exact .inr (hcall h)
    · rcases List.mem_cons.1 h with rfl | h
      · exact .inl (by decide)
      · rw [params_nth_succ]
        exact .inr (.inl (List.mem_append_right _ h))
    · exact .inr (hcall h)

/-- Whether a token is no name of the family, unless it is the variant of the given depth. -/
def Foreign (parent : Option Depth) (t : Token) : Prop :=
  ∀ name, t = identifier name → familyName.toList <+: name.toList →
    ∃ p, parent = some p ∧ name = variantName p

theorem not_mem_params_of_family {name : String} (h : familyName.toList <+: name.toList)
    (d : Depth) : name ∉ params d := by
  obtain ⟨cs, hcs⟩ := h
  have hhead : name.toList.head? = some 'M' := by
    rw [← hcs]
    rfl
  have hbase : name ≠ "base" := by
    rintro rfl
    cases hhead
  exact not_mem_params hbase (by rw [hhead]; decide) d

/-- A body names no variant but the parent. -/
theorem foreign_body (d : Depth) : ∀ t ∈ ofString (body d), Foreign d.parent? t := by
  have hvocabulary : ∀ s ∈ vocabulary, ¬familyName.toList <+: s.toList := by decide
  rintro t ht name rfl hfamily
  rcases mem_identifiers_body (mem_identifiers.2 ht) with h | h | h
  · exact absurd hfamily (hvocabulary name h)
  · exact absurd h (not_mem_params_of_family hfamily d)
  · exact h

end Family

namespace Header

open Family

theorem names_macros (d : Depth) :
    (macros d).map Macro.name =
      ["MANGROVE_PP_NARG", "MANGROVE_PP_NARG_", "MANGROVE_PP_ARG_N", "MANGROVE_PP_RSEQ_N"] ++
        (List.range d.level).map fun i => "MANGROVE_CHILD" ++ (i + 1).repr := by
  have hvariants : (upTo d).map Macro.name =
      (List.range d.level).map fun i => "MANGROVE_CHILD" ++ (i + 1).repr := by
    unfold upTo Depth.levels
    rw [List.map_map, List.map_map]
    rfl
  rw [← hvariants]
  rfl

theorem familyName_append_mem_names (n : Nat) (d : Depth) :
    familyName ++ n.repr ∈ (macros d).map Macro.name ↔ 1 ≤ n ∧ n ≤ d.level := by
  have hother : ∀ s ∈ ["MANGROVE_PP_NARG", "MANGROVE_PP_NARG_", "MANGROVE_PP_ARG_N",
      "MANGROVE_PP_RSEQ_N"], ¬familyName.toList <+: s.toList := by decide
  have hfamily : familyName.toList <+: (familyName ++ n.repr).toList := by
    rw [String.toList_append]
    exact List.prefix_append _ _
  rw [names_macros, List.mem_append, List.mem_map]
  constructor
  · rintro (h | ⟨i, hi, h⟩)
    · exact absurd hfamily (hother _ h)
    · rw [← repr_injective (append_right_injective h)]
      rw [List.mem_range] at hi
      omega
  · rintro ⟨hlow, hhigh⟩
    refine .inr ⟨n - 1, List.mem_range.2 (by omega), ?_⟩
    rw [Nat.sub_add_cancel hlow]
    rfl

theorem le_of_variant_mem {l d : Depth} (h : variant l ∈ macros d) : l ≤ d :=
  ((familyName_append_mem_names l.level d).1 (List.mem_map_of_mem h)).2

theorem variant_mem_of_getElem? {d l : Depth} {i : Nat}
    (hi : (pieces (text d))[i]? = some (variant l).definition) : variant l ∈ macros d := by
  by_contra h
  exact definition_not_mem (legible_variant l) h (List.mem_of_getElem? hi)

theorem nodup_definitions (d : Depth) : ((macros d).map definition).Nodup :=
  (nodup_macros d).map_on fun _ hm _ hn h =>
    definition_injective (legible_of_mem_macros hm) (legible_of_mem_macros hn) h

/-- A variant is defined on an earlier line than the one below it. -/
theorem exists_earlier_parent {d : Depth} {i k : Nat}
    (hi : (pieces (text d))[i]? = some (variant (.nth (k + 1))).definition) :
    ∃ j < i, (pieces (text d))[j]? = some (variant (.nth k)).definition := by
  have hle := le_of_variant_mem (variant_mem_of_getElem? hi)
  have hmacros : macros d = [Counting.count, Counting.relay, Counting.selectorMacro d,
      Counting.sequenceMacro d] ++ upTo (.nth k) ++
        variant (.nth (k + 1)) :: (upTo d).drop (k + 2) := by
    rw [List.append_assoc, ← upTo_eq_append hle]
    rfl
  have hparent : variant (.nth k) ∈ upTo (.nth k) :=
    List.mem_map_of_mem (List.mem_map_of_mem List.self_mem_range_succ)
  have hdefinitions := filter_isDirective d
  have hnodup := nodup_definitions d
  rw [hmacros, List.map_append, List.map_cons] at hdefinitions hnodup
  exact exists_earlier hdefinitions hnodup hi
    (List.mem_map_of_mem (List.mem_append_right _ hparent))

/-- A header has thirty lines and two for each depth. The lines that begin as definitions do are
those of its macros in order, whole and each on a line of its own; a variant's name is defined once
if it is one of the depths, and not at all otherwise; and a variant that a body names is defined on
an earlier line. -/
theorem text_layout (d : Depth) :
    (pieces (text d)).length = 2 * d.level + 30 ∧
    (pieces (text d)).filter isDirective = (macros d).map definition ∧
    (macros d).map Macro.name =
      ["MANGROVE_PP_NARG", "MANGROVE_PP_NARG_", "MANGROVE_PP_ARG_N", "MANGROVE_PP_RSEQ_N"] ++
        (List.range d.level).map (fun i => "MANGROVE_CHILD" ++ (i + 1).repr) ∧
    (∀ m ∈ macros d, read? m.definition = some m) ∧
    (∀ l ∈ pieces (text d), l.toList.getLast? ≠ some '\\') ∧
    (∀ n : Nat, occurrences ("#define MANGROVE_CHILD" ++ n.repr ++ "(") (text d) =
      if 1 ≤ n ∧ n ≤ d.level then 1 else 0) ∧
    ∀ (i : Nat) (l : Depth), (pieces (text d))[i]? = some (variant l).definition →
      ∀ name, familyName.toList <+: name.toList → identifier name ∈ ofString (body l) →
        ∃ j < i, ∃ m ∈ macros d, (pieces (text d))[j]? = some m.definition ∧ m.name = name := by
  refine ⟨length_pieces_text d, filter_isDirective d, names_macros d,
    fun m hm => read?_definition (legible_of_mem_macros hm),
    fun l hl hlast => backslash_not_mem hl (List.mem_of_getLast? hlast), fun n => ?_,
    fun i l hi name hfamily hname => ?_⟩
  · have hstart : "#define MANGROVE_CHILD" ++ n.repr ++ "(" = start (familyName ++ n.repr) := by
      rw [start, ← String.append_assoc]
      rfl
    have hidentifier : IsIdentifier (familyName ++ n.repr) :=
      isIdentifier_append_repr (by decide) n
    rw [hstart, occurrences_start hidentifier]
    simp only [familyName_append_mem_names]
  · obtain ⟨p, hp, rfl⟩ := foreign_body l _ hname name rfl hfamily
    obtain ⟨k, rfl⟩ := l.exists_eq_nth
    cases k with
    | zero => cases hp
    | succ k =>
      cases hp
      obtain ⟨j, hj, hdefinition⟩ := exists_earlier_parent hi
      exact ⟨j, hj, _, variant_mem_of_getElem? hdefinition, hdefinition, rfl⟩

end Header

end FieldMacros
