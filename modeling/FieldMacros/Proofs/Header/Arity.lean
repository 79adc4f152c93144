import FieldMacros.Proofs.Header.Lines
import FieldMacros.Proofs.Preprocessor.Expansion
import Mathlib.Logic.Relation

/-!
# What the counting macros count

A call of `count` is rewritten to a call of `relay` with the sequence behind
its arguments, and that to a call of the selector with all the numbers spelled
out (`rewrites_count`, `rewrites_relay`). The selector returns what stands on
its parameter `N`: the number of the arguments while there are no more of them
than placeholders, and an argument from there on.
-/

namespace FieldMacros.Counting

open Token Preprocessor

def names : List String :=
  [count.name, relay.name, selectorName, sequenceName]

def macros (d : Depth) : List Macro :=
  [count, relay, selectorMacro d, sequenceMacro d]

theorem map_name_macros (d : Depth) : (macros d).map Macro.name = names := rfl

/-- The macros that count, as the text of a header defines them. -/
def readMacros (d : Depth) : List Macro :=
  (Macro.readAll (Header.text d)).filter fun m => names.contains m.name

theorem readMacros_eq (d : Depth) : readMacros d = macros d := by
  have hvariants : (Family.upTo d).filter (fun m => names.contains m.name) = [] := by
    refine List.filter_eq_nil_iff.2 fun m hm => ?_
    obtain ⟨l, -, rfl⟩ := List.mem_map.1 hm
    have hnames : ∀ s ∈ names, s.toList[9]? ≠ some 'C' := by decide
    have hne : (Family.variant l).name ∉ names := fun hmem =>
      Header.variantName_ne (hnames _ hmem) l rfl
    simpa using hne
  have hmacros : (macros d).filter (fun m => names.contains m.name) = macros d := by
    refine List.filter_eq_self.2 fun m hm => ?_
    have hmem : m.name ∈ names := map_name_macros d ▸ List.mem_map_of_mem hm
    simpa using hmem
  have hsplit : Header.macros d = macros d ++ Family.upTo d := rfl
  unfold readMacros
  rw [Header.readAll_text, hsplit, List.filter_append, hvariants, hmacros, List.append_nil]

theorem find?_macros {d : Depth} {m : Macro} (h : m ∈ macros d) :
    (macros d).find? (·.name = m.name) = some m :=
  Header.find?_name (by rw [map_name_macros]; decide) h

/-! ## The sequence -/

/-- The arguments that the sequence stands for. -/
def numerals (d : Depth) : List (List Token) :=
  (List.range (slots d + 1)).reverse.map fun n => [number n.repr]

theorem length_numerals (d : Depth) : (numerals d).length = d.level + 3 := by
  simp [numerals, slots_eq]

theorem numerals_ne_nil (d : Depth) : numerals d ≠ [] := by
  rw [← List.length_pos_iff, length_numerals]
  omega

theorem plain_numerals (d : Depth) : ∀ a ∈ numerals d, ∀ t ∈ a, Plain t := by
  intro a ha t ht
  obtain ⟨n, -, rfl⟩ := List.mem_map.1 ha
  rw [List.mem_singleton.1 ht]
  exact ⟨nofun, nofun, nofun⟩

theorem getElem_numerals {d : Depth} {i : Nat} (h : i < (numerals d).length) :
    (numerals d)[i] = [number (d.level + 2 - i).repr] := by
  simp only [numerals, List.getElem_map, List.getElem_reverse, List.getElem_range,
    List.length_range, slots_eq]
  congr 3

theorem ofString_body_sequenceMacro (d : Depth) :
    ofString (sequenceMacro d).body = withCommas (numerals d) := by
  have hbody : (sequenceMacro d).body =
      Macro.listing ((List.range (slots d + 1)).reverse.map Nat.repr) := rfl
  rw [hbody, ofString_listing, List.map_map, numerals]
  congr 1
  refine List.map_congr_left fun n _ => ?_
  exact ofString_of_digits (Numeral.repr_toList_ne_nil n) fun _ hc => Numeral.isDigit_of_mem_repr hc

def sequenceCall : List Token :=
  callTokens sequenceName [[]]

theorem isArgument_sequenceCall : IsArgument sequenceCall := by
  rintro c rest (rfl | rfl) <;> rfl

theorem expands_sequenceCall (d : Depth) :
    Expands (macros d) sequenceCall (withCommas (numerals d)) := by
  have hmem : sequenceMacro d ∈ macros d := by simp [macros]
  have hfind : (macros d).find? (·.name = sequenceName) = some (sequenceMacro d) :=
    find?_macros hmem
  have harg : ∀ a ∈ [([] : List Token)], IsArgument a := by
    intro a ha
    rw [List.mem_singleton.1 ha]
    exact isArgument_of_plain fun t ht => by cases ht
  have hself : List.Forall₂ (Expands (macros d)) [[]] [[]] := .cons Expands.nil .nil
  have hb : bind? (sequenceMacro d) [[]] = some [] := rfl
  refine (rewrites_callTokens hfind (by simp) harg hself hb).expands ?_
  have hbody : substitute (sequenceMacro d) [] = withCommas (numerals d) := by
    unfold substitute
    rw [flatMap_replaceToken_self fun _ _ => rfl, ofString_body_sequenceMacro]
  rw [hbody]
  refine Expands.of_not_mem fun hmem => ?_
  rcases mem_withCommas hmem with h | ⟨a, ha, h⟩
  · cases h
  · exact (plain_numerals d a ha _ h).1 rfl

/-! ## Rewriting -/

section Rewriting

variable {d : Depth} {args : List (List Token)} (hne : args ≠ [])
  (hplain : ∀ a ∈ args, ∀ t ∈ a, Plain t)

include hne hplain

theorem rewrites_count :
    Rewrites (macros d) (callTokens count.name args)
      (callTokens relay.name (args ++ [sequenceCall])) := by
  have hfind : (macros d).find? (·.name = count.name) = some count :=
    find?_macros (by simp [macros])
  have hself : List.Forall₂ (Expands (macros d)) args args :=
    List.forall₂_same.2 fun a ha => Expands.of_plain (hplain a ha)
  have hb : bind? count args = some [("__VA_ARGS__", withCommas args)] := by
    have hlen : 0 < args.length := List.length_pos_iff.2 hne
    simp [bind?, count, hlen]
  have htokens : ofString count.body =
      [identifier relay.name, symbol '(', identifier "__VA_ARGS__", symbol ',',
        identifier sequenceName, symbol '(', symbol ')', symbol ')'] := by
    simp [ofString, ofChars, isBlank, beginsIdentifier, continuesIdentifier, count, relay,
      sequenceName]
  have hbody : substitute count [("__VA_ARGS__", withCommas args)] =
      callTokens relay.name (args ++ [sequenceCall]) := by
    unfold substitute
    rw [htokens, callTokens, withCommas_concat hne]
    simp [replaceToken, List.lookup_cons, sequenceCall, callTokens, withCommas, relay, sequenceName]
  exact hbody ▸ rewrites_callTokens hfind hne (fun a ha => isArgument_of_plain (hplain a ha)) hself hb

theorem rewrites_relay :
    Rewrites (macros d) (callTokens relay.name (args ++ [sequenceCall]))
      (callTokens selectorName (args ++ numerals d)) := by
  have hfind : (macros d).find? (·.name = relay.name) = some relay :=
    find?_macros (by simp [macros])
  have harg : ∀ a ∈ args ++ [sequenceCall], IsArgument a := by
    intro a ha
    rcases List.mem_append.1 ha with ha | ha
    · exact isArgument_of_plain (hplain a ha)
    · exact List.mem_singleton.1 ha ▸ isArgument_sequenceCall
  have hexpanded : List.Forall₂ (Expands (macros d)) (args ++ [sequenceCall])
      (args ++ [withCommas (numerals d)]) :=
    List.rel_append (List.forall₂_same.2 fun a ha => Expands.of_plain (hplain a ha))
      (.cons (expands_sequenceCall d) .nil)
  -- The expanded sequence is one argument here, and many for the selector.
  have hjoin : withCommas (args ++ [withCommas (numerals d)]) = withCommas (args ++ numerals d) := by
    rw [withCommas_concat hne, withCommas_append hne (numerals_ne_nil d)]
  have hb : bind? relay (args ++ [withCommas (numerals d)]) =
      some [("__VA_ARGS__", withCommas (args ++ numerals d))] := by
    simp [bind?, relay, hjoin]
  have htokens : ofString relay.body =
      [identifier selectorName, symbol '(', identifier "__VA_ARGS__", symbol ')'] := by
    simp [ofString, ofChars, isBlank, beginsIdentifier, continuesIdentifier, relay,
      selectorName]
  have hbody : substitute relay [("__VA_ARGS__", withCommas (args ++ numerals d))] =
      callTokens selectorName (args ++ numerals d) := by
    unfold substitute
    rw [htokens, callTokens]
    simp [replaceToken, List.lookup_cons, selectorName]
  exact hbody ▸ rewrites_callTokens hfind (by simp) harg hexpanded hb

end Rewriting

/-! ## Selecting -/

theorem params_selectorMacro (d : Depth) :
    (selectorMacro d).params = (List.range (slots d)).map placeholder ++ ["N"] := rfl

theorem length_params_selectorMacro (d : Depth) :
    (selectorMacro d).params.length = d.level + 3 := by
  simp [params_selectorMacro, slots_eq]

theorem nodup_params_selectorMacro (d : Depth) : (selectorMacro d).params.Nodup := by
  rw [params_selectorMacro, List.nodup_append]
  refine ⟨List.nodup_range.map fun i j h => ?_, List.nodup_singleton _, ?_⟩
  · exact repr_injective (append_right_injective h)
  · intro p hp q hq heq
    obtain ⟨i, -, rfl⟩ := List.mem_map.1 hp
    rw [List.mem_singleton.1 hq, placeholder, ← String.toList_inj, String.toList_append] at heq
    cases heq

theorem getElem?_params_selectorMacro (d : Depth) :
    (selectorMacro d).params[d.level + 2]? = some "N" := by
  rw [params_selectorMacro, List.getElem?_append_right (by simp [slots_eq])]
  simp [slots_eq]

section Selecting

variable {d : Depth} {passed : List (List Token)} (hlen : d.level + 3 < passed.length)
  (hplain : ∀ a ∈ passed, ∀ t ∈ a, Plain t)

include hlen hplain

theorem calls_selector : Calls (macros d) (callTokens selectorName passed) (selectorMacro d) passed := by
  have hmem : selectorMacro d ∈ macros d := by simp [macros]
  have hne : passed ≠ [] := by
    rintro rfl
    simp at hlen
  exact calls_callTokens (find?_macros hmem) hne fun a ha => isArgument_of_plain (hplain a ha)

/-- The selector stands for its argument after the placeholders. -/
theorem rewrites_selector {a : List Token} (ha : passed[d.level + 2]? = some a) :
    Rewrites (macros d) (callTokens selectorName passed) a := by
  have hmem : selectorMacro d ∈ macros d := by simp [macros]
  have hne : passed ≠ [] := by
    rintro rfl
    simp at hlen
  have hself : List.Forall₂ (Expands (macros d)) passed passed :=
    List.forall₂_same.2 fun b hb => Expands.of_plain (hplain b hb)
  obtain ⟨further, hb⟩ : ∃ further, bind? (selectorMacro d) passed =
      some ((selectorMacro d).params.zip passed ++ further) := by
    have hvariadic : (selectorMacro d).variadic = true := rfl
    unfold bind?
    rw [if_pos hvariadic, length_params_selectorMacro, if_pos hlen]
    exact ⟨_, rfl⟩
  have hzip : ("N", a) ∈ (selectorMacro d).params.zip passed := by
    refine List.mem_iff_getElem?.2 ⟨d.level + 2, ?_⟩
    rw [List.getElem?_zip_eq_some]
    exact ⟨getElem?_params_selectorMacro d, ha⟩
  have hlookup : ((selectorMacro d).params.zip passed ++ further).lookup "N" = some a := by
    rw [List.lookup_append, lookup_zip_of_mem (nodup_params_selectorMacro d) hzip]
    rfl
  have hbody : ofString (selectorMacro d).body = [identifier "N"] := by
    have : (selectorMacro d).body = "N" := rfl
    rw [this]
    simp [ofString, ofChars, isBlank, beginsIdentifier]
  have h := rewrites_callTokens (find?_macros hmem) hne
    (fun b hb => isArgument_of_plain (hplain b hb)) hself hb
  rwa [substitute, hbody, List.flatMap_singleton, replaceToken_eq hlookup] at h

end Selecting

/-! ## Counting -/

/-- What a count of the given arguments comes to. -/
def answer (d : Depth) (args : List (List Token)) : List Token :=
  if h : d.level + 2 < args.length then args[d.level + 2] else [number args.length.repr]

theorem getElem?_append_numerals {d : Depth} {args : List (List Token)} (hne : args ≠ []) :
    (args ++ numerals d)[d.level + 2]? = some (answer d args) := by
  have hpos : 0 < args.length := List.length_pos_iff.2 hne
  unfold answer
  split
  · rename_i h
    rw [List.getElem?_append_left h, List.getElem?_eq_getElem h]
  · rename_i h
    have hi : d.level + 2 - args.length < (numerals d).length := by
      rw [length_numerals]
      omega
    have hshift : d.level + 2 - (d.level + 2 - args.length) = args.length := by omega
    rw [List.getElem?_append_right (by omega), List.getElem?_eq_getElem hi, getElem_numerals,
      hshift]

theorem plain_answer {d : Depth} {args : List (List Token)}
    (hplain : ∀ a ∈ args, ∀ t ∈ a, Plain t) : ∀ t ∈ answer d args, Plain t := by
  unfold answer
  split
  · exact hplain _ (List.getElem_mem _)
  · intro t ht
    rw [List.mem_singleton.1 ht]
    exact ⟨nofun, nofun, nofun⟩

theorem plain_passed {d : Depth} {args : List (List Token)}
    (hplain : ∀ a ∈ args, ∀ t ∈ a, Plain t) : ∀ a ∈ args ++ numerals d, ∀ t ∈ a, Plain t := by
  intro a ha
  rcases List.mem_append.1 ha with ha | ha
  · exact hplain a ha
  · exact plain_numerals d a ha

theorem length_passed {d : Depth} {args : List (List Token)} (hne : args ≠ []) :
    d.level + 3 < (args ++ numerals d).length := by
  have hpos : 0 < args.length := List.length_pos_iff.2 hne
  rw [List.length_append, length_numerals]
  omega

section Counting

variable {d : Depth} {args : List (List Token)} (hne : args ≠ [])
  (hplain : ∀ a ∈ args, ∀ t ∈ a, Plain t)

include hne hplain

theorem rewrites_answer :
    Rewrites (macros d) (callTokens selectorName (args ++ numerals d)) (answer d args) :=
  rewrites_selector (length_passed hne) (plain_passed hplain) (getElem?_append_numerals hne)

/-- All that the rewriting of a count passes through. -/
theorem mem_trail {ts : List Token}
    (h : Relation.ReflTransGen (Rewrites (macros d)) (callTokens count.name args) ts) :
    ts = callTokens count.name args ∨ ts = callTokens relay.name (args ++ [sequenceCall]) ∨
      ts = callTokens selectorName (args ++ numerals d) ∨ ts = answer d args := by
  induction h with
  | refl => exact .inl rfl
  | tail _ hstep ih =>
    rcases ih with rfl | rfl | rfl | rfl
    · exact .inr (.inl (hstep.unique (rewrites_count hne hplain)))
    · exact .inr (.inr (.inl (hstep.unique (rewrites_relay hne hplain))))
    · exact .inr (.inr (.inr (hstep.unique (rewrites_answer hne hplain))))
    · obtain ⟨m, passed, hcalls⟩ := hstep.exists_calls
      have hopen : symbol '(' ∉ answer d args := fun hmem => (plain_answer hplain _ hmem).1 rfl
      exact absurd hcalls (not_calls_of_not_mem hopen m passed)

theorem trail_selector :
    Relation.ReflTransGen (Rewrites (macros d)) (callTokens count.name args)
      (callTokens selectorName (args ++ numerals d)) :=
  .head (rewrites_count hne hplain) (.single (rewrites_relay hne hplain))

/-- Where the rewriting of a count calls the selector, it passes the numerals behind the
arguments. -/
theorem passed_eq {ts : List Token} {passed : List (List Token)}
    (h : Relation.ReflTransGen (Rewrites (macros d)) (callTokens count.name args) ts)
    (hcalls : Calls (macros d) ts (selectorMacro d) passed) : passed = args ++ numerals d := by
  have hother : ∀ m, m.name ≠ selectorName → m ≠ selectorMacro d := by
    rintro m hname rfl
    exact hname rfl
  have hplainArgs : ∀ a ∈ args, IsArgument a := fun a ha => isArgument_of_plain (hplain a ha)
  rcases mem_trail hne hplain h with rfl | rfl | rfl | rfl
  · have hmem : count ∈ macros d := by simp [macros]
    have hcount := calls_callTokens (find?_macros hmem) hne hplainArgs
    exact absurd (hcount.unique hcalls).1 (hother _ (by decide))
  · have hmem : relay ∈ macros d := by simp [macros]
    have harg : ∀ a ∈ args ++ [sequenceCall], IsArgument a := by
      intro a ha
      rcases List.mem_append.1 ha with ha | ha
      · exact hplainArgs a ha
      · exact List.mem_singleton.1 ha ▸ isArgument_sequenceCall
    have hrelay := calls_callTokens (find?_macros hmem) (by simp) harg
    exact absurd (hrelay.unique hcalls).1 (hother _ (by decide))
  · exact (hcalls.unique (calls_selector (length_passed hne) (plain_passed hplain))).2
  · have hopen : symbol '(' ∉ answer d args := fun hmem => (plain_answer hplain _ hmem).1 rfl
    exact absurd hcalls (not_calls_of_not_mem hopen _ _)

end Counting

/-- Read back from the text of a header, a call of `count` expands to the number of its arguments
and to nothing else while there are at most `d.level + 2` of them, and from there on to the argument
after those. The selector is called on the way, and the ellipsis of its parameters takes as many
arguments as `count` was called with. -/
theorem expands_count_iff {d : Depth} {args : List (List Token)} (hne : args ≠ [])
    (hplain : ∀ a ∈ args, ∀ t ∈ a, Plain t) :
    (args.length ≤ d.level + 2 → ∀ r,
        Expands (readMacros d) (callTokens count.name args) r ↔ r = [number args.length.repr]) ∧
      (∀ h : d.level + 2 < args.length, ∀ r,
        Expands (readMacros d) (callTokens count.name args) r ↔ r = args[d.level + 2]) ∧
      (∃ ts passed,
        Relation.ReflTransGen (Rewrites (readMacros d)) (callTokens count.name args) ts ∧
          Calls (readMacros d) ts (selectorMacro d) passed) ∧
      ∀ ts passed,
        Relation.ReflTransGen (Rewrites (readMacros d)) (callTokens count.name args) ts →
          Calls (readMacros d) ts (selectorMacro d) passed →
            (passed.drop (selectorMacro d).params.length).length = args.length := by
  rw [readMacros_eq]
  have hanswer : Expands (macros d) (callTokens count.name args) (answer d args) :=
    (rewrites_count hne hplain).expands <| (rewrites_relay hne hplain).expands <|
      (rewrites_answer hne hplain).expands (Expands.of_plain (plain_answer hplain))
  refine ⟨fun h => ?_, fun h => ?_, ?_, fun ts passed htrail hcalls => ?_⟩
  · unfold answer at hanswer
    rw [dif_neg (by omega)] at hanswer
    exact hanswer.iff_eq
  · unfold answer at hanswer
    rw [dif_pos h] at hanswer
    exact hanswer.iff_eq
  · exact ⟨_, _, trail_selector hne hplain,
      calls_selector (length_passed hne) (plain_passed hplain)⟩
  · rw [passed_eq hne hplain htrail hcalls, List.length_drop, length_params_selectorMacro,
      List.length_append, length_numerals]
    omega

/-- Four arguments are more than a header of depth one counts. -/
theorem expands_count_iff_depth_one :
    Expands (readMacros (.nth 0)) (callTokens count.name [[identifier "a"], [identifier "b"]])
        [number "2"] ∧
      Expands (readMacros (.nth 0))
        (callTokens count.name [[identifier "a"], [identifier "b"], [identifier "c"],
          [identifier "e"]]) [identifier "e"] := by
  have hplain : ∀ s : String, Plain (identifier s) := fun s => ⟨nofun, nofun, nofun⟩
  have htwo : ∀ a ∈ [[identifier "a"], [identifier "b"]], ∀ t ∈ a, Plain t := by
    simpa using ⟨hplain "a", hplain "b"⟩
  have hfour : ∀ a ∈ [[identifier "a"], [identifier "b"], [identifier "c"], [identifier "e"]],
      ∀ t ∈ a, Plain t := by
    simpa using ⟨hplain "a", hplain "b", hplain "c", hplain "e"⟩
  constructor
  · exact ((expands_count_iff (d := .nth 0) (by simp) htwo).1 (by decide) _).2 (by decide)
  · exact ((expands_count_iff (d := .nth 0) (by simp) hfour).2.1 (by decide) _).2 rfl

end FieldMacros.Counting
