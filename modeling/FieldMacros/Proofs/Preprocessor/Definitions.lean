import FieldMacros.Preprocessor.Directive
import FieldMacros.Proofs.Preprocessor.Tokens
import FieldMacros.Proofs.Text.Pieces
import FieldMacros.Text.Parentheses

/-!
# Definitions are read back

A macro whose name and parameters are identifiers and whose body stays on one
line is read back from its definition as it is (`read?_definition`).
-/

namespace FieldMacros.Macro

open Token

/-- A macro that its definition tells in full. -/
structure Legible (m : Macro) : Prop where
  name : IsIdentifier m.name
  params : ∀ p ∈ m.params, IsIdentifier p
  body : Text.IsLine m.body

/-! ## Lists of parameters -/

def listingTail (xs : List String) : List Char :=
  xs.flatMap fun x => ',' :: ' ' :: x.toList

theorem toList_listing_cons (x : String) (xs : List String) :
    (listing (x :: xs)).toList = x.toList ++ listingTail xs := by
  induction xs generalizing x with
  | nil => simp [listing, listingTail]
  | cons y ys ih =>
    have h : listing (x :: y :: ys) = x ++ ", " ++ listing (y :: ys) := by
      simp [listing, String.intercalate_cons_cons]
    rw [h, String.toList_append, String.toList_append, ih y, List.append_assoc]
    rfl

theorem mem_listing {xs : List String} {c : Char} (h : c ∈ (listing xs).toList) :
    c = ',' ∨ c = ' ' ∨ ∃ x ∈ xs, c ∈ x.toList := by
  cases xs with
  | nil => simp [listing] at h
  | cons x xs =>
    rw [toList_listing_cons, List.mem_append, listingTail, List.mem_flatMap] at h
    rcases h with h | ⟨y, hy, h⟩
    · exact .inr (.inr ⟨x, List.mem_cons_self, h⟩)
    · rcases List.mem_cons.1 h with rfl | h
      · exact .inl rfl
      · rcases List.mem_cons.1 h with rfl | h
        · exact .inr (.inl rfl)
        · exact .inr (.inr ⟨y, List.mem_cons_of_mem x hy, h⟩)

/-- A listing is cut at its commas; the blank after a comma stays with the item. -/
theorem splitOn_listingTail {cs : List Char} (hc : ',' ∉ cs) {xs : List String}
    (h : ∀ x ∈ xs, ',' ∉ x.toList) :
    (cs ++ listingTail xs).splitOn ',' = cs :: xs.map fun x => ' ' :: x.toList := by
  induction xs generalizing cs with
  | nil => simpa [listingTail] using List.splitOn_eq_singleton hc
  | cons x xs ih =>
    have hx : ',' ∉ ' ' :: x.toList := by simpa using h x List.mem_cons_self
    have hrest := ih hx fun y hy => h y (List.mem_cons_of_mem x hy)
    unfold listingTail
    rw [List.flatMap_cons, List.cons_append,
      List.splitOn_append_cons_self_of_not_mem hc, List.map_cons, ← hrest]
    rfl

/-- A text that begins with something other than a blank. -/
def Visible (s : String) : Prop :=
  ∃ c cs, s.toList = c :: cs ∧ isBlank c = false

theorem trimmed_toList {s : String} (h : Visible s) : trimmed s.toList = s := by
  obtain ⟨c, cs, hs, hc⟩ := h
  unfold trimmed
  rw [hs, List.dropWhile_cons_of_neg (by simp [hc]), ← hs, String.ofList_toList]

theorem trimmed_blank_toList {s : String} (h : Visible s) : trimmed (' ' :: s.toList) = s := by
  unfold trimmed
  rw [List.dropWhile_cons_of_pos (by decide), ← trimmed, trimmed_toList h]

theorem trimmed_listing {x : String} {xs : List String}
    (hcomma : ∀ y ∈ x :: xs, ',' ∉ y.toList) (hvis : ∀ y ∈ x :: xs, Visible y) :
    ((listing (x :: xs)).toList.splitOn ',').map trimmed = x :: xs := by
  rw [toList_listing_cons, splitOn_listingTail (hcomma x List.mem_cons_self) fun y hy =>
    hcomma y (List.mem_cons_of_mem x hy)]
  rw [List.map_cons, trimmed_toList (hvis x List.mem_cons_self), List.map_map]
  congr 1
  calc xs.map (trimmed ∘ fun y => ' ' :: y.toList)
      = xs.map id := List.map_congr_left fun y hy =>
        trimmed_blank_toList (hvis y (List.mem_cons_of_mem x hy))
    _ = xs := List.map_id xs

/-! ## Legible macros -/

theorem not_mem_of_isIdentifier {s : String} (h : IsIdentifier s) {c : Char}
    (hc : continuesIdentifier c = false) : c ∉ s.toList := by
  intro hmem
  rw [List.all_eq_true.1 h.continues c hmem] at hc
  cases hc

theorem visible_of_isIdentifier {s : String} (h : IsIdentifier s) : Visible s := by
  obtain ⟨c, cs, hs, hc, -⟩ := h.exists_cons
  exact ⟨c, cs, hs, isBlank_eq_false (continues_of_begins hc)⟩

theorem ne_ellipsis {s : String} (h : IsIdentifier s) : s ≠ "..." := by
  rintro rfl
  exact not_mem_of_isIdentifier h (c := '.') (by decide) (by decide)

theorem eq_ellipsis_or_isIdentifier {m : Macro} (h : m.Legible) {p : String}
    (hp : p ∈ m.writtenParams) : p = "..." ∨ IsIdentifier p := by
  unfold writtenParams at hp
  split at hp
  · rcases List.mem_append.1 hp with hp | hp
    · exact .inr (h.params p hp)
    · exact .inl (by simpa using hp)
  · exact .inr (h.params p hp)

theorem not_mem_writtenParams {m : Macro} (h : m.Legible) {c : Char} (hdot : c ≠ '.')
    (hc : continuesIdentifier c = false) : ∀ p ∈ m.writtenParams, c ∉ p.toList := by
  intro p hp
  rcases eq_ellipsis_or_isIdentifier h hp with rfl | hp
  · simpa using hdot
  · exact not_mem_of_isIdentifier hp hc

theorem not_mem_parameters {m : Macro} (h : m.Legible) {c : Char} (hdot : c ≠ '.')
    (hcomma : c ≠ ',') (hblank : c ≠ ' ') (hc : continuesIdentifier c = false) :
    c ∉ (listing m.writtenParams).toList := by
  intro hmem
  rcases mem_listing hmem with h' | h' | ⟨p, hp, h'⟩
  · exact hcomma h'
  · exact hblank h'
  · exact not_mem_writtenParams h hdot hc p hp h'

theorem visible_writtenParams {m : Macro} (h : m.Legible) :
    ∀ p ∈ m.writtenParams, Visible p := by
  intro p hp
  rcases eq_ellipsis_or_isIdentifier h hp with rfl | hp
  · exact ⟨'.', ['.', '.'], rfl, rfl⟩
  · exact visible_of_isIdentifier hp

theorem readParams_writtenParams {m : Macro} (h : m.Legible) :
    readParams (listing m.writtenParams).toList = (m.params, m.variadic) := by
  have hcomma := not_mem_writtenParams h (c := ',') (by decide) (by decide)
  have hvis := visible_writtenParams h
  cases hw : m.writtenParams with
  | nil =>
    unfold writtenParams at hw
    split at hw
    · simp at hw
    · rename_i hv
      simp [readParams, listing, hw, hv]
  | cons x xs =>
    rw [hw] at hcomma hvis
    have hblank : (listing (x :: xs)).toList.all isBlank = false := by
      obtain ⟨c, cs, hs, hc⟩ := hvis x List.mem_cons_self
      rw [toList_listing_cons, hs]
      simp [hc]
    have hitems := trimmed_listing hcomma hvis
    simp only [readParams, hblank, Bool.false_eq_true, ↓reduceIte, hitems]
    rw [← hw]
    unfold writtenParams
    split
    · rename_i hv
      simp [hv]
    · rename_i hv
      have hlast : m.params.getLast? ≠ some "..." := fun he =>
        ne_ellipsis (h.params _ (List.mem_of_getLast? he)) rfl
      simp [hv, hlast]

theorem toList_definition (m : Macro) :
    m.definition.toList = directive ++ (m.name.toList ++
      '(' :: ((listing m.writtenParams).toList ++ ')' :: ' ' :: m.body.toList)) := by
  have hopen : "(".toList = ['('] := rfl
  have hclose : ")".toList = [')'] := rfl
  have hblank : " ".toList = [' '] := rfl
  have hdirective : directive = "#define ".toList := rfl
  unfold definition signature call
  rw [String.toList_append, String.toList_append, String.toList_append, String.toList_append,
    String.toList_append, String.toList_append, hopen, hclose, hblank, hdirective]
  simp only [List.append_assoc, List.cons_append, List.nil_append]

/-- A legible macro is what its definition says. -/
theorem read?_definition {m : Macro} (h : m.Legible) : read? m.definition = some m := by
  have hname := List.all_eq_true.1 h.name.continues
  have hparen : ')' ∉ (listing m.writtenParams).toList :=
    not_mem_parameters h (by decide) (by decide) (by decide) (by decide)
  have hkeep : ∀ c ∈ (listing m.writtenParams).toList, (c != ')') = true := fun c hc =>
    bne_iff_ne.2 fun e => hparen (e ▸ hc)
  have hstarts : directive.isPrefixOf m.definition.toList = true := by
    rw [toList_definition, List.isPrefixOf_iff_prefix]
    exact List.prefix_append _ _
  have hrest : m.definition.toList.drop directive.length = m.name.toList ++
      '(' :: ((listing m.writtenParams).toList ++ ')' :: ' ' :: m.body.toList) := by
    rw [toList_definition, List.drop_left]
  have hstop : Stops ('(' :: ((listing m.writtenParams).toList ++ ')' :: ' ' :: m.body.toList)) :=
    fun c hc => by cases hc; rfl
  obtain ⟨c, cs, hs, -⟩ := h.name.exists_cons
  unfold read?
  rw [if_pos hstarts, hrest]
  simp only [hstop.takeWhile_append, hstop.dropWhile_append, List.takeWhile_eq_self_iff.2 hname,
    List.dropWhile_eq_nil_iff.2 hname, List.nil_append]
  rw [hs]
  simp only [← hs, String.ofList_toList, readRest, List.takeWhile_append_of_pos hkeep,
    List.dropWhile_append_of_pos hkeep]
  simp [readParams_writtenParams h]

/-! ## Parentheses -/

section Parentheses

variable {m : Macro} (h : m.Legible)

include h

/-- The first parentheses of a definition enclose the parameters, and the body follows them. -/
theorem enclosed_definition :
    Text.enclosed m.definition = listing m.writtenParams ∧
      Text.afterEnclosed m.definition = String.ofList (' ' :: m.body.toList) := by
  have hs : m.definition.toList = directive ++ m.name.toList ++
      '(' :: ((listing m.writtenParams).toList ++ ')' :: (' ' :: m.body.toList)) := by
    rw [toList_definition, List.append_assoc]
  have hopen : '(' ∉ directive ++ m.name.toList := by
    rw [List.mem_append, not_or]
    exact ⟨by decide, not_mem_of_isIdentifier h.name (by decide)⟩
  have hclose : ')' ∉ directive ++ m.name.toList ++ '(' :: (listing m.writtenParams).toList := by
    simp only [List.mem_append, List.mem_cons, not_or]
    exact ⟨⟨by decide, not_mem_of_isIdentifier h.name (by decide)⟩, by decide,
      not_mem_parameters h (by decide) (by decide) (by decide) (by decide)⟩
  exact ⟨(Text.enclosed_eq hs hclose hopen).trans String.ofList_toList,
    Text.afterEnclosed_eq hs hclose⟩

theorem nests_signature (n : Nat) : Text.Nests n m.signature n := by
  have hname : Text.Nests n m.name n :=
    Text.nests_of_not_mem (not_mem_of_isIdentifier h.name (by decide))
      (not_mem_of_isIdentifier h.name (by decide)) n
  have hparams : Text.Nests (n + 1) (listing m.writtenParams) (n + 1) :=
    Text.nests_of_not_mem (not_mem_parameters h (by decide) (by decide) (by decide) (by decide))
      (not_mem_parameters h (by decide) (by decide) (by decide) (by decide)) (n + 1)
  exact ((hname.append (Text.nests_open n)).append hparams).append (Text.nests_close n)

/-- A definition is balanced if its body is. -/
theorem balanced_definition (hbody : Text.Balanced m.body) : Text.Balanced m.definition := by
  have hdirective : Text.Nests 0 "#define " 0 := by decide
  have hblank : Text.Nests 0 " " 0 := by decide
  exact ((hdirective.append (nests_signature h 0)).append hblank).append hbody

end Parentheses

theorem definition_injective {m n : Macro} (hm : m.Legible) (hn : n.Legible)
    (h : m.definition = n.definition) : m = n := by
  have hread := read?_definition hm
  rw [h, read?_definition hn] at hread
  exact (Option.some.inj hread).symm

theorem definition_ne_blank {m : Macro} (hm : m.Legible) : m.definition ≠ "" := by
  intro h
  have hread := read?_definition hm
  rw [h] at hread
  revert hread
  have : read? "" = none := by decide
  rw [this]
  exact nofun

theorem filterMap_definition {ms : List Macro} (h : ∀ m ∈ ms, m.Legible) :
    (ms.map definition).filterMap read? = ms := by
  induction ms with
  | nil => rfl
  | cons m ms ih =>
    rw [List.map_cons, List.filterMap_cons, read?_definition (h m List.mem_cons_self),
      ih fun n hn => h n (List.mem_cons_of_mem m hn)]

theorem map_definition_filterMap {ls : List String}
    (h : ∀ l ∈ ls, ∃ m : Macro, m.Legible ∧ m.definition = l) :
    (ls.filterMap read?).map definition = ls := by
  induction ls with
  | nil => rfl
  | cons l ls ih =>
    obtain ⟨m, hm, rfl⟩ := h l List.mem_cons_self
    rw [List.filterMap_cons, read?_definition hm, List.map_cons,
      ih fun k hk => h k (List.mem_cons_of_mem _ hk)]

/-- An ended text and what follows it are read apart. -/
theorem readAll_append {s : String} (h : Text.Ended s) (t : String) :
    readAll (s ++ t) = readAll s ++ readAll t := by
  have hblank : read? "" = none := by decide
  obtain ⟨r, rfl⟩ := h.exists_append
  unfold readAll
  rw [Text.pieces_newline_append, Text.pieces_newline, List.filterMap_append,
    List.filterMap_append, List.filterMap_cons, hblank, List.filterMap_nil, List.append_nil]

theorem isLine_of_isIdentifier {s : String} (h : IsIdentifier s) : Text.IsLine s := fun _ hc =>
  ⟨fun e => not_mem_of_isIdentifier h (by decide) (e ▸ hc),
    fun e => not_mem_of_isIdentifier h (by decide) (e ▸ hc)⟩

theorem isLine_listing {xs : List String} (h : ∀ x ∈ xs, Text.IsLine x) :
    Text.IsLine (listing xs) := by
  intro c hc
  rcases mem_listing hc with rfl | rfl | ⟨x, hx, hc⟩
  · decide
  · decide
  · exact h x hx c hc

theorem isLine_definition {m : Macro} (h : m.Legible) : Text.IsLine m.definition := by
  have hlisting : Text.IsLine (listing m.writtenParams) := by
    apply isLine_listing
    intro p hp
    rcases eq_ellipsis_or_isIdentifier h hp with rfl | hp
    · decide
    · exact isLine_of_isIdentifier hp
  have hname := isLine_of_isIdentifier h.name
  exact ((Text.IsLine.append (by decide)
    (((hname.append (by decide)).append hlisting).append (by decide))).append (by decide)).append
      h.body

end FieldMacros.Macro
