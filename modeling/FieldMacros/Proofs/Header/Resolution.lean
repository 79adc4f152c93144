import FieldMacros.Proofs.Header.Lines
import FieldMacros.Proofs.Preprocessor.Expansion
import Mathlib.Algebra.Group.Nat.Defs
import Mathlib.Data.List.Induction

/-!
# What a call of a variant resolves to

`resolution base first further` is the expression that names the path from
`base` through all the fields: each further field is looked up on the type that
the expression so far names, and the expression goes along as the parent. A
call of a variant expands to the tokens of that expression.
-/

namespace FieldMacros.Family

open Token Preprocessor

def outermost (base field : String) : String :=
  lookupName ++ "(&" ++ base ++ "::" ++ field ++ ")"

def deeper (inner field : String) : String :=
  wrapName ++ "(" ++ lookupName ++ "(&std::decay_t<typename decltype(" ++ inner ++
    ")::child_base_type>::" ++ field ++ "), " ++ inner ++ ")"

/-- The path from `base` through its fields. -/
def resolution (base first : String) (further : List String) : String :=
  further.foldl deeper (outermost base first)

theorem resolution_concat (base first : String) (further : List String) (field : String) :
    resolution base first (further ++ [field]) = deeper (resolution base first further) field := by
  unfold resolution
  rw [List.foldl_append]
  rfl

/-! ## Tokens -/

def front : List Token :=
  [identifier wrapName, symbol '(', identifier lookupName, symbol '(', symbol '&',
    identifier "std", symbol ':', symbol ':', identifier "decay_t", symbol '<',
    identifier "typename", identifier "decltype", symbol '(']

def middle : List Token :=
  [symbol ')', symbol ':', symbol ':', identifier "child_base_type", symbol '>', symbol ':',
    symbol ':']

def between : List Token :=
  [symbol ')', symbol ',']

theorem isIdentifier_wrapName : IsIdentifier wrapName := by
  decide

theorem isIdentifier_lookupName : IsIdentifier lookupName := by
  decide

theorem ofString_deeper (inner field : String) :
    ofString (deeper inner field) =
      front ++ (ofString inner ++ (middle ++ (ofString field ++ (between ++ (ofString inner ++
        [symbol ')']))))) := by
  have hfront : ofString (wrapName ++ "(" ++ lookupName) ++
      ofString "(&std::decay_t<typename decltype(" = front := by
    rw [ofString_cut (by decide), ofString_of_isIdentifier isIdentifier_wrapName,
      ofString_of_isIdentifier isIdentifier_lookupName, ofString_open]
    simp [ofString, ofChars, isBlank, beginsIdentifier, continuesIdentifier, front]
  have hmiddle : ofString ")::child_base_type>::" = middle := by
    simp [ofString, ofChars, isBlank, beginsIdentifier, continuesIdentifier, middle]
  have hbetween : ofString "), " = between := by
    simp [ofString, ofChars, isBlank, beginsIdentifier, between]
  unfold deeper
  rw [ofString_append (by decide), ofString_cut (by decide), ofString_cut (by decide),
    ofString_cut (by decide), hfront, hmiddle, hbetween, ofString_close]
  simp only [List.append_assoc]

theorem ofString_outermost (base field : String) :
    ofString (outermost base field) =
      [identifier lookupName, symbol '(', symbol '&'] ++ (ofString base ++
        ([symbol ':', symbol ':'] ++ (ofString field ++ [symbol ')']))) := by
  have hopen : ofString lookupName ++ ofString "(&" =
      [identifier lookupName, symbol '(', symbol '&'] := by
    rw [ofString_of_isIdentifier isIdentifier_lookupName]
    simp [ofString, ofChars, isBlank, beginsIdentifier]
  have hcolons : ofString "::" = [symbol ':', symbol ':'] := by
    simp [ofString, ofChars, isBlank, beginsIdentifier]
  unfold outermost
  rw [ofString_append (by decide), ofString_cut (by decide), ofString_cut (by decide),
    hopen, hcolons, ofString_close]
  simp only [List.append_assoc]

/-! ## Parameters -/

theorem params_nth_succ (i : Nat) :
    params (.nth (i + 1)) = params (.nth i) ++ [fieldName (.nth (i + 1))] := by
  unfold params
  rw [Depth.levels_nth_succ, List.map_append]
  rfl

theorem fieldName_ne {s : String} (h : s.toList.head? ≠ some 'f') (d : Depth) :
    fieldName d ≠ s := by
  rintro rfl
  apply h
  unfold fieldName
  rw [String.toList_append]
  rfl

theorem not_mem_params {s : String} (hbase : s ≠ "base") (hfield : s.toList.head? ≠ some 'f')
    (d : Depth) : s ∉ params d := by
  unfold params
  rw [List.mem_cons, not_or]
  refine ⟨hbase, fun hmem => ?_⟩
  obtain ⟨l, -, hl⟩ := List.mem_map.1 hmem
  exact fieldName_ne hfield l hl

theorem nodup_params (d : Depth) : (params d).Nodup := by
  unfold params
  rw [List.nodup_cons]
  constructor
  · intro hmem
    obtain ⟨l, -, hl⟩ := List.mem_map.1 hmem
    exact fieldName_ne (by decide) l hl
  · exact (Header.nodup_levels d).map fun a b h => fieldName_injective h

def word (a : String) : List Token :=
  [identifier a]

/-! ## Substitution -/

theorem ofString_invocation (d : Depth) :
    ofString (invocation d) = callTokens (variantName d) ((params d).map word) := by
  rw [invocation_eq_call, ofString_call (isIdentifier_variantName d)]
  congr 1
  exact List.map_congr_left fun p hp => ofString_of_isIdentifier (isIdentifier_params d p hp)

/-- The names that a path uses beside those of its types and fields. -/
def vocabulary : List String :=
  [wrapName, lookupName, "std", "decay_t", "typename", "decltype", "child_base_type"]

def isFixed : Token → Bool
  | .identifier name => vocabulary.contains name
  | _ => true

theorem mem_vocabulary {ts : List Token} (h : ts.all isFixed = true) {name : String}
    (hname : identifier name ∈ ts) : name ∈ vocabulary := by
  have := List.all_eq_true.1 h _ hname
  simpa [isFixed] using this

theorem not_mem_params_of_fixed {ts : List Token} (h : ts.all isFixed = true) (d : Depth) :
    ∀ name, identifier name ∈ ts → name ∉ params d := by
  have hall : ∀ s ∈ vocabulary, s ≠ "base" ∧ s.toList.head? ≠ some 'f' := by decide
  intro name hname
  obtain ⟨hbase, hfield⟩ := hall name (mem_vocabulary h hname)
  exact not_mem_params hbase hfield d

theorem inert_of_fixed {ts : List Token} (h : ts.all isFixed = true) (d : Depth) :
    Inert (Header.macros d) ts := by
  have hall : ∀ s ∈ vocabulary, s.toList[9]? ≠ some 'C' ∧ s ≠ Counting.count.name ∧
      s ≠ Counting.relay.name ∧ s ≠ Counting.selectorName ∧ s ≠ Counting.sequenceName := by decide
  intro name hname m hm
  obtain ⟨hc, hcount, hrelay, hselector, hsequence⟩ := hall name (mem_vocabulary h hname)
  simp only [Header.macros, Header.sized, List.mem_cons] at hm
  rcases hm with rfl | rfl | rfl | rfl | hm
  · exact hcount.symm
  · exact hrelay.symm
  · exact hselector.symm
  · exact hsequence.symm
  · obtain ⟨l, -, rfl⟩ := List.mem_map.1 hm
    exact Header.variantName_ne hc l

/-- `f` puts arguments in the place of the parameters of a variant and changes nothing else that
occurs in a body. -/
structure Fills (d : Depth) (as : List (List Token)) (f : Token → List Token) : Prop where
  fixed : ∀ ts : List Token, ts.all isFixed = true → ts.flatMap f = ts
  variantName : ∀ l, f (identifier (variantName l)) = [identifier (variantName l)]
  params : List.Forall₂ (fun p a => f (identifier p) = a) (params d) as

theorem fills_zip {d : Depth} {as : List (List Token)} (hlen : (params d).length = as.length) :
    Fills d as (replaceToken ((params d).zip as)) where
  fixed ts h := flatMap_replaceToken_self fun name hname =>
    lookup_zip_eq_none (not_mem_params_of_fixed h d name hname) as
  variantName l := by
    have hbase : variantName l ≠ "base" := Header.variantName_ne (by decide) l
    have hfield : (variantName l).toList.head? ≠ some 'f' := by
      unfold variantName
      rw [String.toList_append]
      exact fun h => absurd (Option.some.inj h) (by decide)
    have hself : (word (variantName l)).flatMap (replaceToken ((params d).zip as)) =
        word (variantName l) := by
      refine flatMap_replaceToken_self fun name hname => ?_
      unfold word at hname
      rw [List.mem_singleton, identifier.injEq] at hname
      exact lookup_zip_eq_none (hname ▸ not_mem_params hbase hfield d) as
    rwa [word, List.flatMap_singleton] at hself
  params := forall₂_replaceToken hlen (nodup_params d)

/-- The body of the outermost variant with its arguments put in. -/
theorem substitute_variant_zero (base first : String) :
    substitute (variant (.nth 0)) ((params (.nth 0)).zip [word base, word first]) =
      [identifier lookupName, symbol '(', symbol '&'] ++ (word base ++
        ([symbol ':', symbol ':'] ++ (word first ++ [symbol ')']))) := by
  have hbody : (variant (.nth 0)).body = outermost "base" (fieldName (.nth 0)) := rfl
  have hbase : ofString "base" = [identifier "base"] := ofString_of_isIdentifier (by decide)
  have hfield := ofString_of_isIdentifier (isIdentifier_fieldName (.nth 0))
  have hlen : (params (.nth 0)).length = [word base, word first].length := rfl
  obtain ⟨hfixed, -, hparams⟩ := fills_zip hlen
  unfold substitute
  rw [hbody, ofString_outermost, hbase, hfield]
  generalize replaceToken ((params (.nth 0)).zip [word base, word first]) = f at *
  obtain _ | ⟨hb, _ | ⟨hf, -⟩⟩ := hparams
  simp only [List.flatMap_append, List.flatMap_singleton f (identifier _)]
  rw [hb, hf, hfixed _ (by decide), hfixed _ (by decide), hfixed _ (by decide)]

/-- The body of a deeper variant with its arguments put in: the parent is called with all but the
last. -/
theorem substitute_variant_succ (i : Nat) {as : List (List Token)}
    (hlen : (params (.nth i)).length = as.length) (a : List Token) :
    substitute (variant (.nth (i + 1))) ((params (.nth (i + 1))).zip (as ++ [a])) =
      front ++ (callTokens (variantName (.nth i)) as ++ (middle ++ (a ++
        (between ++ (callTokens (variantName (.nth i)) as ++ [symbol ')']))))) := by
  have hbody : (variant (.nth (i + 1))).body =
      deeper (invocation (.nth i)) (fieldName (.nth (i + 1))) := rfl
  have hfield := ofString_of_isIdentifier (isIdentifier_fieldName (.nth (i + 1)))
  have hlen' : (params (.nth (i + 1))).length = (as ++ [a]).length := by
    rw [params_nth_succ, List.length_append, List.length_append, hlen]
    rfl
  obtain ⟨hfixed, hvariant, hparams⟩ := fills_zip hlen'
  unfold substitute
  rw [hbody, ofString_deeper, ofString_invocation, hfield]
  generalize replaceToken ((params (.nth (i + 1))).zip (as ++ [a])) = f at *
  rw [params_nth_succ] at hparams
  obtain ⟨hinit, hlast⟩ := forall₂_concat hlen hparams
  have hcall : (callTokens (variantName (.nth i)) ((params (.nth i)).map word)).flatMap f =
      callTokens (variantName (.nth i)) as := by
    have hsymbol : ∀ c, f (symbol c) = [symbol c] := fun c => by
      have := hfixed [symbol c] rfl
      rwa [List.flatMap_singleton] at this
    rw [flatMap_callTokens (hvariant _) (hsymbol _) (hsymbol _) (hsymbol _)]
    exact congrArg _ (map_flatMap_identifier hinit)
  simp only [List.flatMap_append, hcall, List.flatMap_singleton f (identifier _)]
  rw [hlast, hfixed front (by decide), hfixed middle (by decide), hfixed between (by decide),
    hfixed [symbol ')'] (by decide)]

/-! ## Expansion -/

theorem variant_mem_macros {d : Depth} {i : Nat} (h : i < d.level) :
    variant (.nth i) ∈ Header.macros d := by
  have hmem : Depth.nth i ∈ d.levels := List.mem_map_of_mem (List.mem_range.2 h)
  have hvariant : variant (.nth i) ∈ upTo d := List.mem_map_of_mem hmem
  simp only [Header.macros, Header.sized, List.mem_cons]
  exact .inr (.inr (.inr (.inr hvariant)))

theorem bind?_variant {d : Depth} {as : List (List Token)}
    (hlen : (params d).length = as.length) :
    bind? (variant d) as = some ((params d).zip as) := by
  have hvariadic : (variant d).variadic = false := rfl
  have hparams : (variant d).params = params d := rfl
  have hne : params d ≠ [] := List.cons_ne_nil _ _
  unfold bind?
  rw [hvariadic, hparams, if_neg (by decide), if_neg fun h => hne h.1, if_pos hlen]

theorem length_params_nth (i : Nat) : (params (.nth i)).length = i + 2 := by
  simp [params, Depth.nth]

/-- A call with inert arguments expands to what the variant's body does with the arguments in it. -/
theorem expands_call {d : Depth} {i : Nat} (hi : i < d.level) {as : List String}
    (hlen : as.length = i + 2) (hinert : ∀ a ∈ as, Inert (Header.macros d) (word a))
    {rest r : List Token}
    (h : Expands (Header.macros d)
      (substitute (variant (.nth i)) ((params (.nth i)).zip (as.map word)) ++ rest) r) :
    Expands (Header.macros d) (callTokens (variantName (.nth i)) (as.map word) ++ rest) r := by
  have hfind := Header.find?_macros (variant_mem_macros hi)
  have hne : as.map word ≠ [] := by
    rintro hnil
    rw [List.map_eq_nil_iff.1 hnil] at hlen
    cases hlen
  have harg : ∀ a ∈ as.map word, IsArgument a := by
    intro a ha
    obtain ⟨s, -, rfl⟩ := List.mem_map.1 ha
    refine isArgument_of_plain fun t ht => ?_
    unfold word at ht
    rw [List.mem_singleton] at ht
    rw [ht]
    exact ⟨nofun, nofun, nofun⟩
  have hself : List.Forall₂ (Expands (Header.macros d)) (as.map word) (as.map word) := by
    refine List.forall₂_same.2 fun a ha => ?_
    obtain ⟨s, hs, rfl⟩ := List.mem_map.1 ha
    exact Expands.self (hinert s hs)
  have hcount : (params (.nth i)).length = (as.map word).length := by
    rw [length_params_nth, List.length_map, hlen]
  exact Expands.call (call?_callTokens hfind hne harg rest) hself (bind?_variant hcount) h

theorem expands_outermost {d : Depth} (hd : 0 < d.level) {base first : String}
    (hbase : IsIdentifier base ∧ Inert (Header.macros d) (word base))
    (hfirst : IsIdentifier first ∧ Inert (Header.macros d) (word first))
    {rest r : List Token} (hr : Expands (Header.macros d) rest r) :
    Expands (Header.macros d) (callTokens (variantName (.nth 0)) ([base, first].map word) ++ rest)
      (ofString (outermost base first) ++ r) := by
  have hinert : ∀ a ∈ [base, first], Inert (Header.macros d) (word a) := by
    simp only [List.mem_cons, List.not_mem_nil, or_false]
    rintro a (rfl | rfl)
    · exact hbase.2
    · exact hfirst.2
  refine expands_call hd rfl hinert ?_
  rw [List.map_cons, List.map_cons, List.map_nil, substitute_variant_zero, ofString_outermost,
    ofString_of_isIdentifier hbase.1, ofString_of_isIdentifier hfirst.1]
  simp only [List.append_assoc]
  refine Expands.inert (inert_of_fixed (by decide) d) (Expands.inert hbase.2 ?_)
  refine Expands.inert (inert_of_fixed (by decide) d) (Expands.inert hfirst.2 ?_)
  exact Expands.inert (inert_of_fixed (by decide) d) hr

/-- If calls of the parent expand to `inner`, then a call with one more field to what that field
makes of it. -/
theorem expands_deeper {d : Depth} {i : Nat} (hi : i + 1 < d.level) {as : List String}
    (hlen : as.length = i + 2) (hinert : ∀ a ∈ as, Inert (Header.macros d) (word a))
    {inner : String}
    (hinner : ∀ {rest r : List Token}, Expands (Header.macros d) rest r →
      Expands (Header.macros d) (callTokens (variantName (.nth i)) (as.map word) ++ rest)
        (ofString inner ++ r))
    {field : String} (hfield : IsIdentifier field ∧ Inert (Header.macros d) (word field))
    {rest r : List Token} (hr : Expands (Header.macros d) rest r) :
    Expands (Header.macros d)
      (callTokens (variantName (.nth (i + 1))) ((as ++ [field]).map word) ++ rest)
      (ofString (deeper inner field) ++ r) := by
  have hparams : (params (.nth i)).length = (as.map word).length := by
    rw [length_params_nth, List.length_map, hlen]
  have hinert' : ∀ a ∈ as ++ [field], Inert (Header.macros d) (word a) := by
    intro a ha
    rcases List.mem_append.1 ha with ha | ha
    · exact hinert a ha
    · exact List.mem_singleton.1 ha ▸ hfield.2
  refine expands_call hi (by simp [hlen]) hinert' ?_
  rw [List.map_append, List.map_singleton, substitute_variant_succ i hparams, ofString_deeper,
    ofString_of_isIdentifier hfield.1]
  simp only [List.append_assoc]
  refine Expands.inert (inert_of_fixed (by decide) d) (hinner ?_)
  refine Expands.inert (inert_of_fixed (by decide) d) (Expands.inert hfield.2 ?_)
  refine Expands.inert (inert_of_fixed (by decide) d) (hinner ?_)
  exact Expands.inert (inert_of_fixed (by decide) d) hr

/-- A call of a variant expands to the path that it names, whatever follows the call. -/
theorem expands_variant {d : Depth} {base first : String} {further : List String}
    (hle : further.length < d.level)
    (hargs : ∀ a ∈ base :: first :: further, IsIdentifier a ∧ Inert (Header.macros d) (word a))
    {rest r : List Token} (hr : Expands (Header.macros d) rest r) :
    Expands (Header.macros d)
      (callTokens (variantName (.nth further.length)) ((base :: first :: further).map word) ++ rest)
      (ofString (resolution base first further) ++ r) := by
  -- The parent is called twice, with two different rests behind it.
  induction further using List.reverseRecOn generalizing rest r with
  | nil => exact expands_outermost hle (hargs base (by simp)) (hargs first (by simp)) hr
  | append_singleton further field ih =>
    have hlen : (further ++ [field]).length = further.length + 1 := by simp
    have hsub : ∀ a ∈ base :: first :: further, a ∈ base :: first :: (further ++ [field]) :=
      fun a ha => List.mem_append_left [field] ha
    rw [hlen] at hle ⊢
    rw [resolution_concat]
    exact expands_deeper hle rfl (fun a ha => (hargs a (hsub a ha)).2)
      (ih (by omega) fun a ha => hargs a (hsub a ha)) (hargs field (by simp)) hr

/-! ## Shape of a path -/

/-- What holds of the vocabulary, of punctuation and of its names holds of every token of a path. -/
theorem forall_mem_resolution {P : Token → Prop} (hfixed : ∀ t, isFixed t = true → P t)
    {base first : String} {further : List String}
    (hargs : ∀ a ∈ base :: first :: further, IsIdentifier a ∧ P (identifier a)) :
    ∀ t ∈ ofString (resolution base first further), P t := by
  have hall : ∀ ts : List Token, ts.all isFixed = true → ∀ t ∈ ts, P t :=
    fun ts h t ht => hfixed t (List.all_eq_true.1 h t ht)
  have hword : ∀ a ∈ base :: first :: further, ∀ t ∈ ofString a, P t := by
    intro a ha t ht
    obtain ⟨hid, hP⟩ := hargs a ha
    rw [ofString_of_isIdentifier hid, List.mem_singleton] at ht
    exact ht ▸ hP
  induction further using List.reverseRecOn with
  | nil =>
    unfold resolution
    rw [List.foldl_nil, ofString_outermost]
    refine List.forall_mem_append.2 ⟨hall _ (by decide), ?_⟩
    refine List.forall_mem_append.2 ⟨hword base (by simp), ?_⟩
    refine List.forall_mem_append.2 ⟨hall _ (by decide), ?_⟩
    exact List.forall_mem_append.2 ⟨hword first (by simp), hall _ (by decide)⟩
  | append_singleton further field ih =>
    have hsub : ∀ a ∈ base :: first :: further, a ∈ base :: first :: (further ++ [field]) := by
      intro a ha
      rw [← List.cons_append, ← List.cons_append]
      exact List.mem_append_left _ ha
    have hinner := ih (fun a ha => hargs a (hsub a ha)) fun a ha => hword a (hsub a ha)
    rw [resolution_concat, ofString_deeper]
    refine List.forall_mem_append.2 ⟨hall _ (by decide), ?_⟩
    refine List.forall_mem_append.2 ⟨hinner, ?_⟩
    refine List.forall_mem_append.2 ⟨hall _ (by decide), ?_⟩
    refine List.forall_mem_append.2 ⟨hword field (by simp), ?_⟩
    refine List.forall_mem_append.2 ⟨hall _ (by decide), ?_⟩
    exact List.forall_mem_append.2 ⟨hinner, hall _ (by decide)⟩

theorem mem_resolution {base first : String} {further : List String}
    (hargs : ∀ a ∈ base :: first :: further, IsIdentifier a) {name : String}
    (hname : identifier name ∈ ofString (resolution base first further)) :
    name ∈ vocabulary ∨ name ∈ base :: first :: further := by
  have hfixed : ∀ t, isFixed t = true →
      ∀ s, t = identifier s → s ∈ vocabulary ∨ s ∈ base :: first :: further := by
    rintro t ht s rfl
    exact .inl (by simpa [isFixed] using ht)
  have hnames : ∀ a ∈ base :: first :: further, IsIdentifier a ∧
      ∀ s, identifier a = identifier s → s ∈ vocabulary ∨ s ∈ base :: first :: further := by
    refine fun a ha => ⟨hargs a ha, fun s hs => .inr ?_⟩
    rwa [← Token.identifier.inj hs]
  exact forall_mem_resolution hfixed hnames _ hname name rfl

theorem uses_word (name a : String) : uses name (word a) = 0 := by
  simp [uses, word]

/-- Every further field doubles the lookups and adds one. -/
theorem uses_resolution {base first : String} {further : List String}
    (hargs : ∀ a ∈ base :: first :: further, IsIdentifier a) :
    uses lookupName (ofString (resolution base first further)) + 1 = 2 ^ (further.length + 1) := by
  induction further using List.reverseRecOn with
  | nil =>
    have hb := ofString_of_isIdentifier (hargs base (by simp))
    have hf := ofString_of_isIdentifier (hargs first (by simp))
    unfold resolution
    rw [List.foldl_nil, ofString_outermost, hb, hf, uses_append (.inl (by decide)),
      uses_append (.inr (by simp)), uses_append (.inl (by decide)), uses_append (.inr (by simp))]
    simp [uses]
  | append_singleton further field ih =>
    have hfield := ofString_of_isIdentifier (hargs field (by simp))
    have hinner := ih fun a ha => hargs a (by simp at ha ⊢; tauto)
    have hfront : uses lookupName front = 1 := by decide
    have hmiddle : uses lookupName middle = 0 := by decide
    have hbetween : uses lookupName between = 0 := by decide
    have hclose : uses lookupName [symbol ')'] = 0 := by decide
    rw [resolution_concat, ofString_deeper, hfield, uses_append (.inl (by decide)),
      uses_append (.inr (by simp [middle])), uses_append (.inl (by decide)),
      uses_append (.inr (by simp [between])), uses_append (.inl (by decide)),
      uses_append (.inr (by simp)), hfront, hmiddle, hbetween, hclose, List.length_append,
      List.length_singleton, Nat.pow_succ]
    have hword := uses_word lookupName field
    unfold word at hword
    omega

/-- No macro is left in a path, and no name of the family that its names did not bring. -/
theorem foreign_of_mem_resolution {d : Depth} {base first : String} {further : List String}
    (hargs : ∀ a ∈ base :: first :: further, IsIdentifier a ∧ ∀ m ∈ Header.macros d, m.name ≠ a)
    {name : String} (hname : identifier name ∈ ofString (resolution base first further)) :
    (∀ m ∈ Header.macros d, m.name ≠ name) ∧
      (familyName.toList <+: name.toList → name ∈ base :: first :: further) := by
  rcases mem_resolution (fun a ha => (hargs a ha).1) hname with hvocabulary | harg
  · have hfixed : [identifier name].all isFixed = true := by
      simpa [isFixed] using hvocabulary
    have hforeign : ∀ s ∈ vocabulary, ¬familyName.toList <+: s.toList := by decide
    exact ⟨inert_of_fixed hfixed d name List.mem_cons_self,
      fun hfamily => absurd hfamily (hforeign name hvocabulary)⟩
  · exact ⟨(hargs name harg).2, fun _ => harg⟩

/-- Read back from the text of a header, a variant called on its type and fields expands to the path
that they name and to nothing else; no macro of the header is left in it, and each depth doubles the
lookups. -/
theorem expandsTo_resolution {d n : Depth} (hle : n ≤ d) {base first : String}
    {further : List String} (hlen : further.length + 1 = n.level)
    (hargs : ∀ a ∈ base :: first :: further,
      IsIdentifier a ∧ ∀ m ∈ Macro.readAll (Header.text d), m.name ≠ a) :
    (∀ r, ExpandsTo (Header.text d) (Macro.call (variantName n) (base :: first :: further)) r ↔
        r = ofString (resolution base first further)) ∧
      (∀ name, identifier name ∈ ofString (resolution base first further) →
        (∀ m ∈ Macro.readAll (Header.text d), m.name ≠ name) ∧
          (familyName.toList <+: name.toList → name ∈ base :: first :: further)) ∧
      uses lookupName (ofString (resolution base first further)) = 2 ^ n.level - 1 := by
  have hn : n = .nth further.length := Depth.level_injective hlen.symm
  have hlevel : further.length < d.level := by
    have : n.level ≤ d.level := hle
    omega
  have hid : ∀ a ∈ base :: first :: further, IsIdentifier a := fun a ha => (hargs a ha).1
  have hwords : (base :: first :: further).map ofString = (base :: first :: further).map word :=
    List.map_congr_left fun a ha => ofString_of_isIdentifier (hid a ha)
  simp only [ExpandsTo, Header.readAll_text] at hargs ⊢
  have hinert : ∀ a ∈ base :: first :: further,
      IsIdentifier a ∧ Inert (Header.macros d) (word a) := by
    refine fun a ha => ⟨hid a ha, fun name hname => ?_⟩
    unfold word at hname
    rw [List.mem_singleton, identifier.injEq] at hname
    exact hname ▸ (hargs a ha).2
  have hexpands := expands_variant hlevel hinert Expands.nil
  rw [List.append_nil, List.append_nil, ← hn, ← hwords,
    ← ofString_call (isIdentifier_variantName n)] at hexpands
  have huses := uses_resolution hid
  rw [hlen] at huses
  exact ⟨hexpands.iff_eq, fun name hname => foreign_of_mem_resolution hargs hname, by omega⟩

/-- The field `city` of the field `address` of a `Person`. -/
theorem expandsTo_resolution_city :
    uses lookupName (ofString (resolution "Person" "address" ["city"])) = 3 ∧
      ExpandsTo (Header.text (.nth 1))
        (Macro.call (variantName (.nth 1)) ["Person", "address", "city"])
        (ofString (resolution "Person" "address" ["city"])) := by
  have hid : ∀ a ∈ ["Person", "address", "city"], IsIdentifier a := by decide
  have hforeign : ∀ a ∈ ["Person", "address", "city"],
      ∀ m ∈ Macro.readAll (Header.text (.nth 1)), m.name ≠ a := by
    rw [Header.readAll_text]
    decide
  have h := expandsTo_resolution (d := .nth 1) (n := .nth 1) (Nat.le_refl _) rfl
    fun a ha => ⟨hid a ha, hforeign a ha⟩
  exact ⟨h.2.2, (h.1 _).2 rfl⟩

end FieldMacros.Family
