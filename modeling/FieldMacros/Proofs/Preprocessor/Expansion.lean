import FieldMacros.Preprocessor.Expansion
import FieldMacros.Proofs.Preprocessor.Tokens
import Mathlib.Data.List.Forall2

/-!
# Laws of expansion

`Expands ms ts r`: with some fuel the tokens `ts` expand to `r`. More fuel
changes no result (`expand_mono`), so there is one result at most
(`Expands.unique`). The rules `Expands.cons`, `Expands.call` and
`Expands.inert` are all that later proofs use of `expand`.
-/

namespace FieldMacros.Preprocessor

open Token

variable {ms : List Macro}

/-! ## Fuel -/

theorem mapM_mono {α β : Type} {f g : α → Option β} (h : ∀ a b, f a = some b → g a = some b)
    {as : List α} {bs : List β} (hf : as.mapM f = some bs) : as.mapM g = some bs := by
  induction as generalizing bs with
  | nil => simpa using hf
  | cons a as ih =>
    simp only [List.mapM_cons, Option.bind_eq_bind, Option.bind_eq_some_iff, Option.pure_def,
      Option.some.injEq] at hf ⊢
    obtain ⟨b, hb, bs', hbs, rfl⟩ := hf
    exact ⟨b, h a b hb, bs', ih hbs, rfl⟩

theorem expand_succ {n : Nat} {ts r : List Token} (h : expand ms n ts = some r) :
    expand ms (n + 1) ts = some r := by
  induction n generalizing ts r with
  | zero => simp [expand] at h
  | succ n ih =>
    cases ts with
    | nil => simpa [expand] using h
    | cons t ts =>
      rw [expand] at h ⊢
      split at h
      · obtain ⟨r', hr, rfl⟩ := Option.map_eq_some_iff.1 h
        rw [ih hr]
        rfl
      · simp only [Option.bind_eq_bind, Option.bind_eq_some_iff] at h ⊢
        obtain ⟨expanded, hargs, binding, hb, hr⟩ := h
        exact ⟨expanded, mapM_mono (fun _ _ => ih) hargs, binding, hb, ih hr⟩

theorem expand_mono {n m : Nat} (hle : n ≤ m) {ts r : List Token} (h : expand ms n ts = some r) :
    expand ms m ts = some r := by
  induction hle with
  | refl => exact h
  | step _ ih => exact expand_succ ih

/-! ## Results -/

/-- What tokens expand to, once there is fuel enough. -/
def Expands (ms : List Macro) (ts r : List Token) : Prop :=
  ∃ fuel, expand ms fuel ts = some r

theorem Expands.unique {ts r s : List Token} (hr : Expands ms ts r) (hs : Expands ms ts s) :
    r = s := by
  obtain ⟨n, hn⟩ := hr
  obtain ⟨m, hm⟩ := hs
  have h₁ := expand_mono (Nat.le_max_left n m) hn
  have h₂ := expand_mono (Nat.le_max_right n m) hm
  rw [h₁] at h₂
  exact Option.some.inj h₂

theorem Expands.iff_eq {ts r : List Token} (hr : Expands ms ts r) (s : List Token) :
    Expands ms ts s ↔ s = r :=
  ⟨fun hs => hs.unique hr, fun h => h ▸ hr⟩

theorem Expands.nil : Expands ms [] [] := ⟨1, rfl⟩

theorem Expands.cons {t : Token} {ts r : List Token} (hc : call? ms t ts = none)
    (h : Expands ms ts r) : Expands ms (t :: ts) (t :: r) := by
  obtain ⟨n, hn⟩ := h
  exact ⟨n + 1, by rw [expand, hc]; simp [hn]⟩

theorem exists_mapM {args expanded : List (List Token)}
    (h : List.Forall₂ (Expands ms) args expanded) :
    ∃ n, args.mapM (expand ms n) = some expanded := by
  induction h with
  | nil => exact ⟨0, rfl⟩
  | cons ha _ ih =>
    obtain ⟨n, hn⟩ := ha
    obtain ⟨m, hm⟩ := ih
    refine ⟨max n m, ?_⟩
    rw [List.mapM_cons, expand_mono (Nat.le_max_left n m) hn,
      mapM_mono (fun _ _ => expand_mono (Nat.le_max_right n m)) hm]
    rfl

theorem Expands.call {t : Token} {ts r rest : List Token} {m : Macro}
    {args expanded : List (List Token)} {binding : List (String × List Token)}
    (hc : call? ms t ts = some (m, args, rest)) (hargs : List.Forall₂ (Expands ms) args expanded)
    (hb : bind? m expanded = some binding) (h : Expands ms (substitute m binding ++ rest) r) :
    Expands ms (t :: ts) r := by
  obtain ⟨n, hn⟩ := exists_mapM hargs
  obtain ⟨k, hk⟩ := h
  refine ⟨max n k + 1, ?_⟩
  have hargs' := mapM_mono (fun _ _ => expand_mono (Nat.le_max_left n k)) hn
  have hr := expand_mono (Nat.le_max_right n k) hk
  rw [expand, hc]
  simp only [hargs', Option.bind_eq_bind, Option.bind_some, hb, hr]

/-- One call in front is replaced by the body of its macro, its arguments expanded first. -/
def Rewrites (ms : List Macro) (ts us : List Token) : Prop :=
  ∃ t ts' m args rest expanded binding, ts = t :: ts' ∧ call? ms t ts' = some (m, args, rest) ∧
    List.Forall₂ (Expands ms) args expanded ∧ bind? m expanded = some binding ∧
      us = substitute m binding ++ rest

theorem Rewrites.expands {ts us r : List Token} (h : Rewrites ms ts us) (hr : Expands ms us r) :
    Expands ms ts r := by
  obtain ⟨t, ts', m, args, rest, expanded, binding, rfl, hc, hargs, hb, rfl⟩ := h
  exact Expands.call hc hargs hb hr

theorem Rewrites.unique {ts us vs : List Token} (hu : Rewrites ms ts us) (hv : Rewrites ms ts vs) :
    us = vs := by
  obtain ⟨t, ts', m, args, rest, expanded, binding, rfl, hc, hargs, hb, rfl⟩ := hu
  obtain ⟨_, _, _, _, _, expanded', binding', heq, hc', hargs', hb', rfl⟩ := hv
  cases heq
  cases hc.symm.trans hc'
  have hexpanded : expanded = expanded' :=
    List.right_unique_forall₂' (fun _ _ _ h h' => h.unique h') hargs hargs'
  rw [← hexpanded, hb] at hb'
  cases hb'
  rfl

def Calls (ms : List Macro) (ts : List Token) (m : Macro) (args : List (List Token)) : Prop :=
  ∃ t ts' rest, ts = t :: ts' ∧ call? ms t ts' = some (m, args, rest)

theorem Calls.unique {ts : List Token} {m n : Macro} {args passed : List (List Token)}
    (hm : Calls ms ts m args) (hn : Calls ms ts n passed) : m = n ∧ args = passed := by
  obtain ⟨t, ts', rest, rfl, hm⟩ := hm
  obtain ⟨_, _, _, heq, hn⟩ := hn
  cases heq
  cases hm.symm.trans hn
  exact ⟨rfl, rfl⟩

theorem Rewrites.exists_calls {ts us : List Token} (h : Rewrites ms ts us) :
    ∃ m args, Calls ms ts m args := by
  obtain ⟨t, ts', m, args, rest, -, -, rfl, hc, -⟩ := h
  exact ⟨m, args, t, ts', rest, rfl, hc⟩

/-! ## Tokens that stay -/

/-- No token names a macro. -/
def Inert (ms : List Macro) (ts : List Token) : Prop :=
  ∀ name, identifier name ∈ ts → ∀ m ∈ ms, m.name ≠ name

theorem call?_symbol (c : Char) (ts : List Token) : call? ms (symbol c) ts = none := by
  cases ts <;> rfl

theorem call?_of_forall_ne {name : String} (h : ∀ m ∈ ms, m.name ≠ name) (ts : List Token) :
    call? ms (identifier name) ts = none := by
  have hfind : ms.find? (·.name = name) = none := by
    rw [List.find?_eq_none]
    intro m hm
    simpa using h m hm
  unfold call?
  split
  · rename_i heq
    cases heq
    rw [hfind]
  · rfl

theorem Expands.inert {ts us r : List Token} (h : Inert ms ts) (hr : Expands ms us r) :
    Expands ms (ts ++ us) (ts ++ r) := by
  induction ts with
  | nil => exact hr
  | cons t ts ih =>
    have hrest := ih fun name hname => h name (List.mem_cons_of_mem t hname)
    refine Expands.cons ?_ hrest
    cases t with
    | identifier name => exact call?_of_forall_ne (h name List.mem_cons_self) _
    | number _ => rfl
    | symbol _ => exact call?_symbol _ _

theorem Expands.self {ts : List Token} (h : Inert ms ts) : Expands ms ts ts := by
  have hnil : Expands ms [] [] := Expands.nil
  simpa using Expands.inert h hnil

theorem call?_of_head?_ne {t : Token} {ts : List Token} (h : ts.head? ≠ some (symbol '(')) :
    call? ms t ts = none := by
  unfold call?
  split
  · exact absurd rfl h
  · rfl

theorem not_calls_of_not_mem {ts : List Token} (h : symbol '(' ∉ ts) (m : Macro)
    (args : List (List Token)) : ¬Calls ms ts m args := by
  rintro ⟨t, ts', rest, rfl, hc⟩
  rw [List.mem_cons, not_or] at h
  rw [call?_of_head?_ne fun hopen => h.2 (List.mem_of_head? hopen)] at hc
  cases hc

/-- Without a parenthesis there is no call. -/
theorem Expands.of_not_mem {ts : List Token} (h : symbol '(' ∉ ts) : Expands ms ts ts := by
  induction ts with
  | nil => exact Expands.nil
  | cons t ts ih =>
    rw [List.mem_cons, not_or] at h
    have hc : call? ms t ts = none :=
      call?_of_head?_ne fun hopen => h.2 (List.mem_of_head? hopen)
    exact Expands.cons hc (ih h.2)

/-! ## Arguments -/

theorem argument_cons {t : Token} (ho : t ≠ symbol '(') (hc : t ≠ symbol ')')
    (hs : t ≠ symbol ',') (depth : Nat) (ts : List Token) :
    argument depth (t :: ts) = (argument depth ts).map fun (a, r) => (t :: a, r) := by
  rw [argument.eq_def]
  split <;> simp_all

def IsArgument (a : List Token) : Prop :=
  ∀ c rest, c = ',' ∨ c = ')' → argument 0 (a ++ symbol c :: rest) = some (a, c, rest)

/-- A token that neither separates nor groups arguments. -/
def Plain (t : Token) : Prop :=
  t ≠ symbol '(' ∧ t ≠ symbol ')' ∧ t ≠ symbol ','

theorem Expands.of_plain {a : List Token} (h : ∀ t ∈ a, Plain t) : Expands ms a a :=
  Expands.of_not_mem fun hmem => (h _ hmem).1 rfl

theorem isArgument_of_plain {a : List Token} (h : ∀ t ∈ a, Plain t) : IsArgument a := by
  intro c rest hc
  induction a with
  | nil => rcases hc with rfl | rfl <;> rfl
  | cons t a ih =>
    obtain ⟨ho, hcl, hs⟩ := h t List.mem_cons_self
    rw [List.cons_append, argument_cons ho hcl hs, ih fun u hu => h u (List.mem_cons_of_mem t hu)]
    rfl

theorem arguments_last {ts a rest : List Token} (h : argument 0 ts = some (a, ')', rest)) :
    arguments ts = some ([a], rest) := by
  rw [arguments]
  split <;> simp_all

theorem arguments_more {ts a rest : List Token} (h : argument 0 ts = some (a, ',', rest)) :
    arguments ts = (arguments rest).map fun (as, r) => (a :: as, r) := by
  rw [arguments]
  split <;> simp_all

theorem withCommas_cons_cons (a b : List Token) (as : List (List Token)) :
    withCommas (a :: b :: as) = a ++ symbol ',' :: withCommas (b :: as) := by
  simp [withCommas, List.intercalate_cons_cons]

theorem mem_withCommas {t : Token} {args : List (List Token)} (h : t ∈ withCommas args) :
    t = symbol ',' ∨ ∃ a ∈ args, t ∈ a := by
  induction args with
  | nil => cases h
  | cons a as ih =>
    cases as with
    | nil => exact .inr ⟨a, List.mem_cons_self, by simpa [withCommas] using h⟩
    | cons b as =>
      rw [withCommas_cons_cons, List.mem_append, List.mem_cons] at h
      rcases h with h | h | h
      · exact .inr ⟨a, List.mem_cons_self, h⟩
      · exact .inl h
      · rcases ih h with h | ⟨c, hc, h⟩
        · exact .inl h
        · exact .inr ⟨c, List.mem_cons_of_mem a hc, h⟩

theorem withCommas_append {as bs : List (List Token)} (ha : as ≠ []) (hb : bs ≠ []) :
    withCommas (as ++ bs) = withCommas as ++ symbol ',' :: withCommas bs := by
  induction as with
  | nil => exact absurd rfl ha
  | cons a as ih =>
    cases as with
    | nil =>
      obtain ⟨b, bs, rfl⟩ := List.exists_cons_of_ne_nil hb
      rw [List.singleton_append, withCommas_cons_cons]
      simp [withCommas]
    | cons c as =>
      rw [List.cons_append, List.cons_append, withCommas_cons_cons, ← List.cons_append,
        ih (by simp), withCommas_cons_cons, List.append_assoc, List.cons_append]

theorem withCommas_concat {as : List (List Token)} (ha : as ≠ []) (b : List Token) :
    withCommas (as ++ [b]) = withCommas as ++ symbol ',' :: b := by
  rw [withCommas_append ha (List.cons_ne_nil b [])]
  simp [withCommas]

theorem arguments_withCommas {args : List (List Token)} (hne : args ≠ [])
    (h : ∀ a ∈ args, IsArgument a) (rest : List Token) :
    arguments (withCommas args ++ symbol ')' :: rest) = some (args, rest) := by
  induction args with
  | nil => exact absurd rfl hne
  | cons a as ih =>
    have ha := h a List.mem_cons_self
    cases as with
    | nil =>
      have hw : withCommas [a] = a := by simp [withCommas]
      rw [hw]
      exact arguments_last (ha ')' rest (.inr rfl))
    | cons b as =>
      have hrest := ih (by simp) fun x hx => h x (List.mem_cons_of_mem a hx)
      rw [withCommas_cons_cons, List.append_assoc, List.cons_append,
        arguments_more (ha ',' _ (.inl rfl)), hrest]
      rfl

/-! ## Calls -/

def callTokens (name : String) (args : List (List Token)) : List Token :=
  identifier name :: symbol '(' :: (withCommas args ++ [symbol ')'])

theorem call?_callTokens {name : String} {m : Macro} (hfind : ms.find? (·.name = name) = some m)
    {args : List (List Token)} (hne : args ≠ []) (h : ∀ a ∈ args, IsArgument a)
    (rest : List Token) :
    call? ms (identifier name) (symbol '(' :: (withCommas args ++ [symbol ')']) ++ rest) =
      some (m, args, rest) := by
  have hargs := arguments_withCommas hne h rest
  simp only [List.cons_append, List.append_assoc, List.nil_append]
  unfold call?
  simp only [hfind, hargs]

theorem calls_callTokens {name : String} {m : Macro}
    (hfind : ms.find? (·.name = name) = some m) {args : List (List Token)} (hne : args ≠ [])
    (h : ∀ a ∈ args, IsArgument a) : Calls ms (callTokens name args) m args := by
  have hc := call?_callTokens hfind hne h []
  rw [List.append_nil] at hc
  exact ⟨_, _, [], rfl, hc⟩

theorem rewrites_callTokens {name : String} {m : Macro}
    (hfind : ms.find? (·.name = name) = some m) {args expanded : List (List Token)}
    (hne : args ≠ []) (h : ∀ a ∈ args, IsArgument a)
    (hexpanded : List.Forall₂ (Expands ms) args expanded) {binding : List (String × List Token)}
    (hb : bind? m expanded = some binding) :
    Rewrites ms (callTokens name args) (substitute m binding) := by
  have hc := call?_callTokens hfind hne h []
  rw [List.append_nil] at hc
  exact ⟨_, _, m, args, [], expanded, binding, rfl, hc, hexpanded, hb, (List.append_nil _).symm⟩

theorem flatMap_withCommas {f : Token → List Token} (hf : f (symbol ',') = [symbol ','])
    (args : List (List Token)) :
    (withCommas args).flatMap f = withCommas (args.map (·.flatMap f)) := by
  induction args with
  | nil => rfl
  | cons a as ih =>
    cases as with
    | nil => simp [withCommas]
    | cons b as =>
      rw [withCommas_cons_cons, List.flatMap_append, List.flatMap_cons, hf, ih, List.map_cons,
        List.map_cons, List.map_cons, withCommas_cons_cons]
      rfl

theorem flatMap_callTokens {f : Token → List Token} {name : String}
    (hname : f (identifier name) = [identifier name]) (hopen : f (symbol '(') = [symbol '('])
    (hclose : f (symbol ')') = [symbol ')']) (hcomma : f (symbol ',') = [symbol ','])
    (args : List (List Token)) :
    (callTokens name args).flatMap f = callTokens name (args.map (·.flatMap f)) := by
  unfold callTokens
  rw [List.flatMap_cons, List.flatMap_cons, List.flatMap_append,
    flatMap_withCommas hcomma, hname, hopen, List.flatMap_singleton, hclose]
  rfl

theorem identifiers_withCommas (names : List String) :
    identifiers (withCommas (names.map fun name => [identifier name])) = names := by
  induction names with
  | nil => rfl
  | cons name names ih =>
    cases names with
    | nil => rfl
    | cons next names =>
      have hcomma : ∀ ts, identifiers (symbol ',' :: ts) = identifiers ts := fun _ => rfl
      rw [List.map_cons] at ih
      rw [List.map_cons, List.map_cons, withCommas_cons_cons, identifiers_append, hcomma, ih]
      rfl

/-- A call on words names the macro and the words. -/
theorem identifiers_callTokens (name : String) (args : List String) :
    identifiers (callTokens name (args.map fun a => [identifier a])) = name :: args := by
  have hcall : identifiers (callTokens name (args.map fun a => [identifier a])) =
      name :: identifiers (withCommas (args.map fun a => [identifier a]) ++ [symbol ')']) := rfl
  rw [hcall, identifiers_append, identifiers_withCommas]
  exact congrArg _ (List.append_nil args)

theorem ofString_open : ofString "(" = [symbol '('] := by
  simp [ofString, ofChars, isBlank, beginsIdentifier]

theorem ofString_close : ofString ")" = [symbol ')'] := by
  simp [ofString, ofChars, isBlank, beginsIdentifier]

/-- The tokens of a listing are those of its items. -/
theorem ofString_listing (xs : List String) :
    ofString (Macro.listing xs) = withCommas (xs.map ofString) := by
  have hcomma : ofString ", " = [symbol ','] := by
    simp [ofString, ofChars, isBlank, beginsIdentifier]
  induction xs with
  | nil => exact ofChars_nil
  | cons x xs ih =>
    cases xs with
    | nil => simp [Macro.listing, withCommas]
    | cons y ys =>
      have h : Macro.listing (x :: y :: ys) = x ++ ", " ++ Macro.listing (y :: ys) := by
        simp [Macro.listing, String.intercalate_cons_cons]
      rw [h, ofString_cut (by decide), ih, hcomma, List.map_cons, List.map_cons, List.map_cons,
        withCommas_cons_cons, List.append_assoc]
      rfl

theorem ofString_call {name : String} (h : IsIdentifier name) (args : List String) :
    ofString (Macro.call name args) = callTokens name (args.map ofString) := by
  unfold Macro.call
  rw [ofString_append (by decide), ofString_cut (by decide), ofString_listing,
    ofString_of_isIdentifier h, ofString_open, ofString_close, callTokens]
  rfl

/-! ## Bindings -/

theorem replaceToken_eq {binding : List (String × List Token)} {p : String} {a : List Token}
    (h : binding.lookup p = some a) : replaceToken binding (identifier p) = a := by
  simp only [replaceToken, h]

theorem lookup_zip_of_mem {ps : List String} (hnd : ps.Nodup) {as : List (List Token)} {p : String}
    {a : List Token} (hm : (p, a) ∈ ps.zip as) : (ps.zip as).lookup p = some a := by
  induction ps generalizing as with
  | nil => cases hm
  | cons q qs ih =>
    cases as with
    | nil => cases hm
    | cons b bs =>
      rw [List.nodup_cons] at hnd
      rw [List.zip_cons_cons] at hm ⊢
      rcases List.mem_cons.1 hm with hm | hm
      · cases hm
        exact List.lookup_cons_self
      · have hne : p ≠ q := fun e => hnd.1 (e ▸ (List.of_mem_zip hm).1)
        rw [List.lookup_cons, beq_eq_false_iff_ne.2 hne]
        exact ih hnd.2 hm

/-- Different parameters stand for the arguments at their places. -/
theorem forall₂_replaceToken {ps : List String} {as : List (List Token)}
    (hlen : ps.length = as.length) (hnd : ps.Nodup) :
    List.Forall₂ (fun p a => replaceToken (ps.zip as) (identifier p) = a) ps as :=
  List.forall₂_iff_zip.2 ⟨hlen, fun hm => replaceToken_eq (lookup_zip_of_mem hnd hm)⟩

theorem forall₂_concat {α β : Type} {R : α → β → Prop} {ps : List α} {as : List β} {q : α} {a : β}
    (hlen : ps.length = as.length) (h : List.Forall₂ R (ps ++ [q]) (as ++ [a])) :
    List.Forall₂ R ps as ∧ R q a := by
  rw [List.forall₂_iff_zip, List.zip_append hlen] at h
  exact ⟨List.forall₂_iff_zip.2 ⟨hlen, fun hm => h.2 (List.mem_append_left _ hm)⟩,
    h.2 (List.mem_append_right _ List.mem_cons_self)⟩

theorem map_flatMap_identifier {f : Token → List Token} {ps : List String}
    {as : List (List Token)} (h : List.Forall₂ (fun p a => f (identifier p) = a) ps as) :
    (ps.map fun p => [identifier p]).map (·.flatMap f) = as := by
  induction h with
  | nil => rfl
  | cons hp _ ih =>
    rw [List.map_cons, List.map_cons, ih, List.flatMap_singleton, hp]

theorem lookup_zip_eq_none {q : String} {ps : List String} (hq : q ∉ ps)
    (as : List (List Token)) : (ps.zip as).lookup q = none := by
  rw [List.lookup_eq_none_iff]
  intro x hx
  have hne : q ≠ x.1 := fun e => hq (e ▸ (List.of_mem_zip hx).1)
  simpa using hne

/-- Tokens in which no parameter occurs stand for themselves. -/
theorem flatMap_replaceToken_self {binding : List (String × List Token)} {ts : List Token}
    (h : ∀ name, identifier name ∈ ts → binding.lookup name = none) :
    ts.flatMap (replaceToken binding) = ts := by
  induction ts with
  | nil => rfl
  | cons t ts ih =>
    rw [List.flatMap_cons, ih fun name hname => h name (List.mem_cons_of_mem t hname)]
    cases t with
    | identifier name =>
      simp only [replaceToken, h name List.mem_cons_self]
      rfl
    | number _ => rfl
    | symbol _ => rfl

end FieldMacros.Preprocessor
