import FieldMacros.Preprocessor.Directive

/-!
# Macro expansion

A call of a function-like macro is replaced by the macro's body, in which every
parameter stands for its argument and `__VA_ARGS__` for the arguments after the
parameters. Arguments are expanded first, and the result is read again together
with what follows the call. Expansion is given fuel and ends without a result
when that is spent; more fuel never changes a result.
-/

namespace FieldMacros.Preprocessor

/-- The tokens up to the next comma or closing parenthesis outside of inner parentheses, the
token that ended them and the rest. -/
def argument : Nat → List Token → Option (List Token × Char × List Token)
  | _, [] => none
  | depth, .symbol '(' :: ts => (argument (depth + 1) ts).map fun (a, r) => (.symbol '(' :: a, r)
  | 0, .symbol ')' :: ts => some ([], ')', ts)
  | depth + 1, .symbol ')' :: ts => (argument depth ts).map fun (a, r) => (.symbol ')' :: a, r)
  | 0, .symbol ',' :: ts => some ([], ',', ts)
  | depth, t :: ts => (argument depth ts).map fun (a, r) => (t :: a, r)

theorem argument_length {depth : Nat} {ts a rest : List Token} {c : Char}
    (h : argument depth ts = some (a, c, rest)) : rest.length < ts.length := by
  fun_induction argument depth ts generalizing a c rest with
  | case1 => simp at h
  | case3 => simp_all
  | case5 => simp_all
  | _ =>
    rename_i ih
    obtain ⟨⟨a', c', r'⟩, h', heq⟩ := Option.map_eq_some_iff.1 h
    simp only [Prod.mk.injEq] at heq
    obtain ⟨-, rfl, rfl⟩ := heq
    have := ih h'
    simp only [List.length_cons]
    omega

/-- The arguments of a call whose opening parenthesis has been read, and what follows it. -/
def arguments (ts : List Token) : Option (List (List Token) × List Token) :=
  match _h : argument 0 ts with
  | none => none
  | some (a, ')', rest) => some ([a], rest)
  | some (a, _, rest) => (arguments rest).map fun (as, r) => (a :: as, r)
termination_by ts.length
decreasing_by exact argument_length (by assumption)

def withCommas (args : List (List Token)) : List Token :=
  [.symbol ','].intercalate args

/-- What the parameters of a macro stand for in a call with the given arguments. A macro without
parameters is called with one empty argument, and a variadic one needs an argument beyond its
parameters. -/
def bind? (m : Macro) (args : List (List Token)) : Option (List (String × List Token)) :=
  if m.variadic then
    if m.params.length < args.length then
      some (m.params.zip args ++ [("__VA_ARGS__", withCommas (args.drop m.params.length))])
    else none
  else if m.params = [] ∧ args = [[]] then some []
  else if m.params.length = args.length then some (m.params.zip args)
  else none

def replaceToken (binding : List (String × List Token)) : Token → List Token
  | .identifier name =>
    match binding.lookup name with
    | some ts => ts
    | none => [.identifier name]
  | t => [t]

/-- The body of a macro with every parameter replaced at once. -/
def substitute (m : Macro) (binding : List (String × List Token)) : List Token :=
  (Token.ofString m.body).flatMap (replaceToken binding)

/-- The macro that is called where a token is followed by the given ones, with the call's
arguments and what comes behind it. A name without a parenthesis behind it is no call. -/
def call? (ms : List Macro) : Token → List Token → Option (Macro × List (List Token) × List Token)
  | .identifier name, .symbol '(' :: ts =>
    match ms.find? (·.name = name), arguments ts with
    | some m, some (args, rest) => some (m, args, rest)
    | _, _ => none
  | _, _ => none

/-- Expands every call. Without a result when the fuel is spent or a call does not fit its
macro. -/
def expand (ms : List Macro) : Nat → List Token → Option (List Token)
  | 0, _ => none
  | _ + 1, [] => some []
  | fuel + 1, t :: ts =>
    match call? ms t ts with
    | none => (expand ms fuel ts).map (t :: ·)
    | some (m, args, rest) => do
      let expanded ← args.mapM (expand ms fuel)
      let binding ← bind? m expanded
      expand ms fuel (substitute m binding ++ rest)

/-- The tokens that a text with calls of the macros that another text defines expands to. -/
def ExpandsTo (definitions call : String) (result : List Token) : Prop :=
  ∃ fuel, expand (Macro.readAll definitions) fuel (Token.ofString call) = some result

end FieldMacros.Preprocessor
