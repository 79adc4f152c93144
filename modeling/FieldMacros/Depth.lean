/-!
# Nesting depth

A `Depth` is the number of fields that a variant of the macro family steps
through; it is at least one. `levels d` lists the depths up to `d`, and
`window` is a slice of that list that never builds the list.
-/

namespace FieldMacros

/-- A nesting depth, at least one. -/
structure Depth where
  level : Nat
  level_pos : 0 < level
  deriving DecidableEq

namespace Depth

instance : LE Depth := ⟨fun a b => a.level ≤ b.level⟩
instance : LT Depth := ⟨fun a b => a.level < b.level⟩
instance (a b : Depth) : Decidable (a ≤ b) := inferInstanceAs (Decidable (a.level ≤ b.level))
instance (a b : Depth) : Decidable (a < b) := inferInstanceAs (Decidable (a.level < b.level))
instance : Max Depth := maxOfLe
instance : Min Depth := minOfLe
instance : Ord Depth := ⟨fun a b => compare a.level b.level⟩

theorem level_injective {a b : Depth} (h : a.level = b.level) : a = b := by
  cases a; cases b; simp_all

/-- How deep a document can nest. -/
def documentLimit : Nat := 100

def ofNat? (n : Nat) : Option Depth :=
  if h : 0 < n then some ⟨n, h⟩ else none

def ofInt? (z : Int) : Option Depth :=
  ofNat? z.toNat

theorem ofNat?_level (d : Depth) : ofNat? d.level = some d := by
  simp [ofNat?, d.level_pos]

theorem ofInt?_eq_none_iff {z : Int} : ofInt? z = none ↔ z ≤ 0 := by
  simp only [ofInt?, ofNat?, dite_eq_right_iff, reduceCtorEq, imp_false]
  omega

theorem ofInt?_eq_some_iff {z : Int} {d : Depth} : ofInt? z = some d ↔ z = d.level := by
  have hd := d.level_pos
  simp only [ofInt?, ofNat?]
  split
  · rw [Option.some.injEq]
    constructor
    · rintro rfl
      simp only
      omega
    · intro h
      apply level_injective
      simp only
      omega
  · simp only [reduceCtorEq, false_iff]
    omega

/-- The default depth is the deepest that a document can reach. -/
instance : Inhabited Depth := ⟨⟨documentLimit, by decide⟩⟩

def one : Depth := ⟨1, by decide⟩

/-- The depth one level up; depth one has none. -/
def parent? (d : Depth) : Option Depth :=
  ofNat? (d.level - 1)

def exceedsLimit (d : Depth) : Bool :=
  d.level > documentLimit

/-- The depth `i` levels below the first. -/
def nth (i : Nat) : Depth := ⟨i + 1, Nat.succ_pos i⟩

/-- The depths from one to `d`. -/
def levels (d : Depth) : List Depth :=
  (List.range d.level).map nth

@[simp]
theorem length_levels (d : Depth) : d.levels.length = d.level := by
  simp [levels]

/-- The levels after the first `skip`, at most `take` of them. -/
def window (d : Depth) (skip take : Nat) : List Depth :=
  (List.range (min take (d.level - skip))).map fun i => nth (skip + i)

theorem window_eq (d : Depth) (skip take : Nat) :
    d.window skip take = (d.levels.drop skip).take take := by
  apply List.ext_getElem
  · simp [window]
  · intro i h₁ h₂
    simp [window, levels]

theorem levels_nth_zero : (nth 0).levels = [nth 0] := rfl

theorem levels_nth_succ (i : Nat) : (nth (i + 1)).levels = (nth i).levels ++ [nth (i + 1)] := by
  simp [levels, nth, List.range_succ]

theorem exists_eq_nth (d : Depth) : ∃ i, d = nth i := by
  have := d.level_pos
  exact ⟨d.level - 1, level_injective (by simp only [nth]; omega)⟩

theorem parent?_nth_zero : (nth 0).parent? = none := rfl

theorem parent?_nth_succ (i : Nat) : (nth (i + 1)).parent? = some (nth i) := rfl

end Depth

end FieldMacros
