import FieldMacros.Text.Bytes

/-!
# File trees

A tree holds files, directories and symbolic links under their locations, and
the program runs in its root. Outside of the tree there is nothing to be reached,
but the root may have a long path of its own there. Nothing requires that an
entry's parent is a directory of the tree; a path only leads through
directories.
-/

namespace FieldMacros

/-- The names from the root down to an entry. -/
abbrev Location := List Bytes

-- Contents are compared by core's instance, whatever else is imported.
instance decidableEqContent : DecidableEq ByteArray :=
  ByteArray.instDecidableEq

/-- What a location holds. -/
inductive Entry where
  | file (mode : Nat) (content : ByteArray)
  | directory (mode : Nat)
  | link (target : Bytes)
  deriving DecidableEq

def Entry.mode? : Entry → Option Nat
  | file mode _ => some mode
  | directory mode => some mode
  | link _ => none

def Entry.targetLength : Entry → Nat
  | link target => target.length
  | _ => 0

def Entry.withMode (mode : Nat) : Entry → Entry
  | file _ content => file mode content
  | directory _ => directory mode
  | link target => link target

structure FileTree where
  rootMode : Nat
  /-- The length of the root's own path without a slash at its end. It is zero if the tree is the
  whole file system. -/
  rootLength : Nat
  entries : List (Location × Entry)
  deriving DecidableEq

namespace FileTree

/-- A root without entries. Unless it is said otherwise, its path is that of a directory made for the
program, `/tmp/.tmpXXXXXX`. -/
def empty (rootMode : Nat) (rootLength : Nat := 15) : FileTree := ⟨rootMode, rootLength, []⟩

def lookup (l : Location) : List (Location × Entry) → Option Entry
  | [] => none
  | (k, e) :: rest => if k = l then some e else lookup l rest

/-- Puts an entry in the place of the one under the same location, or behind all others. -/
def assign (l : Location) (e : Entry) : List (Location × Entry) → List (Location × Entry)
  | [] => [(l, e)]
  | (k, old) :: rest => if k = l then (l, e) :: rest else (k, old) :: assign l e rest

/-- The entry at a location. -/
def get? (t : FileTree) (l : Location) : Option Entry :=
  if l = [] then some (.directory t.rootMode) else lookup l t.entries

def insert (t : FileTree) (l : Location) (e : Entry) : FileTree :=
  { t with entries := assign l e t.entries }

def erase (t : FileTree) (l : Location) : FileTree :=
  { t with entries := t.entries.filter fun p => p.1 ≠ l }

theorem lookup_assign (l k : Location) (e : Entry) (es : List (Location × Entry)) :
    lookup k (assign l e es) = if k = l then some e else lookup k es := by
  induction es with
  | nil => simp [assign, lookup, eq_comm]
  | cons p es ih =>
    obtain ⟨m, old⟩ := p
    by_cases hm : m = l
    · subst hm
      by_cases hk : k = m <;> simp [assign, lookup, hk, eq_comm]
    · by_cases hk : m = k
      · subst hk
        simp [assign, lookup, hm]
      · simp [assign, lookup, hm, hk, ih]

theorem lookup_filter_ne (l k : Location) (es : List (Location × Entry)) :
    lookup k (es.filter fun p => p.1 ≠ l) = if k = l then none else lookup k es := by
  induction es with
  | nil => simp [lookup]
  | cons p es ih =>
    obtain ⟨m, e⟩ := p
    by_cases hm : m = l
    · subst hm
      by_cases hk : k = m
      · simp_all
      · have : m ≠ k := fun h => hk h.symm
        simp_all [lookup]
    · by_cases hk : m = k
      · subst hk
        simp [lookup, hm]
      · simp_all [lookup]

theorem assign_assign (l : Location) (e e' : Entry) (es : List (Location × Entry)) :
    assign l e' (assign l e es) = assign l e' es := by
  induction es with
  | nil => simp [assign]
  | cons p es ih =>
    by_cases hp : p.1 = l <;> simp [assign, hp, ih]

theorem filter_assign {l : Location} (e : Entry) {es : List (Location × Entry)}
    (h : ∀ p ∈ es, p.1 ≠ l) : ((assign l e es).filter fun p => p.1 ≠ l) = es := by
  induction es with
  | nil => simp [assign]
  | cons p es ih =>
    have hp := h p List.mem_cons_self
    have hrest := ih fun q hq => h q (List.mem_cons_of_mem p hq)
    simp only [assign, if_neg hp]
    rw [List.filter_cons_of_pos (by simpa using hp), hrest]

theorem mem_of_lookup {l : Location} {e : Entry} {es : List (Location × Entry)}
    (h : lookup l es = some e) : (l, e) ∈ es := by
  induction es with
  | nil => cases h
  | cons p es ih =>
    simp only [lookup] at h
    split at h
    · next hp =>
      cases h
      exact hp ▸ List.mem_cons_self
    · exact List.mem_cons_of_mem p (ih h)

theorem get?_insert {l : Location} (hl : l ≠ []) (t : FileTree) (k : Location) (e : Entry) :
    (t.insert l e).get? k = if k = l then some e else t.get? k := by
  by_cases hk : k = []
  · subst hk
    simp [get?, insert, Ne.symm hl]
  · simp [get?, insert, hk, lookup_assign]

theorem get?_erase {l : Location} (hl : l ≠ []) (t : FileTree) (k : Location) :
    (t.erase l).get? k = if k = l then none else t.get? k := by
  by_cases hk : k = []
  · subst hk
    simp [get?, erase, Ne.symm hl]
  · simpa [get?, erase, hk] using lookup_filter_ne l k t.entries

@[simp]
theorem get?_root (t : FileTree) : t.get? [] = some (.directory t.rootMode) := rfl

theorem insert_insert (t : FileTree) (l : Location) (e e' : Entry) :
    (t.insert l e).insert l e' = t.insert l e' := by
  simp [insert, assign_assign]

/-- Removing an entry that was not there before leaves the tree of before. -/
theorem erase_insert {t : FileTree} {l : Location} (h : ∀ p ∈ t.entries, p.1 ≠ l) (e : Entry) :
    (t.insert l e).erase l = t := by
  simp only [insert, erase, filter_assign e h]

theorem mem_of_get? {t : FileTree} {l : Location} {e : Entry} (hl : l ≠ [])
    (h : t.get? l = some e) : (l, e) ∈ t.entries := by
  rw [get?, if_neg hl] at h
  exact mem_of_lookup h

end FileTree

end FieldMacros
