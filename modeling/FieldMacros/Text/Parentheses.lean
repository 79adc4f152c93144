/-!
# Parentheses in a text

A text is read by its parentheses alone: how many of them are open behind it,
what its first pair encloses, and what comes after that.
-/

namespace FieldMacros.Text

/-- How many parentheses are open behind a character; one that is not open cannot be closed. -/
def openBehind? (opened : Nat) (c : Char) : Option Nat :=
  if c = '(' then some (opened + 1)
  else if c = ')' then
    if opened = 0 then none else some (opened - 1)
  else some opened

/-- Behind the text `n` parentheses are open if `m` are in front of it. -/
def Nests (m : Nat) (s : String) (n : Nat) : Prop :=
  s.toList.foldlM openBehind? m = some n

instance (m : Nat) (s : String) (n : Nat) : Decidable (Nests m s n) :=
  inferInstanceAs (Decidable (_ = _))

/-- Every parenthesis is closed, and none is before it is opened. -/
def Balanced (s : String) : Prop :=
  Nests 0 s 0

theorem Nests.append {k m n : Nat} {s t : String} (hs : Nests k s m) (ht : Nests m t n) :
    Nests k (s ++ t) n := by
  unfold Nests at hs ht ⊢
  rw [String.toList_append, List.foldlM_append, hs]
  exact ht

theorem nests_open (n : Nat) : Nests n "(" (n + 1) := rfl

theorem nests_close (n : Nat) : Nests (n + 1) ")" n := rfl

/-- A text without parentheses leaves open what is open. -/
theorem nests_of_not_mem {s : String} (hopen : '(' ∉ s.toList) (hclose : ')' ∉ s.toList) (n : Nat) :
    Nests n s n := by
  unfold Nests
  generalize s.toList = cs at hopen hclose
  induction cs with
  | nil => rfl
  | cons c cs ih =>
    rw [List.mem_cons, not_or] at hopen hclose
    have hstep : openBehind? n c = some n := by
      rw [openBehind?, if_neg (Ne.symm hopen.1), if_neg (Ne.symm hclose.1)]
    rw [List.foldlM_cons, hstep]
    exact ih hopen.2 hclose.2

/-- The text between the first opening parenthesis and the first closing one. -/
def enclosed (s : String) : String :=
  String.ofList (((s.toList.takeWhile (· != ')')).dropWhile (· != '(')).drop 1)

def afterEnclosed (s : String) : String :=
  String.ofList ((s.toList.dropWhile (· != ')')).drop 1)

section Enclosed

variable {s : String} {front inside back : List Char}
  (hs : s.toList = front ++ '(' :: (inside ++ ')' :: back)) (hclose : ')' ∉ front ++ '(' :: inside)

include hs hclose

theorem cut_at_close :
    s.toList.takeWhile (· != ')') = front ++ '(' :: inside ∧
      s.toList.dropWhile (· != ')') = ')' :: back := by
  have hkeep : ∀ c ∈ front ++ '(' :: inside, (c != ')') = true := fun c hc =>
    bne_iff_ne.2 fun e => hclose (e ▸ hc)
  have hsplit : s.toList = (front ++ '(' :: inside) ++ ')' :: back := by
    rw [hs, List.append_assoc, List.cons_append]
  rw [hsplit, List.takeWhile_append_of_pos hkeep, List.dropWhile_append_of_pos hkeep]
  simp

theorem enclosed_eq (hopen : '(' ∉ front) : enclosed s = String.ofList inside := by
  have hkeep : ∀ c ∈ front, (c != '(') = true := fun c hc =>
    bne_iff_ne.2 fun e => hopen (e ▸ hc)
  rw [enclosed, (cut_at_close hs hclose).1, List.dropWhile_append_of_pos hkeep]
  rfl

theorem afterEnclosed_eq : afterEnclosed s = String.ofList back := by
  rw [afterEnclosed, (cut_at_close hs hclose).2]
  rfl

end Enclosed

end FieldMacros.Text
