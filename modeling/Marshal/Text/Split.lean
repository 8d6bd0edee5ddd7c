/-!
Cutting a text at a character: at every occurrence, at the first or at the last.
-/

namespace Marshal.Text

/-- The pieces between the occurrences of `d`, one more than there are occurrences. -/
def splitOn (d : Char) : List Char → List (List Char)
  | [] => [[]]
  | c :: cs =>
    if c = d then [] :: splitOn d cs
    else match splitOn d cs with
      | [] => [[c]]
      | p :: ps => (c :: p) :: ps

/-- What stands before and after the first occurrence of `d`. -/
def cut (d : Char) : List Char → Option (List Char × List Char)
  | [] => none
  | c :: cs => if c = d then some ([], cs) else (cut d cs).map fun (a, b) => (c :: a, b)

/-- What stands before and after the last occurrence of `d`. -/
def cutLast (d : Char) : List Char → Option (List Char × List Char)
  | [] => none
  | c :: cs =>
    match cutLast d cs with
    | some (a, b) => some (c :: a, b)
    | none => if c = d then some ([], cs) else none

/-- What stands before the first occurrence of `d`, or all of it. -/
def upTo (d : Char) (cs : List Char) : List Char :=
  cs.takeWhile (· != d)

theorem splitOn_ne_nil (d : Char) (cs : List Char) : splitOn d cs ≠ [] := by
  cases cs with
  | nil => simp [splitOn]
  | cons c cs =>
    rw [splitOn]
    split
    · simp
    · split <;> simp

theorem eq_append_of_cut {d : Char} {cs a b : List Char} (h : cut d cs = some (a, b)) :
    cs = a ++ d :: b := by
  induction cs generalizing a with
  | nil => simp [cut] at h
  | cons c cs ih =>
    rw [cut] at h
    split at h
    · simp_all
    · simp only [Option.map_eq_some_iff, Prod.mk.injEq, Prod.exists] at h
      obtain ⟨a', b', hc, rfl, rfl⟩ := h
      simp [ih hc]

theorem splitOn_of_not_mem {d : Char} {cs : List Char} (h : d ∉ cs) : splitOn d cs = [cs] := by
  induction cs with
  | nil => rfl
  | cons c cs ih =>
    simp only [List.mem_cons, not_or] at h
    simp [splitOn, Ne.symm h.1, ih h.2]

theorem splitOn_append_cons (d : Char) {a : List Char} (h : d ∉ a) (cs : List Char) :
    splitOn d (a ++ d :: cs) = a :: splitOn d cs := by
  induction a with
  | nil => simp [splitOn]
  | cons c a ih =>
    simp only [List.mem_cons, not_or] at h
    simp [splitOn, Ne.symm h.1, ih h.2]

end Marshal.Text
