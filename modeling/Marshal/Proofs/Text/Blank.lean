import Mathlib.Data.List.DropRight
import Marshal.Text.Blank

/-!
Texts in which trimming finds nothing to take off.
-/

namespace Marshal.Text

def Solid (cs : List Char) : Prop :=
  ∀ c ∈ cs, isBlank c = false

instance (cs : List Char) : Decidable (Solid cs) :=
  List.decidableBAll (fun c => isBlank c = false) cs

@[simp] theorem solid_nil : Solid [] := by
  simp [Solid]

@[simp] theorem solid_cons {c : Char} {cs : List Char} :
    Solid (c :: cs) ↔ isBlank c = false ∧ Solid cs := by
  simp [Solid]

@[simp] theorem solid_append {a b : List Char} : Solid (a ++ b) ↔ Solid a ∧ Solid b := by
  simp [Solid, or_imp, forall_and]

theorem isDigit_iff {c : Char} : c.isDigit = true ↔ 48 ≤ c.toNat ∧ c.toNat ≤ 57 := by
  simp only [Char.isDigit, Bool.and_eq_true, decide_eq_true_eq, ge_iff_le,
    UInt32.le_iff_toNat_le]
  exact Iff.rfl

theorem isBlank_of_isDigit {c : Char} (h : c.isDigit = true) : isBlank c = false := by
  have hc := isDigit_iff.mp h
  simp only [isBlank, Bool.or_eq_false_iff, Bool.and_eq_false_iff, beq_eq_false_iff_ne,
    decide_eq_false_iff_not]
  omega

theorem solid_of_isDigit {cs : List Char} (h : ∀ c ∈ cs, c.isDigit = true) : Solid cs :=
  fun c hc => isBlank_of_isDigit (h c hc)

/-! ### Trimmed texts -/

theorem mem_of_mem_trimChars {c : Char} {cs : List Char} (h : c ∈ trimChars cs) : c ∈ cs := by
  have hdrop := List.mem_reverse.mp h
  have hstart := (List.dropWhile_sublist isBlank).subset hdrop
  exact (List.dropWhile_sublist isBlank).subset (List.mem_reverse.mp hstart)

/-- A text that does not start with a blank still does not when its end is trimmed. -/
theorem dropWhile_dropBlanksEnd {cs : List Char} (h : cs.dropWhile isBlank = cs) :
    (dropBlanksEnd cs).dropWhile isBlank = dropBlanksEnd cs := by
  have hkept : dropBlanksEnd cs <+: cs := List.rdropWhile_prefix isBlank cs
  rw [List.dropWhile_eq_self_iff] at h ⊢
  intro hpos
  rw [hkept.getElem hpos]
  exact h (hpos.trans_le hkept.length_le)

theorem trimChars_idem (cs : List Char) : trimChars (trimChars cs) = trimChars cs := by
  have hstart : (trimChars cs).dropWhile isBlank = trimChars cs :=
    dropWhile_dropBlanksEnd (List.dropWhile_idempotent isBlank cs)
  have hend : dropBlanksEnd (trimChars cs) = trimChars cs :=
    List.rdropWhile_idempotent isBlank (cs.dropWhile isBlank)
  rw [trimChars, hstart, hend]

theorem trimChars_of_solid {cs : List Char} (h : Solid cs) : trimChars cs = cs := by
  have hdrop {l : List Char} (hl : Solid l) : l.dropWhile isBlank = l := by
    cases l with
    | nil => rfl
    | cons c l => rw [List.dropWhile_cons_of_neg (by simp [(solid_cons.mp hl).1])]
  have hrev : Solid cs.reverse := fun c hc => h c (List.mem_reverse.mp hc)
  rw [trimChars, dropBlanksEnd, hdrop h, hdrop hrev, List.reverse_reverse]

/-! ### Blanks around a text -/

theorem trimChars_blanks_append {l : List Char} (h : ∀ c ∈ l, isBlank c = true) (cs : List Char) :
    trimChars (l ++ cs) = trimChars cs := by
  rw [trimChars, List.dropWhile_append_of_pos h, trimChars]

theorem dropBlanksEnd_append_blanks {r : List Char} (h : ∀ c ∈ r, isBlank c = true)
    (cs : List Char) : dropBlanksEnd (cs ++ r) = dropBlanksEnd cs := by
  rw [dropBlanksEnd, List.reverse_append,
    List.dropWhile_append_of_pos fun c hc => h c (List.mem_reverse.mp hc), dropBlanksEnd]

theorem trimChars_append_blanks {r : List Char} (h : ∀ c ∈ r, isBlank c = true) (cs : List Char) :
    trimChars (cs ++ r) = trimChars cs := by
  rw [trimChars, List.dropWhile_append, trimChars]
  split
  · rename_i hcs
    rw [List.isEmpty_iff.mp hcs, List.dropWhile_eq_nil_iff.mpr h]
  · exact dropBlanksEnd_append_blanks h _

/-- Only blanks are trimmed off. -/
theorem exists_blanks (cs : List Char) : ∃ l r, (∀ c ∈ l, isBlank c = true) ∧
    (∀ c ∈ r, isBlank c = true) ∧ cs = l ++ (trimChars cs ++ r) := by
  have hstart := List.takeWhile_append_dropWhile (p := isBlank) (l := cs)
  have hend := List.takeWhile_append_dropWhile (p := isBlank) (l := (cs.dropWhile isBlank).reverse)
  refine ⟨cs.takeWhile isBlank, ((cs.dropWhile isBlank).reverse.takeWhile isBlank).reverse,
    fun _ => List.mem_takeWhile_imp,
    fun c hc => List.mem_takeWhile_imp (List.mem_reverse.mp hc), ?_⟩
  rw [trimChars, dropBlanksEnd, ← List.reverse_append, hend, List.reverse_reverse, hstart]

theorem trim_ofList_of_solid {cs : List Char} (h : Solid cs) :
    trim (String.ofList cs) = String.ofList cs := by
  rw [trim, String.toList_ofList, trimChars_of_solid h]

end Marshal.Text
