import Marshal.Proofs.Text.Blank
import Marshal.Proofs.Text.Split

/-!
The words of a text: the pieces between the occurrences of a character, without the blanks around
them and without those that are nothing else. The character may be a blank itself.
-/

namespace Marshal.Text

theorem isEmpty_ofList (cs : List Char) : (String.ofList cs).isEmpty = cs.isEmpty := by
  cases cs <;> simp

def words (d : Char) (cs : List Char) : List (List Char) :=
  ((splitOn d cs).map trimChars).filter (!·.isEmpty)

theorem words_append (d : Char) (a b : List Char) :
    words d (a ++ d :: b) = words d a ++ words d b := by
  rw [words, splitOn_append, List.map_append, List.filter_append, words, words]

@[simp] theorem words_nil (d : Char) : words d [] = [] := rfl

theorem words_of_not_mem {d : Char} {cs : List Char} (h : d ∉ cs) :
    words d cs = [trimChars cs].filter (!·.isEmpty) := by
  rw [words, splitOn_of_not_mem h, List.map_singleton]

/-- The words of pieces that have the character between them. -/
theorem words_intercalate {d : Char} {pieces : List (List Char)} (h : ∀ p ∈ pieces, d ∉ p) :
    words d ([d].intercalate pieces) = (pieces.map trimChars).filter (!·.isEmpty) := by
  cases pieces with
  | nil => rfl
  | cons p pieces => rw [words, splitOn_intercalate (List.cons_ne_nil p pieces) h]

/-! ### Blanks around a text -/

theorem words_cons_blank (d : Char) {c : Char} (hc : isBlank c = true) (cs : List Char) :
    words d (c :: cs) = words d cs := by
  by_cases hd : c = d
  · rw [hd]
    exact words_append d [] cs
  · obtain ⟨p, ps, hp⟩ := List.exists_cons_of_ne_nil (splitOn_ne_nil d cs)
    have htrim : trimChars (c :: p) = trimChars p :=
      trimChars_blanks_append (l := [c]) (by simpa using hc) p
    rw [words, words, splitOn, if_neg hd, hp, List.map_cons, List.map_cons, htrim]

/-- The blank is part of the last piece, or stands behind it. -/
theorem words_append_blank (d : Char) {c : Char} (hc : isBlank c = true) (cs : List Char) :
    words d (cs ++ [c]) = words d cs := by
  have htrim (p : List Char) : trimChars (p ++ [c]) = trimChars p :=
    trimChars_append_blanks (by simpa using hc) p
  by_cases hd : c = d
  · rw [hd, words_append, words_nil, List.append_nil]
  · have hlast (p : List Char) (hp : d ∉ p) : words d (p ++ [c]) = words d p := by
      have hpc : d ∉ p ++ [c] := by simpa [Ne.symm hd] using hp
      rw [words_of_not_mem hpc, words_of_not_mem hp, htrim]
    cases hcut : cutLast d cs with
    | none => exact hlast cs (cutLast_eq_none_iff.mp hcut)
    | some ends =>
        obtain ⟨hcs, hp⟩ := eq_append_of_cutLast hcut
        rw [hcs, List.append_assoc, List.cons_append, words_append, words_append, hlast _ hp]

theorem words_blanks_append (d : Char) {l : List Char} (h : ∀ c ∈ l, isBlank c = true)
    (cs : List Char) : words d (l ++ cs) = words d cs := by
  induction l with
  | nil => rfl
  | cons c l ih =>
      obtain ⟨hc, hl⟩ := List.forall_mem_cons.mp h
      rw [List.cons_append, words_cons_blank d hc, ih hl]

theorem words_append_blanks (d : Char) {r : List Char} (h : ∀ c ∈ r, isBlank c = true)
    (cs : List Char) : words d (cs ++ r) = words d cs := by
  induction r generalizing cs with
  | nil => rw [List.append_nil]
  | cons c r ih =>
      obtain ⟨hc, hr⟩ := List.forall_mem_cons.mp h
      rw [← List.singleton_append, ← List.append_assoc, ih hr, words_append_blank d hc]

/-- Trimming a text loses no word of it. -/
theorem words_trimChars (d : Char) (cs : List Char) : words d (trimChars cs) = words d cs := by
  obtain ⟨l, r, hl, hr, hcs⟩ := exists_blanks cs
  conv_rhs => rw [hcs, words_blanks_append d hl, words_append_blanks d hr]

end Marshal.Text
