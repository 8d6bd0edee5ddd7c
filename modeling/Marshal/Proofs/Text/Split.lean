import Marshal.Text.Split

/-!
What is found where a text is cut: no piece between the occurrences, nothing before the first and
nothing after the last has the character that was cut at.
-/

namespace Marshal.Text

/-- Pieces without the character are found again where it was put between them. -/
theorem splitOn_intercalate {d : Char} {pieces : List (List Char)} (hne : pieces ≠ [])
    (h : ∀ p ∈ pieces, d ∉ p) : splitOn d ([d].intercalate pieces) = pieces := by
  induction pieces with
  | nil => exact absurd rfl hne
  | cons p pieces ih =>
      obtain ⟨hp, hpieces⟩ := List.forall_mem_cons.mp h
      cases pieces with
      | nil =>
          rw [List.intercalate_singleton]
          exact splitOn_of_not_mem hp
      | cons q pieces =>
          rw [List.intercalate_cons_cons, List.append_assoc, List.singleton_append,
            splitOn_append_cons d hp, ih (List.cons_ne_nil q pieces) hpieces]

/-- The pieces of two texts, where the character stands between them. -/
theorem splitOn_append (d : Char) (a b : List Char) :
    splitOn d (a ++ d :: b) = splitOn d a ++ splitOn d b := by
  induction a with
  | nil => exact splitOn_append_cons d List.not_mem_nil b
  | cons c a ih =>
      rw [List.cons_append, splitOn, splitOn, ih]
      split
      · rw [List.cons_append]
      · obtain ⟨p, ps, hp⟩ := List.exists_cons_of_ne_nil (splitOn_ne_nil d a)
        rw [hp, List.cons_append, List.cons_append]

theorem not_mem_of_mem_splitOn {d : Char} {cs p : List Char} (h : p ∈ splitOn d cs) : d ∉ p := by
  induction cs generalizing p with
  | nil =>
      rw [List.mem_singleton.mp h]
      exact List.not_mem_nil
  | cons c cs ih =>
      rw [splitOn] at h
      split at h
      · rcases List.mem_cons.mp h with rfl | h
        · exact List.not_mem_nil
        · exact ih h
      · rename_i hc
        split at h
        · rw [List.mem_singleton.mp h]
          simpa using Ne.symm hc
        · rename_i q qs hsplit
          rcases List.mem_cons.mp h with rfl | h
          · have hq : d ∉ q := ih (by rw [hsplit]; exact List.mem_cons_self)
            simpa using ⟨Ne.symm hc, hq⟩
          · exact ih (by rw [hsplit]; exact List.mem_cons_of_mem q h)

theorem cut_append_cons {d : Char} {a : List Char} (h : d ∉ a) (b : List Char) :
    cut d (a ++ d :: b) = some (a, b) := by
  induction a with
  | nil => simp [cut]
  | cons c a ih =>
      simp only [List.mem_cons, not_or] at h
      simp [cut, Ne.symm h.1, ih h.2]

theorem not_mem_of_cut {d : Char} {cs a b : List Char} (h : cut d cs = some (a, b)) : d ∉ a := by
  induction cs generalizing a with
  | nil => simp [cut] at h
  | cons c cs ih =>
      rw [cut] at h
      split at h
      · obtain ⟨rfl, -⟩ : [] = a ∧ _ := by simpa using h
        exact List.not_mem_nil
      · rename_i hc
        simp only [Option.map_eq_some_iff, Prod.mk.injEq, Prod.exists] at h
        obtain ⟨a', b', hcut, rfl, rfl⟩ := h
        simpa using ⟨Ne.symm hc, ih hcut⟩

theorem cut_eq_some_iff {d : Char} {cs a b : List Char} :
    cut d cs = some (a, b) ↔ cs = a ++ d :: b ∧ d ∉ a := by
  constructor
  · intro h
    exact ⟨eq_append_of_cut h, not_mem_of_cut h⟩
  · rintro ⟨rfl, h⟩
    exact cut_append_cons h b

theorem cutLast_eq_none_iff {d : Char} {cs : List Char} : cutLast d cs = none ↔ d ∉ cs := by
  induction cs with
  | nil => simp [cutLast]
  | cons c cs ih =>
      rw [cutLast]
      cases h : cutLast d cs with
      | none =>
          have hcs := ih.mp h
          by_cases hc : c = d
          · simp [hc]
          · simp [hc, hcs, Ne.symm hc]
      | some p =>
          have hcs : d ∈ cs := Classical.not_not.mp fun hn => by
            rw [ih.mpr hn] at h
            cases h
          simp [hcs]

theorem cutLast_append_cons {d : Char} {b : List Char} (h : d ∉ b) (a : List Char) :
    cutLast d (a ++ d :: b) = some (a, b) := by
  induction a with
  | nil => simp [cutLast, cutLast_eq_none_iff.mpr h]
  | cons c a ih => simp [cutLast, ih]

theorem eq_append_of_cutLast {d : Char} {cs a b : List Char} (h : cutLast d cs = some (a, b)) :
    cs = a ++ d :: b ∧ d ∉ b := by
  induction cs generalizing a with
  | nil => simp [cutLast] at h
  | cons c cs ih =>
      rw [cutLast] at h
      cases hcut : cutLast d cs with
      | none =>
          simp only [hcut, Option.ite_none_right_eq_some, Option.some.injEq, Prod.mk.injEq] at h
          obtain ⟨rfl, rfl, rfl⟩ := h
          exact ⟨rfl, cutLast_eq_none_iff.mp hcut⟩
      | some p =>
          obtain ⟨a', b'⟩ := p
          simp only [hcut, Option.some.injEq, Prod.mk.injEq] at h
          obtain ⟨rfl, rfl⟩ := h
          obtain ⟨hcs, hb⟩ := ih hcut
          exact ⟨congrArg (c :: ·) hcs, hb⟩

theorem cutLast_eq_some_iff {d : Char} {cs a b : List Char} :
    cutLast d cs = some (a, b) ↔ cs = a ++ d :: b ∧ d ∉ b := by
  constructor
  · exact eq_append_of_cutLast
  · rintro ⟨rfl, h⟩
    exact cutLast_append_cons h a

end Marshal.Text
