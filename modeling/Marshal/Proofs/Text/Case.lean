import Marshal.Text.Case
import Marshal.Text.Blank

/-!
What letter case within ASCII does not decide: which characters are blanks, and what the lower case
of a text is over all of Unicode.
-/

namespace Marshal.Text

/-- What the letters of one case have in common can be checked one by one. -/
theorem of_letter {p : Char → Prop} {first : Nat}
    (h : ∀ n ∈ List.range' first 26, p (Char.ofNat n)) {c : Char} (hfirst : first ≤ c.toNat)
    (hlast : c.toNat ≤ first + 25) : p c := by
  have hc := h c.toNat (List.mem_range'_1.mpr ⟨hfirst, Nat.lt_succ_of_le hlast⟩)
  rwa [Char.ofNat_toNat] at hc

/-- What the capitals of ASCII share with their small letters does not depend on case. -/
theorem apply_toLower {β : Type} {f : Char → β}
    (h : ∀ n ∈ List.range' 65 26, f (Char.ofNat n).toLower = f (Char.ofNat n)) (c : Char) :
    f c.toLower = f c := by
  by_cases hc : c.val ≥ 'A'.val ∧ c.val ≤ 'Z'.val
  · exact of_letter (p := fun c => f c.toLower = f c) h hc.1 hc.2
  · have hsame : c.toLower = c := dif_neg hc
    rw [hsame]

@[simp] theorem isBlank_toLower (c : Char) : isBlank c.toLower = isBlank c :=
  apply_toLower (by decide) c

theorem has_cased_toLower (c : Char) : casedRanges.has c.toLower = casedRanges.has c :=
  apply_toLower (by decide) c

theorem has_caseIgnorable_toLower (c : Char) :
    caseIgnorableRanges.has c.toLower = caseIgnorableRanges.has c :=
  apply_toLower (by decide +kernel) c

theorem toLower_eq_sigma_iff (c : Char) : c.toLower = 'Σ' ↔ c = 'Σ' := by
  have h := apply_toLower (f := (· == 'Σ')) (by decide) c
  rw [← beq_iff_eq, h, beq_iff_eq]

@[simp] theorem lowerChar_toLower (c : Char) : lowerChar c.toLower = lowerChar c :=
  apply_toLower (by decide) c

theorem isEmpty_eq_of_eqIgnoringCase {s t : String} (h : eqIgnoringCase s t = true) :
    s.isEmpty = t.isEmpty := by
  have hempty (u : String) : u.isEmpty = true ↔ u.toList.map Char.toLower = [] := by
    rw [String.isEmpty_iff, List.map_eq_nil_iff, String.toList_eq_nil_iff]
  rw [eqIgnoringCase_iff] at h
  rw [Bool.eq_iff_iff, hempty, hempty, h]

/-! ### Trimming -/

theorem dropWhile_map_toLower (cs : List Char) :
    (cs.map Char.toLower).dropWhile isBlank = (cs.dropWhile isBlank).map Char.toLower := by
  rw [List.dropWhile_map]
  congr 2
  funext c
  exact isBlank_toLower c

theorem trimChars_map_toLower (cs : List Char) :
    trimChars (cs.map Char.toLower) = (trimChars cs).map Char.toLower := by
  rw [trimChars, dropBlanksEnd, dropWhile_map_toLower, ← List.map_reverse, dropWhile_map_toLower,
    ← List.map_reverse]
  rfl

theorem eqIgnoringCase_trim {s t : String} (h : eqIgnoringCase s t = true) :
    eqIgnoringCase (trim s) (trim t) = true := by
  rw [eqIgnoringCase_iff] at h ⊢
  simp only [trim, String.toList_ofList, ← trimChars_map_toLower, h]

/-! ### Lower case -/

theorem startsCased_map_toLower (cs : List Char) :
    startsCased (cs.map Char.toLower) = startsCased cs := by
  have hdrop : (cs.map Char.toLower).dropWhile caseIgnorableRanges.has =
      (cs.dropWhile caseIgnorableRanges.has).map Char.toLower := by
    rw [List.dropWhile_map]
    congr 2
    funext c
    exact has_caseIgnorable_toLower c
  rw [startsCased, startsCased, hdrop]
  cases cs.dropWhile caseIgnorableRanges.has with
  | nil => rfl
  | cons c cs => exact has_cased_toLower c

/-- The context of a sigma is the same in every case as well. -/
theorem lowerFrom_map_toLower (before cs : List Char) :
    lowerFrom (before.map Char.toLower) (cs.map Char.toLower) = lowerFrom before cs := by
  induction cs generalizing before with
  | nil => rfl
  | cons c cs ih =>
      rw [List.map_cons, lowerFrom, lowerFrom, startsCased_map_toLower, startsCased_map_toLower,
        lowerChar_toLower, ← List.map_cons, ih]
      simp only [toLower_eq_sigma_iff]

theorem lower_eq_of_eqIgnoringCase {s t : String} (h : eqIgnoringCase s t = true) :
    lower s = lower t := by
  rw [eqIgnoringCase_iff] at h
  have hlower (u : String) : lowerChars u.toList = lowerChars (u.toList.map Char.toLower) :=
    (lowerFrom_map_toLower [] u.toList).symm
  rw [lower, lower, hlower, hlower, h]

end Marshal.Text
