import Marshal.ContentType
import Marshal.Proofs.Text.Split

/-!
What a content type with a suffix may be treated as.
-/

namespace Marshal.ContentType

/-- The type `t` ends in a suffix after its last plus, and `cleaned` has that suffix in the place of
all that follows the first slash. -/
def Suffixed (t cleaned : String) : Prop :=
  ∃ kind tree suffix : List Char, t = String.ofList (kind ++ '/' :: (tree ++ '+' :: suffix)) ∧
    '/' ∉ kind ∧ '+' ∉ suffix ∧ suffix ≠ [] ∧ cleaned = String.ofList (kind ++ '/' :: suffix)

theorem Suffixed.ne_empty {t cleaned : String} (h : Suffixed t cleaned) : cleaned ≠ "" := by
  obtain ⟨kind, tree, suffix, -, -, -, -, rfl⟩ := h
  intro he
  simpa using congrArg String.toList he

theorem vendorCleaned?_eq_some_iff {t cleaned : String} :
    vendorCleaned? t = some cleaned ↔ Suffixed t cleaned := by
  constructor
  · intro h
    simp only [vendorCleaned?, Option.bind_eq_bind, Option.bind_eq_some_iff, Prod.exists] at h
    obtain ⟨kind, subtype, hcut, tree, suffix, hlast, h⟩ := h
    obtain ⟨ht, hkind⟩ := Text.cut_eq_some_iff.mp hcut
    obtain ⟨rfl, hsuffix⟩ := Text.cutLast_eq_some_iff.mp hlast
    cases suffix with
    | nil => simp at h
    | cons c suffix =>
        refine ⟨kind, tree, c :: suffix, ?_, hkind, hsuffix, List.cons_ne_nil c suffix, ?_⟩
        · rw [← ht, String.ofList_toList]
        · simpa using h.symm
  · rintro ⟨kind, tree, suffix, rfl, hkind, hsuffix, hne, rfl⟩
    simp [vendorCleaned?, String.toList_ofList, Text.cut_append_cons hkind,
      Text.cutLast_append_cons hsuffix, hne]

end Marshal.ContentType
