import Marshal.Proofs.Codec
import Marshal.Proofs.Text.Blank
import Marshal.Proofs.Text.Case

/-!
Which member of an enumeration a name is read as. Every name that is written is claimed by a member,
though it may be another one than the name was written for; whoever claims it is what it is read as,
in any letter case and with any blanks around it.
-/

namespace Marshal

def IsFirst {α : Type} (p : α → Prop) (l : List α) (a : α) : Prop :=
  p a ∧ ∃ before after, l = before ++ a :: after ∧ ∀ x ∈ before, ¬p x

theorem isFirst_of_find? {α : Type} {p : α → Bool} {l : List α} {a : α} (h : l.find? p = some a) :
    IsFirst (fun x => p x = true) l a := by
  simpa [IsFirst, List.find?_eq_some_iff_append] using h

namespace WireEnum

variable {V : Type} {e : WireEnum V}

def Renamed (s : String) (m : EnumMember V) : Prop :=
  ∃ w ∈ m.wireName, Text.eqIgnoringCase w s = true

/-- The first member that is renamed to this, or the first that is called this if none is renamed to
it. Letter case within ASCII does not count. -/
def Claims (e : WireEnum V) (s : String) (m : EnumMember V) : Prop :=
  IsFirst (Renamed s) e.members m ∨
    (∀ x ∈ e.members, ¬Renamed s x) ∧
      IsFirst (fun x => Text.eqIgnoringCase x.name s = true) e.members m

theorem any_wireName_iff {s : String} {m : EnumMember V} :
    m.wireName.any (Text.eqIgnoringCase · s) = true ↔ Renamed s m := by
  simp [Renamed, Option.any_eq_true]

/-- What is found belongs to the member that claims the name. -/
theorem exists_claims_of_find? {s : String} {v : V} (h : e.find? s = some v) :
    ∃ m, e.Claims s m ∧ m.value = v := by
  rw [find?] at h
  obtain ⟨m, hm, rfl⟩ := Option.map_eq_some_iff.mp h
  refine ⟨m, ?_, rfl⟩
  cases hrenamed : e.members.find? fun m => m.wireName.any (Text.eqIgnoringCase · s) with
  | some r =>
      rw [hrenamed] at hm
      obtain rfl : r = m := Option.some.inj hm
      left
      simpa only [any_wireName_iff] using isFirst_of_find? hrenamed
  | none =>
      rw [hrenamed] at hm
      refine .inr ⟨fun x hx => ?_, isFirst_of_find? hm⟩
      rw [← any_wireName_iff]
      exact List.find?_eq_none.mp hrenamed x hx

/-- The name that is written for a member is not unknown. -/
theorem isSome_find?_writtenName {m : EnumMember V} (hm : m ∈ e.members) :
    (e.find? m.writtenName).isSome = true := by
  rw [find?, Option.isSome_map, Option.orElse_eq_orElse, Option.orElse_eq_or, Option.isSome_or,
    Bool.or_eq_true, List.find?_isSome, List.find?_isSome]
  cases hw : m.wireName with
  | some w => exact .inl ⟨m, hm, by simp [EnumMember.writtenName, hw]⟩
  | none => exact .inr ⟨m, hm, by simp [EnumMember.writtenName, hw]⟩

theorem find?_congr {s t : String} (h : Text.eqIgnoringCase t s = true) :
    e.find? t = e.find? s := by
  have hsame (w : String) : Text.eqIgnoringCase w t = Text.eqIgnoringCase w s := by
    rw [Text.eqIgnoringCase, Text.eqIgnoringCase, Text.eqIgnoringCase_iff.mp h]
  simp only [find?, hsame]

theorem read?_eq_find? (hf : e.flags = none) {raw : String} (h : (Text.trim raw).isEmpty = false) :
    e.read? raw = e.find? (Text.trim raw) := by
  simp only [read?, hf, h, Bool.false_eq_true, if_false]

/-- A name that trimming leaves as it is can be written in any case and with blanks around it. -/
theorem read?_padded (hf : e.flags = none) {s t left right : String} (hne : s ≠ "")
    (htrim : Text.trim s = s) (hs : Text.eqIgnoringCase t s = true)
    (hleft : ∀ c ∈ left.toList, Text.isBlank c = true)
    (hright : ∀ c ∈ right.toList, Text.isBlank c = true) :
    e.read? (left ++ t ++ right) = e.find? s := by
  have hpadded : Text.trim (left ++ t ++ right) = Text.trim t := by
    rw [Text.trim, String.toList_append, String.toList_append, Text.trimChars_append_blanks hright,
      Text.trimChars_blanks_append hleft, Text.trim]
  have hsame : Text.eqIgnoringCase (Text.trim t) s = true := by
    have h := Text.eqIgnoringCase_trim hs
    rwa [htrim] at h
  have hsome : (Text.trim t).isEmpty = false := by
    rw [Text.isEmpty_eq_of_eqIgnoringCase hsame, String.isEmpty_eq_false_iff]
    exact hne
  rw [read?_eq_find? hf (by rwa [hpadded]), hpadded, find?_congr hsame]

variable [DecidableEq V]

theorem exists_write? (hf : e.flags = none) {v : V} (hv : ∃ m ∈ e.members, m.value = v) :
    ∃ m, IsFirst (fun x => x.value = v) e.members m ∧ e.write? v = some m.writtenName := by
  obtain ⟨m, hfind⟩ : ∃ m, (e.members.find? fun m => decide (m.value = v)) = some m := by
    rw [← Option.isSome_iff_exists, List.find?_isSome]
    simpa using hv
  refine ⟨m, by simpa using isFirst_of_find? hfind, ?_⟩
  simp only [write?, hf, hfind, Option.map_some]

/-- A value of an enumeration is written as the name of the first member with this value. That is
read, in any letter case and with blanks around it, as the value of the member that claims the name.
So the value comes back if and only if the member that claims its name has this value too. -/
theorem named_iff_claims (hf : e.flags = none)
    (hnames : ∀ m ∈ e.members, m.writtenName ≠ "" ∧ Text.trim m.writtenName = m.writtenName)
    {v : V} (hv : ∃ m ∈ e.members, m.value = v) :
    ∃ first claimant, IsFirst (fun x => x.value = v) e.members first ∧
      e.write? v = some first.writtenName ∧ e.Claims first.writtenName claimant ∧
      (e.Named v ↔ claimant.value = v) ∧
      ∀ left t right : String, (∀ c ∈ left.toList, Text.isBlank c = true) →
        (∀ c ∈ right.toList, Text.isBlank c = true) →
          Text.eqIgnoringCase t first.writtenName = true →
            e.read? (left ++ t ++ right) = some claimant.value := by
  obtain ⟨first, hfirst, hwrite⟩ := exists_write? hf hv
  have hmem : first ∈ e.members := by
    obtain ⟨-, before, after, hsplit, -⟩ := hfirst
    rw [hsplit]
    exact List.mem_append_right _ List.mem_cons_self
  obtain ⟨hne, htrim⟩ := hnames first hmem
  obtain ⟨w, hfind⟩ := Option.isSome_iff_exists.mp (isSome_find?_writtenName hmem)
  obtain ⟨claimant, hclaims, rfl⟩ := exists_claims_of_find? hfind
  have hread (left t right : String) (hleft : ∀ c ∈ left.toList, Text.isBlank c = true)
      (hright : ∀ c ∈ right.toList, Text.isBlank c = true)
      (ht : Text.eqIgnoringCase t first.writtenName = true) :
      e.read? (left ++ t ++ right) = some claimant.value :=
    (read?_padded hf hne htrim ht hleft hright).trans hfind
  refine ⟨first, claimant, hfirst, hwrite, hclaims, ?_, hread⟩
  have hself := hread "" first.writtenName "" (by simp) (by simp) (Text.eqIgnoringCase_self _)
  rw [String.empty_append, String.append_empty] at hself
  rw [Named, hwrite, Option.bind_some, hself, Option.some_inj]

def sizes : WireEnum Nat where
  members := [
    { value := 36, name := "S" },
    { value := 40, name := "M" },
    { value := 44, name := "L", wireName := some "s" },
    { value := 36, name := "small" }]

theorem named_iff_claims_sizes :
    ∃ claimant : EnumMember Nat, sizes.Claims "S" claimant ∧ ¬sizes.Named 36 ∧
      claimant.value ≠ 36 ∧ sizes.read? ("\t" ++ "s" ++ " ") = some claimant.value := by
  obtain ⟨first, claimant, -, hwrite, hclaims, hnamed, hread⟩ :=
    named_iff_claims (e := sizes) rfl (by decide) (v := 36) ⟨_, List.mem_cons_self, rfl⟩
  have hname : first.writtenName = "S" := Option.some.inj (hwrite.symm.trans (by decide))
  have hnot : ¬sizes.Named 36 := by decide
  rw [hname] at hclaims hread
  refine ⟨claimant, hclaims, hnot, mt hnamed.mpr hnot, ?_⟩
  exact hread "\t" "s" " " (List.forall_mem_singleton.mpr rfl) (List.forall_mem_singleton.mpr rfl)
    (by decide)

end WireEnum

end Marshal
