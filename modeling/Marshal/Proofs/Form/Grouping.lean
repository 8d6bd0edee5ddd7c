import Mathlib.Data.List.Induction
import Marshal.Proofs.Form.Names

/-!
What becomes of the pairs of a form, said of all pairs at once. The fields are the names in the
order in which they first come, each with its first spelling and the values of all its pairs.
-/

namespace Marshal

namespace Form

/-- The name that a pair counts under. One with a blank name counts under none. -/
def name? (p : String × String) : Option String :=
  if Text.trim p.1 = "" then none else some (Text.lower (Text.trim p.1))

def names (ps : Pairs) : List String :=
  ps.filterMap name?

def values (ps : Pairs) (name : String) : List String :=
  (ps.filter fun p => name? p = some name).map Prod.snd

/-- The field under a name: the spelling of the first pair, and the values of all. -/
def field? (ps : Pairs) (name : String) : Option FormField :=
  (ps.find? fun p => name? p = some name).map fun p =>
    ⟨Text.trim p.1, ",".intercalate (values ps name)⟩

def joined (p : String × String) : Option FormField → FormField
  | none => ⟨Text.trim p.1, p.2⟩
  | some f => { f with text := f.text ++ "," ++ p.2 }

/-! ### One more pair -/

theorem eraseDups_concat (ns : List String) (name : String) :
    (ns ++ [name]).eraseDups =
      if name ∈ ns then ns.eraseDups else ns.eraseDups ++ [name] := by
  rw [List.eraseDups_append, List.cons_removeAll]
  by_cases h : name ∈ ns
  · simp [h]
  · simp [h, List.eraseDups_cons]

section

variable (ps : Pairs) {p : String × String} {name : String}

theorem names_concat (p : String × String) : names (ps ++ [p]) = names ps ++ (name? p).toList := by
  rw [names, List.filterMap_append, names]
  cases hname : name? p <;> simp [hname]

theorem values_concat_of_eq (h : name? p = some name) :
    values (ps ++ [p]) name = values ps name ++ [p.2] := by
  simp [values, h]

theorem values_concat_of_ne (h : name? p ≠ some name) :
    values (ps ++ [p]) name = values ps name := by
  simp [values, h]

theorem values_eq_nil_iff :
    values ps name = [] ↔ ps.find? (fun p => name? p = some name) = none := by
  rw [values, List.map_eq_nil_iff, List.filter_eq_nil_iff, List.find?_eq_none]

theorem field?_concat_of_eq (h : name? p = some name) :
    field? (ps ++ [p]) name = some (joined p (field? ps name)) := by
  rw [field?, field?, List.find?_append, values_concat_of_eq ps h]
  cases hfind : ps.find? fun p => name? p = some name with
  | none => simp [(values_eq_nil_iff ps).mpr hfind, h, joined]
  | some q =>
      have hvalues : values ps name ≠ [] := mt (values_eq_nil_iff ps).mp (by simp [hfind])
      simp [String.intercalate_append_of_ne_nil hvalues, joined]

theorem field?_concat_of_ne (h : name? p ≠ some name) :
    field? (ps ++ [p]) name = field? ps name := by
  have hlast : [p].find? (fun p => name? p = some name) = none := by simpa using h
  rw [field?, List.find?_append, hlast, Option.or_none, values_concat_of_ne ps h, field?]

end

end Form

namespace FormFields

open Form

variable (fields : FormFields) {p : String × String} {name : String}

theorem addPair_of_blank (h : name? p = none) : fields.addPair p = fields := by
  have hblank : Text.trim p.1 = "" := by simpa [name?] using h
  rw [addPair, hblank]
  rfl

/-- A pair is put under its name, with what is there already. -/
theorem addPair_of_name (h : name? p = some name) :
    fields.addPair p = Members.put fields name (joined p (Members.get? fields name)) := by
  obtain ⟨hblank, rfl⟩ : Text.trim p.1 ≠ "" ∧ Text.lower (Text.trim p.1) = name := by
    simpa [name?] using h
  have hempty : (Text.trim p.1).isEmpty = false := by simpa using hblank
  rw [addPair, hempty, if_neg Bool.false_ne_true, add]
  cases Members.get? fields (Text.lower (Text.trim p.1)) <;> rfl

theorem ofPairs_concat (ps : Pairs) (p : String × String) :
    ofPairs (ps ++ [p]) = (ofPairs ps).addPair p :=
  List.foldl_concat ..

theorem keys_ofPairs (ps : Pairs) : Members.keys (ofPairs ps) = (names ps).eraseDups := by
  induction ps using List.reverseRecOn with
  | nil => rfl
  | append_singleton ps p ih =>
      rw [ofPairs_concat, names_concat]
      cases hname : name? p with
      | none => rw [addPair_of_blank _ hname, Option.toList_none, List.append_nil, ih]
      | some name =>
          rw [addPair_of_name _ hname, Members.keys_put, ih, Option.toList_some, eraseDups_concat]
          simp only [List.mem_eraseDups]

theorem get?_ofPairs (ps : Pairs) (name : String) :
    Members.get? (ofPairs ps) name = field? ps name := by
  induction ps using List.reverseRecOn with
  | nil => rfl
  | append_singleton ps p ih =>
      rw [ofPairs_concat]
      by_cases hname : name? p = some name
      · rw [addPair_of_name _ hname, Members.get?_put_self, ih, field?_concat_of_eq ps hname]
      · rw [field?_concat_of_ne ps hname, ← ih]
        cases hother : name? p with
        | none => rw [addPair_of_blank _ hother]
        | some other =>
            have hne : name ≠ other := fun e => hname (e ▸ hother)
            rw [addPair_of_name _ hother, Members.get?_put_of_ne hne]

/-- For all pairs: their fields are the ones that have each name once, in the order in which the
names first come, and under a name the first spelling of it and the values of all its pairs. -/
theorem eq_ofPairs_iff (ps : Pairs) (fields : FormFields) :
    fields = ofPairs ps ↔ Members.keys fields = (names ps).eraseDups ∧
      ∀ name, Members.get? fields name = field? ps name := by
  constructor
  · rintro rfl
    exact ⟨keys_ofPairs ps, get?_ofPairs ps⟩
  · rintro ⟨hkeys, hget⟩
    have hsame : Members.keys (ofPairs ps) = Members.keys fields :=
      (keys_ofPairs ps).trans hkeys.symm
    refine (Members.eq_of_get?_eq (grouped_ofPairs ps).nodup hsame fun name => ?_).symm
    rw [get?_ofPairs, hget]

/-- Three spellings of one name, with another name and a blank one in between. -/
example : ofPairs [("tag", "a"), ("N", "1"), (" TAG ", "b"), ("\u00a0", "x"), ("Tag", "")] =
    [("tag", ⟨"tag", "a,b,"⟩), ("n", ⟨"N", "1"⟩)] := by
  decide +kernel

end FormFields

end Marshal
