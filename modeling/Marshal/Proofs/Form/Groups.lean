import Marshal.Proofs.Form.Encoding
import Marshal.Proofs.Form.Names

/-!
Values that are written name by name. Where the names differ, each becomes one field, with its
values joined.
-/

namespace Marshal

def Form.spread (groups : Members (List String)) : Pairs :=
  groups.flatMap fun g => g.2.map (g.1, ·)

namespace FormFields

variable {fields : FormFields} {name : String}

/-- A name that is taken as it is. -/
def Tidy (name : String) : Prop :=
  Text.trim name = name ∧ name ≠ ""

instance (name : String) : Decidable (Tidy name) :=
  inferInstanceAs (Decidable (_ ∧ _))

theorem addPair_of_tidy (h : Tidy name) (fields : FormFields) (value : String) :
    fields.addPair (name, value) = fields.add name value := by
  have hempty : name.isEmpty = false := by simpa using h.2
  simp only [addPair, h.1, hempty, Bool.false_eq_true, if_false]

theorem add_new (hnew : Text.lower name ∉ Members.keys fields) (value : String) :
    fields.add name value = fields ++ [(Text.lower name, ⟨name, value⟩)] := by
  have hget : Members.get? fields (Text.lower name) = none := Members.get?_eq_none_iff.mpr hnew
  rw [add, hget]
  exact Members.put_of_not_mem hnew _

theorem add_same (hnew : Text.lower name ∉ Members.keys fields) (text value : String) :
    add (fields ++ [(Text.lower name, ⟨name, text⟩)]) name value =
      fields ++ [(Text.lower name, ⟨name, text ++ "," ++ value⟩)] := by
  have hget : Members.get? (fields ++ [(Text.lower name, (⟨name, text⟩ : FormField))])
      (Text.lower name) = some ⟨name, text⟩ := Members.get?_concat hnew _
  rw [add, hget]
  exact Members.put_concat hnew _ _

/-- More values for the field that was added last. -/
theorem foldl_addPair_same (h : Tidy name) (hnew : Text.lower name ∉ Members.keys fields)
    (text : String) (vs : List String) :
    (vs.map (name, ·)).foldl addPair (fields ++ [(Text.lower name, ⟨name, text⟩)]) =
      fields ++ [(Text.lower name, ⟨name, ",".intercalate (text :: vs)⟩)] := by
  induction vs generalizing text with
  | nil => simp
  | cons v vs ih =>
      rw [List.map_cons, List.foldl_cons, addPair_of_tidy h, add_same hnew, ih,
        String.intercalate_cons_append, String.intercalate_cons_cons]

/-- All values of a name that is new. -/
theorem foldl_addPair_group (h : Tidy name) (hnew : Text.lower name ∉ Members.keys fields)
    (v : String) (vs : List String) :
    ((v :: vs).map (name, ·)).foldl addPair fields =
      fields ++ [(Text.lower name, ⟨name, ",".intercalate (v :: vs)⟩)] := by
  rw [List.map_cons, List.foldl_cons, addPair_of_tidy h, add_new hnew, foldl_addPair_same h hnew]

def ofGroup (g : String × List String) : FormFields :=
  if g.2 = [] then [] else [(Text.lower g.1, ⟨g.1, ",".intercalate g.2⟩)]

theorem foldl_addPair_spread {groups : Members (List String)}
    (htidy : ∀ name ∈ groups.keys, Tidy name)
    (hnodup : (Members.keys fields ++ groups.keys.map Text.lower).Nodup) :
    (Form.spread groups).foldl addPair fields = fields ++ groups.flatMap ofGroup := by
  induction groups generalizing fields with
  | nil => simp [Form.spread]
  | cons g groups ih =>
      obtain ⟨name, values⟩ := g
      have hname : Tidy name := htidy name List.mem_cons_self
      have hrest : ∀ name ∈ Members.keys groups, Tidy name := fun other hother =>
        htidy other (List.mem_cons_of_mem name hother)
      have hspread : Form.spread ((name, values) :: groups) =
          values.map (name, ·) ++ Form.spread groups := List.flatMap_cons
      rw [hspread, List.foldl_append, List.flatMap_cons, ← List.append_assoc]
      cases values with
      | nil =>
          refine (ih hrest ?_).trans (by simp [ofGroup])
          exact hnodup.sublist ((List.sublist_cons_self ..).append_left _)
      | cons v vs =>
          have hnew : Text.lower name ∉ Members.keys fields := Members.not_mem_of_nodup hnodup
          rw [foldl_addPair_group hname hnew]
          refine (ih hrest ?_).trans (by simp [ofGroup])
          exact Members.nodup_concat hnodup _

/-- Distinct names are kept in their order. -/
theorem ofPairs_spread {groups : Members (List String)}
    (htidy : ∀ name ∈ groups.keys, Tidy name) (hnodup : (groups.keys.map Text.lower).Nodup) :
    ofPairs (Form.spread groups) = groups.flatMap ofGroup :=
  foldl_addPair_spread htidy (by simpa using hnodup)

end FormFields

end Marshal
