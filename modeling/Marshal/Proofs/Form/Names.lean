import Mathlib.Data.List.Forall2
import Marshal.Form.Node
import Marshal.Proofs.Members
import Marshal.Proofs.Text.Case

/-!
The names of a form in different letter case. The fields that are made of it are the same, but each
keeps the spelling that came first.
-/

namespace Marshal

/-- The same pairs, with the names in a letter case of their own. -/
def Form.Recased (ps qs : Pairs) : Prop :=
  List.Forall₂ (fun p q => Text.eqIgnoringCase p.1 q.1 = true ∧ p.2 = q.2) ps qs

namespace FormFields

def spellings (fields : FormFields) : List String :=
  fields.list.map (·.key)

/-! ### One field for each name -/

/-- Every field is kept once, under the lower case of its name. -/
structure Grouped (fields : FormFields) : Prop where
  nodup : (Members.keys fields).Nodup
  lower : ∀ x ∈ fields, x.1 = Text.lower x.2.key

theorem Grouped.put {fields : FormFields} (h : Grouped fields) {name : String} (x : FormField)
    (hx : name = Text.lower x.key) : Grouped (Members.put fields name x) := by
  refine ⟨Members.nodup_keys_put h.nodup .., fun y hy => ?_⟩
  rcases Members.mem_put hy with rfl | hy
  · exact hx
  · exact h.lower y hy

theorem Grouped.addPair {fields : FormFields} (h : Grouped fields) (p : String × String) :
    Grouped (fields.addPair p) := by
  rw [FormFields.addPair]
  split_ifs
  · exact h
  · rw [add]
    cases hx : Members.get? fields (Text.lower (Text.trim p.1)) with
    | none =>
        dsimp only
        exact h.put _ rfl
    | some x =>
        dsimp only
        exact h.put _ (h.lower (_, x) (Members.mem_of_get? hx))

theorem Grouped.foldl_addPair {fields : FormFields} (h : Grouped fields) (ps : Form.Pairs) :
    Grouped (ps.foldl FormFields.addPair fields) := by
  induction ps generalizing fields with
  | nil => exact h
  | cons p ps ih =>
      rw [List.foldl_cons]
      exact ih (h.addPair p)

theorem grouped_ofPairs (ps : Form.Pairs) : Grouped (ofPairs ps) := by
  have hnil : Grouped [] := ⟨.nil, List.forall_mem_nil _⟩
  exact hnil.foldl_addPair ps

/-! ### Other spellings -/

/-- The same texts under the same names, whatever spellings are kept. -/
def Alike (fields others : FormFields) : Prop :=
  List.Forall₂ (fun x y => x.1 = y.1 ∧ x.2.text = y.2.text) fields others

section

variable {fields others : FormFields}

theorem Alike.put (h : Alike fields others) (key : String) {x y : FormField}
    (hxy : x.text = y.text) : Alike (Members.put fields key x) (Members.put others key y) := by
  induction h with
  | nil => exact .cons ⟨rfl, hxy⟩ .nil
  | @cons x' y' fields others hxy' hrest ih =>
      rw [Members.put, Members.put, hxy'.1]
      split
      · exact .cons ⟨rfl, hxy⟩ hrest
      · exact .cons hxy' ih

theorem Alike.text_get? (h : Alike fields others) (key : String) :
    (Members.get? fields key).map (·.text) = (Members.get? others key).map (·.text) := by
  induction h with
  | nil => rfl
  | @cons x y fields others hxy _ ih =>
      obtain ⟨k, x⟩ := x
      obtain ⟨l, y⟩ := y
      obtain ⟨rfl, htext⟩ := hxy
      simp only [Members.get?, List.lookup_cons] at ih ⊢
      cases key == k with
      | true => exact congrArg some htext
      | false => exact ih

theorem Alike.addPair (h : Alike fields others) {p q : String × String}
    (hkey : Text.eqIgnoringCase p.1 q.1 = true) (hvalue : p.2 = q.2) :
    Alike (fields.addPair p) (others.addPair q) := by
  have htrim := Text.eqIgnoringCase_trim hkey
  have hlower := Text.lower_eq_of_eqIgnoringCase htrim
  have hempty := Text.isEmpty_eq_of_eqIgnoringCase htrim
  have htext := h.text_get? (Text.lower (Text.trim q.1))
  simp only [FormFields.addPair, add, hempty, hlower, hvalue]
  split
  · exact h
  · cases hf : Members.get? fields (Text.lower (Text.trim q.1)) <;>
      cases ho : Members.get? others (Text.lower (Text.trim q.1)) <;> rw [hf, ho] at htext
    · exact h.put _ rfl
    · cases htext
    · cases htext
    · exact h.put _ (congrArg (· ++ "," ++ q.2) (Option.some.inj htext))

theorem Alike.foldl_addPair {ps qs : Form.Pairs} (h : Alike fields others)
    (hpairs : Form.Recased ps qs) :
    Alike (ps.foldl FormFields.addPair fields) (qs.foldl FormFields.addPair others) := by
  induction hpairs generalizing fields others with
  | nil => exact h
  | cons hpq _ ih =>
      rw [List.foldl_cons, List.foldl_cons]
      exact ih (h.addPair hpq.1 hpq.2)

theorem alike_ofPairs {ps qs : Form.Pairs} (h : Form.Recased ps qs) :
    Alike (ofPairs ps) (ofPairs qs) :=
  Alike.foldl_addPair .nil h

end

end FormFields

end Marshal
