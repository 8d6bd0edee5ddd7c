import Mathlib.Data.List.Nodup
import Marshal.Proofs.Form.Field

/-!
A form read whole and field by field. The names agree, and a field is found under its name in every
letter case. The values agree where no field holds the word for null: that is absent from a field,
but a text like any other in the whole.
-/

namespace Marshal

namespace FormFields

variable {fields : FormFields}

theorem Grouped.nodup_spellings (h : Grouped fields) : fields.spellings.Nodup := by
  have hkeys : Members.keys fields = fields.spellings.map Text.lower := by
    rw [spellings, list, Members.keys, List.map_map, List.map_map]
    exact List.map_congr_left h.lower
  have hnodup := h.nodup
  rw [hkeys] at hnodup
  exact List.Nodup.of_map _ hnodup

def texts (fields : FormFields) : Members Untyped :=
  fields.map fun x => (x.2.key, .string x.2.text)

theorem keys_texts (fields : FormFields) : fields.texts.keys = fields.spellings := by
  simp [texts, spellings, list, Members.keys, Function.comp_def]

theorem keys_nodes (fields : FormFields) : fields.nodes.keys = fields.spellings := by
  simp [nodes, spellings, list, Members.keys, Function.comp_def]

theorem untyped_nodes (fields : FormFields) :
    fields.nodes.mapValues Node.untyped =
      fields.map fun x =>
        (x.2.key, if FormNode.isNull x.2.text then .null else .string x.2.text) := by
  rw [nodes, Members.mapValues, List.map_map]
  rfl

/-- Texts and untyped values are the same where no text is the word for null. -/
theorem texts_eq_untyped_nodes_iff :
    fields.texts = fields.nodes.mapValues Node.untyped ↔
      ∀ x ∈ fields.list, FormNode.isNull x.text = false := by
  rw [texts, untyped_nodes, List.map_inj_left, list, List.forall_mem_map]
  refine forall₂_congr fun x _ => ?_
  cases hnull : FormNode.isNull x.2.text <;> simp

end FormFields

namespace Node

variable {fields : FormFields}

/-- The whole has a text under every name, whatever the text is. -/
theorem untyped_form (h : fields.Grouped) :
    (form (.fields fields)).untyped = .object fields.texts := by
  have hkeys : fields.texts.keys.Nodup := by
    rw [FormFields.keys_texts]
    exact h.nodup_spellings
  have hput : fields.list.foldl (fun m x => Members.put m x.key (.string x.text)) [] =
      Members.ofPairs fields.texts := by
    rw [FormFields.list, FormFields.texts, Members.ofPairs, Members.putAll, List.foldl_map,
      List.foldl_map]
  rw [untyped, FormNode.untyped, hput, Members.ofPairs_of_nodup hkeys]

/-- A field is the child under its name and under every name with the same lower case, and under no
other. -/
theorem child?_form_iff (h : fields.Grouped) {m : String × Node} (hm : m ∈ fields.nodes)
    (key : String) :
    (form (.fields fields)).child? key = .ok (some m.2) ↔ Text.lower key = Text.lower m.1 := by
  obtain ⟨x, hx, rfl⟩ := List.mem_map.mp hm
  rw [child?_form, FormFields.find?]
  constructor
  · intro hchild
    obtain ⟨y, hy, hnode⟩ := Option.map_eq_some_iff.mp (Except.ok.inj hchild)
    obtain ⟨hpath, -⟩ := FormNode.scalar.inj (form.inj hnode)
    have hlower : Text.lower key = Text.lower y.key := h.lower _ (Members.mem_of_get? hy)
    rw [hlower, (String.append_right_inj "/").mp hpath]
  · intro hlower
    rw [hlower, ← h.lower x hx, Members.get?_of_mem h.nodup hx]
    rfl

/-- For every payload: what a form is as a whole has the names of its members in their order, and it
has their untyped values, if and only if no field holds the word for null. Each member is the child
under its name in any letter case. -/
theorem form_whole_iff (b : Bytes) :
    let root := form (.ofContent b)
    ∃ (whole : Members Untyped) (ms : Members Node),
      root.untyped = .object whole ∧ root.members? = .ok (some ms) ∧ whole.keys = ms.keys ∧
      (whole = ms.mapValues untyped ↔ ∀ x ∈ (FormFields.ofPairs (Form.decode b)).list,
        Text.eqIgnoringCase x.text "null" = false) ∧
      ∀ m ∈ ms, ∀ key, root.child? key = .ok (some m.2) ↔ Text.lower key = Text.lower m.1 := by
  intro root
  have hgrouped := FormFields.grouped_ofPairs (Form.decode b)
  refine ⟨_, _, untyped_form hgrouped, members?_form _, ?_,
    FormFields.texts_eq_untyped_nodes_iff, fun m hm key => child?_form_iff hgrouped hm key⟩
  rw [FormFields.keys_texts, FormFields.keys_nodes]

/-- Two fields, of which one was spelled in two ways and has two values. -/
theorem form_whole_iff_tags :
    let root := form (.ofContent (Bytes.ofString "Name=Ada&tag=x&TAG=y"))
    let name := form (.scalar "/Name" "Ada")
    let tag := form (.scalar "/tag" "x,y")
    root.members? = .ok (some [("Name", name), ("tag", tag)]) ∧
      root.untyped = .object [("Name", name.untyped), ("tag", tag.untyped)] ∧
      root.child? "nAME" = .ok (some name) ∧ root.child? "Tag" = .ok (some tag) := by
  intro root name tag
  obtain ⟨whole, ms, hwhole, hms, -, hiff, hchild⟩ :=
    form_whole_iff (Bytes.ofString "Name=Ada&tag=x&TAG=y")
  obtain rfl : ms = [("Name", name), ("tag", tag)] := by
    have hmembers : root.members? = .ok (some [("Name", name), ("tag", tag)]) := by rfl
    exact Option.some.inj (Except.ok.inj (hms.symm.trans hmembers))
  refine ⟨hms, ?_, (hchild _ List.mem_cons_self _).mpr (by decide +kernel),
    (hchild ("tag", tag) (by simp) _).mpr (by decide +kernel)⟩
  rw [hwhole, hiff.mpr (by decide +kernel)]
  rfl

/-- The word for null is a text in the whole form, and absent from its field. -/
theorem form_whole_of_null :
    let root := form (.ofContent (Bytes.ofString "a=null"))
    let a := form (.scalar "/a" "null")
    root.members? = .ok (some [("a", a)]) ∧ root.untyped = .object [("a", .string "null")] ∧
      a.untyped = .null ∧ root.untyped ≠ .object [("a", a.untyped)] := by
  refine ⟨rfl, rfl, rfl, ?_⟩
  intro heq
  cases heq

end Node

end Marshal
