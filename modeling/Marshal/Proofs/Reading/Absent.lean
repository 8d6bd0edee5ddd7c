import Marshal.Decoder
import Marshal.Parsable
import Marshal.Proofs.Reading.Filling

/-!
Nulls of payloads. What has an untyped null is a null of JSON, a field of a form with the word for
null, or a text that is not there, and all that can be read of these is absent. The one other thing
with an untyped null is a number of JSON that no double is near to; that has its text.
-/

namespace Marshal

namespace Node

/-! ### Nothing to read -/

/-- A typed read of any kind gives nothing, and so do the child of any name and the elements. -/
structure Absent (n : Node) : Prop where
  read? : ∀ k, n.read? k = .ok none
  child? : ∀ key, n.child? key = .ok none
  elements? : n.elements? = .ok none
  readList? : ∀ k, n.readList? k = .ok none
  readNode? : ∀ {V : Type} (e : WireEnum V), e.readNode? n = .ok none
  readNodes? : ∀ {V : Type} (e : WireEnum V), e.readNodes? n = .ok none
  readObjects? : ∀ {α : Type} [Parsable α] (c : Reading.Context α) (factory : Factory α),
    (Parsable.readList? c factory n).exec = (.ok none, [])

/-- There are no members, and no object is made, nor seen by a layer. -/
structure AbsentObject (n : Node) : Prop where
  members? : n.members? = .ok none
  readObject? : ∀ {α : Type} [Parsable α] (c : Reading.Context α) (factory : Factory α),
    (Parsable.read? c factory n).exec = (.ok none, [])

variable {n : Node}

/-- The reads that are made of others give nothing where those do. -/
theorem absent_of_getters (hread : ∀ k, n.read? k = .ok none)
    (hchild : ∀ key, n.child? key = .ok none) (helements : n.elements? = .ok none) :
    n.Absent where
  read? := hread
  child? := hchild
  elements? := helements
  readList? k := by
    rw [Node.readList?, helements]
    rfl
  readNode? e := by
    rw [WireEnum.readNode?, text?, hread]
    rfl
  readNodes? e := by
    rw [WireEnum.readNodes?, helements]
    rfl
  readObjects? c factory := by
    rw [Parsable.readList?, Parsable.readAll?, helements]
    rfl

theorem absentObject_of_members? (hmembers : n.members? = .ok none) : n.AbsentObject where
  members? := hmembers
  readObject? c factory := by
    rw [Parsable.read?, Parsable.readAt_succ, hmembers]
    rfl

/-! ### What has an untyped null -/

def IsNumber (n : Node) : Prop :=
  ∃ m t, n = .json m ∧ m.value = .number t

/-- A field of a form, or an item of one. -/
def IsField (n : Node) : Prop :=
  ∃ path s, n = .form (.scalar path s)

theorem not_isNumber_form (f : FormNode) : ¬ (form f).IsNumber := by
  rintro ⟨m, t, h, -⟩
  cases h

theorem cases_of_untyped_null (h : n.untyped = .null) :
    n.IsNumber ∨ (∃ m, n = .json m ∧ m.value = .null) ∨
      (∃ path s, n = .form (.scalar path s) ∧ FormNode.isNull s = true) ∨
      ∃ path, n = .leaf path none := by
  match n with
  | json m =>
      cases hv : m.value with
      | null => exact .inr (.inl ⟨m, rfl, hv⟩)
      | number t => exact .inl ⟨m, t, rfl, hv⟩
      | _ =>
          rw [untyped, JsonNode.untyped, hv] at h
          cases h
  | form (.scalar path s) =>
      rw [untyped, FormNode.untyped] at h
      split at h
      · rename_i hnull
        exact .inr (.inr (.inl ⟨path, s, rfl, hnull⟩))
      · cases h
  | leaf path none => exact .inr (.inr (.inr ⟨path, rfl⟩))

theorem absent_json {m : JsonNode} (h : m.value = .null) : (json m).Absent := by
  obtain ⟨value, steps, maxDepth⟩ := m
  obtain rfl : value = .null := h
  exact absent_of_getters (fun k => by cases k <;> rfl) (fun _ => rfl) rfl

theorem absentObject_json {m : JsonNode} (h : m.value = .null) : (json m).AbsentObject := by
  refine absentObject_of_members? ?_
  rw [Node.members?, JsonNode.members?, h]
  rfl

theorem absent_field {path s : String} (h : FormNode.isNull s = true) :
    (form (.scalar path s)).Absent := by
  refine absent_of_getters (fun k => ?_) (fun _ => rfl) ?_
  · rw [Node.read?, FormNode.read?, FormNode.text?, if_pos h]
    rfl
  · rw [Node.elements?, FormNode.elements?, if_pos h]
    rfl

theorem absent_leaf (path : String) : (leaf path none).Absent :=
  absent_of_getters (fun _ => rfl) (fun _ => rfl) rfl

/-- The text of a number is there, so the number is not absent. -/
theorem Absent.not_isNumber (h : n.Absent) : ¬ n.IsNumber := by
  rintro ⟨m, t, rfl, hv⟩
  have htext : (json m).read? .string = .ok (some t) := by
    rw [Node.read?, JsonNode.read?, JsonNode.text?, hv]
  rw [h.read?] at htext
  cases htext

theorem AbsentObject.not_isNumber (h : n.AbsentObject) : ¬ n.IsNumber := by
  rintro ⟨m, t, rfl, hv⟩
  have hmembers : (json m).members? = .error (.parse m.path (.expected .object .number)) := by
    rw [Node.members?, JsonNode.members?, hv]
    simp only [JsonNode.mismatch, hv]
    rfl
  rw [h.members?] at hmembers
  cases hmembers

/-- What has an untyped null is read as absent in every way, if and only if it is not a number. Of
fields of forms this leaves open what they are as objects. -/
theorem absent_iff_of_untyped_null (h : n.untyped = .null) :
    (n.Absent ↔ ¬ n.IsNumber) ∧ (¬ n.IsField → (n.AbsentObject ↔ ¬ n.IsNumber)) := by
  refine ⟨⟨Absent.not_isNumber, fun hnumber => ?_⟩,
    fun hfield => ⟨AbsentObject.not_isNumber, fun hnumber => ?_⟩⟩
  · rcases cases_of_untyped_null h with hn | ⟨m, rfl, hv⟩ | ⟨path, s, rfl, hnull⟩ | ⟨path, rfl⟩
    · exact absurd hn hnumber
    · exact absent_json hv
    · exact absent_field hnull
    · exact absent_leaf path
  · rcases cases_of_untyped_null h with hn | ⟨m, rfl, hv⟩ | ⟨path, s, rfl, -⟩ | ⟨path, rfl⟩
    · exact absurd hn hnumber
    · exact absentObject_json hv
    · exact absurd ⟨path, s, rfl⟩ hfield
    · exact absentObject_of_members? rfl

/-- The second of the items that a field of a form holds. -/
theorem absent_iff_of_untyped_null_item :
    ∃ root n, Decoder.form.root ContentType.form (Bytes.ofString "tags=x,+NULL") =
        .ok { node := root } ∧
      root.follow? [.child "tags", .element 1] = .ok (some n) ∧ n.untyped = .null ∧ n.Absent := by
  have hnull : (form (.scalar "/tags/1" "NULL")).untyped = .null := rfl
  have habsent := (absent_iff_of_untyped_null hnull).1.mpr (not_isNumber_form _)
  exact ⟨.form (.fields [("tags", ⟨"tags", "x, NULL"⟩)]), _, rfl, rfl, hnull, habsent⟩

/-- A number past the doubles has an untyped null, and has its text; and a null field of a form is
refused as an object. -/
theorem not_absent_of_untyped_null :
    (∃ n, Decoder.json.root ContentType.json (Bytes.ofString "1e400") = .ok { node := n } ∧
      n.untyped = .null ∧ n.text? = .ok (some "1e+400")) ∧
    ∃ root n, Decoder.form.root ContentType.form (Bytes.ofString "a=null") = .ok { node := root } ∧
      root.child? "a" = .ok (some n) ∧ n.untyped = .null ∧
      n.members? = .error (.unsupported (.formFieldAsObject "/a")) := by
  refine ⟨⟨.json { value := .number "1e+400" }, rfl, ?_, rfl⟩,
    .form (.fields [("a", ⟨"a", "null"⟩)]), .form (.scalar "/a" "null"), rfl, rfl, rfl, rfl⟩
  have hinteger : Json.integer? "1e+400" = none := by decide +kernel
  have hdouble : Json.double? "1e+400" = none := by decide +kernel
  rw [untyped, JsonNode.untyped, Json.toUntyped, Json.numberToUntyped, hinteger, hdouble]

end Node

end Marshal
