import Marshal.Proofs.Json.Faithful
import Marshal.Proofs.Json.Untyped

/-!
What undeclared fields are read as, and what this is written as again: a value of the same shape.
-/

namespace Marshal

namespace Untyped

mutual

theorem legible_json : ∀ v : Untyped, v.Distinct → v.json.Legible
  | null, _ | bool _, _ | string _, _ => ⟨trivial, trivial⟩
  | integer n, _ => Json.legible_number (Json.isNumber_intText _)
  | double x, _ => Json.legible_ofDouble x
  | array items, h => by
      rw [Distinct] at h
      rw [json, Json.legible_array_iff]
      exact legible_jsonItems items h
  | object members, h => by
      rw [Distinct] at h
      rw [json, Json.legible_object_iff, keys_jsonMembers]
      exact ⟨h.1, legible_jsonMembers members h.2⟩

theorem legible_jsonItems : ∀ vs : List Untyped, DistinctItems vs → ∀ v ∈ jsonItems vs, v.Legible
  | [], _ => List.forall_mem_nil _
  | v :: vs, h => List.forall_mem_cons.mpr ⟨legible_json v h.1, legible_jsonItems vs h.2⟩

theorem legible_jsonMembers : ∀ ms : List (String × Untyped), DistinctMembers ms →
    ∀ m ∈ jsonMembers ms, m.2.Legible
  | [], _ => List.forall_mem_nil _
  | (_, v) :: ms, h => List.forall_mem_cons.mpr ⟨legible_json v h.1, legible_jsonMembers ms h.2⟩

end

end Untyped

namespace Json

theorem numberToUntyped_cases (t : String) :
    numberToUntyped t = .null ∨ (∃ n, numberToUntyped t = .integer n) ∨
      ∃ x, x.isFinite = true ∧ numberToUntyped t = .double x := by
  rw [numberToUntyped]
  cases hinteger : integer? t with
  | some n => exact .inr (.inl ⟨n, rfl⟩)
  | none =>
      cases hdouble : double? t with
      | none => exact .inl rfl
      | some x => exact .inr (.inr ⟨x, (Option.filter_eq_some_iff.mp hdouble).2, rfl⟩)

mutual

theorem sound_toUntyped : ∀ v : Json, v.Distinct → v.toUntyped.Sound
  | null, _ | bool _, _ | string _, _ => trivial
  | number t, _ => by
      rw [toUntyped]
      rcases numberToUntyped_cases t with h | ⟨n, h⟩ | ⟨x, hx, h⟩ <;> rw [h]
      · trivial
      · trivial
      · exact hx
  | array items, h => by
      rw [Distinct] at h
      rw [toUntyped, Untyped.Sound]
      exact sound_itemsToUntyped items h
  | object members, h => by
      rw [Distinct] at h
      rw [toUntyped, Untyped.Sound, membersToUntyped_eq, Members.keys_mapValues,
        ← membersToUntyped_eq]
      exact ⟨h.1, sound_membersToUntyped members h.2⟩

theorem sound_itemsToUntyped : ∀ vs : List Json, DistinctItems vs →
    Untyped.SoundItems (itemsToUntyped vs)
  | [], _ => trivial
  | v :: vs, h => ⟨sound_toUntyped v h.1, sound_itemsToUntyped vs h.2⟩

theorem sound_membersToUntyped : ∀ ms : List (String × Json), DistinctMembers ms →
    Untyped.SoundMembers (membersToUntyped ms)
  | [], _ => trivial
  | (_, v) :: ms, h => ⟨sound_toUntyped v h.1, sound_membersToUntyped ms h.2⟩

end

/-- What is read of a number is written as a number or null. -/
theorem json_numberToUntyped (t : String) :
    (numberToUntyped t).json = .null ∨ ∃ u, (numberToUntyped t).json = .number u := by
  rcases numberToUntyped_cases t with h | ⟨n, h⟩ | ⟨x, hx, h⟩ <;> rw [h, Untyped.json]
  · exact .inl rfl
  · exact .inr ⟨_, rfl⟩
  · rw [ofDouble, if_pos hx]
    exact .inr ⟨_, rfl⟩

mutual

theorem unreserved_toUntyped : ∀ v : Json, v.Unreserved → v.toUntyped.json.Unreserved
  | null, _ | bool _, _ | string _, _ => trivial
  | number t, _ => by
      rw [toUntyped]
      rcases json_numberToUntyped t with h | ⟨u, h⟩ <;> rw [h] <;> trivial
  | array items, h => by
      rw [Unreserved] at h
      rw [toUntyped, Untyped.json, Unreserved]
      exact unreserved_itemsToUntyped items h
  | object members, h => by
      rw [Unreserved] at h
      rw [toUntyped, Untyped.json, Unreserved]
      refine ⟨?_, unreserved_membersToUntyped members h.2⟩
      cases members with
      | nil => exact h.1
      | cons m ms =>
          rintro p hp
          cases hp
          exact h.1 m rfl

theorem unreserved_itemsToUntyped : ∀ vs : List Json, UnreservedItems vs →
    UnreservedItems (Untyped.jsonItems (itemsToUntyped vs))
  | [], _ => trivial
  | v :: vs, h => ⟨unreserved_toUntyped v h.1, unreserved_itemsToUntyped vs h.2⟩

theorem unreserved_membersToUntyped : ∀ ms : List (String × Json), UnreservedMembers ms →
    UnreservedMembers (Untyped.jsonMembers (membersToUntyped ms))
  | [], _ => trivial
  | (_, v) :: ms, h => ⟨unreserved_toUntyped v h.1, unreserved_membersToUntyped ms h.2⟩

end

mutual

theorem nesting_toUntyped : ∀ v : Json, v.toUntyped.json.nesting = v.nesting
  | null | bool _ | string _ => rfl
  | number t => by
      rw [toUntyped]
      rcases json_numberToUntyped t with h | ⟨u, h⟩ <;> rw [h] <;> rfl
  | array items => by
      rw [toUntyped, Untyped.json, nesting, nesting, nesting_itemsToUntyped items]
  | object members => by
      rw [toUntyped, Untyped.json, nesting, nesting, nesting_membersToUntyped members]

theorem nesting_itemsToUntyped : ∀ vs : List Json,
    itemNesting (Untyped.jsonItems (itemsToUntyped vs)) = itemNesting vs
  | [] => rfl
  | v :: vs => by
      rw [itemsToUntyped, Untyped.jsonItems, itemNesting, itemNesting, nesting_toUntyped v,
        nesting_itemsToUntyped vs]

theorem nesting_membersToUntyped : ∀ ms : List (String × Json),
    memberNesting (Untyped.jsonMembers (membersToUntyped ms)) = memberNesting ms
  | [] => rfl
  | (_, v) :: ms => by
      rw [membersToUntyped, Untyped.jsonMembers, memberNesting, memberNesting,
        nesting_toUntyped v, nesting_membersToUntyped ms]

end

end Json

end Marshal
