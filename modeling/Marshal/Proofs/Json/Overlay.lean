import Marshal.Json.Value
import Marshal.Proofs.Members

/-!
A partial document laid over a whole one.
-/

namespace Marshal

namespace Json

mutual

/-- Objects are merged member by member, arrays of one length item by item, and anything else gives
way to what is laid over it. -/
def overlay : Json → Json → Json
  | object base, object members => object (overlayMembers base members)
  | array base, array items =>
    if base.length = items.length then array (overlayItems base items) else array items
  | _, v => v

def overlayMembers : Members Json → List (String × Json) → Members Json
  | base, [] => base
  | base, (k, v) :: ms =>
    overlayMembers (base.put k ((base.get? k).elim v fun b => overlay b v)) ms

def overlayItems : List Json → List Json → List Json
  | b :: bs, v :: vs => overlay b v :: overlayItems bs vs
  | _, vs => vs

end

theorem get?_overlayMembers {base ms : Members Json} (h : ms.keys.Nodup) (key : String) :
    (overlayMembers base ms).get? key =
      match ms.get? key with
      | some v => some ((base.get? key).elim v fun b => overlay b v)
      | none => base.get? key := by
  induction ms generalizing base with
  | nil => rfl
  | cons m ms ih =>
      obtain ⟨k, v⟩ := m
      obtain ⟨hk, hms⟩ := List.nodup_cons.mp h
      rw [overlayMembers, ih hms, show Members.get? ((k, v) :: ms) key = _ from List.lookup_cons]
      by_cases hkey : key = k
      · -- No later member has this name.
        subst hkey
        rw [Members.get?_eq_none_iff.mpr hk, beq_self_eq_true]
        exact Members.get?_put_self ..
      · rw [Members.get?_put_of_ne hkey, beq_eq_false_iff_ne.mpr hkey]
        rfl

theorem nodup_keys_overlayMembers {base : Members Json} (h : base.keys.Nodup)
    (ms : Members Json) : (overlayMembers base ms).keys.Nodup := by
  induction ms generalizing base with
  | nil => exact h
  | cons m ms ih => exact ih (Members.nodup_keys_put h ..)

theorem mem_keys_overlayMembers {base ms : Members Json} (h : ms.keys.Nodup) {key : String} :
    key ∈ (overlayMembers base ms).keys ↔ key ∈ base.keys ∨ key ∈ ms.keys := by
  have hmem (m : Members Json) : key ∈ m.keys ↔ m.get? key ≠ none := by
    rw [ne_eq, Members.get?_eq_none_iff, not_not]
  rw [hmem, hmem, hmem, get?_overlayMembers h]
  cases ms.get? key <;> simp

end Json

end Marshal
