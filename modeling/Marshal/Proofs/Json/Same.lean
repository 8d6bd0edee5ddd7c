import Mathlib.Data.List.Forall2
import Mathlib.Data.List.Nodup
import Marshal.Json.Value
import Marshal.Proofs.Members

/-!
Documents that differ only in the order of members, at any depth.
-/

namespace Marshal

namespace Json

mutual

/-- The same value but for the order of the members of every object in it. -/
def Same : Json → Json → Prop
  | array vs, w => ∃ ws, w = array ws ∧ SameItems vs ws
  | object ms, w => ∃ ns ns', w = object ns ∧ ns.Perm ns' ∧ SameMembers ms ns'
  | null, w => w = null
  | bool b, w => w = bool b
  | number t, w => w = number t
  | string s, w => w = string s

def SameItems : List Json → List Json → Prop
  | [], [] => True
  | v :: vs, w :: ws => Same v w ∧ SameItems vs ws
  | _, _ => False

def SameMembers : List (String × Json) → List (String × Json) → Prop
  | [], [] => True
  | (k, v) :: ms, (l, w) :: ns => k = l ∧ Same v w ∧ SameMembers ms ns
  | _, _ => False

end

theorem sameItems_iff {vs ws : List Json} : SameItems vs ws ↔ List.Forall₂ Same vs ws := by
  induction vs generalizing ws with
  | nil => cases ws <;> simp [SameItems]
  | cons v vs ih => cases ws <;> simp [SameItems, ih]

theorem sameMembers_iff {ms ns : List (String × Json)} :
    SameMembers ms ns ↔ List.Forall₂ (fun m n => m.1 = n.1 ∧ Same m.2 n.2) ms ns := by
  induction ms generalizing ns with
  | nil => cases ns <;> simp [SameMembers]
  | cons m ms ih => cases ns <;> simp [SameMembers, ih, and_assoc]

theorem same_array {vs ws : List Json} (h : List.Forall₂ Same vs ws) :
    Same (array vs) (array ws) :=
  ⟨ws, rfl, sameItems_iff.mpr h⟩

/-- Objects without repeated names are the same if they have the same names, and the same value
under each. -/
theorem same_object {ms ns : Members Json} (hm : ms.keys.Nodup) (hn : ns.keys.Nodup)
    (hkeys : ∀ key ∈ ns.keys, key ∈ ms.keys)
    (hvalues : ∀ m ∈ ms, ∃ w, ns.get? m.1 = some w ∧ Same m.2 w) :
    Same (object ms) (object ns) := by
  -- The second object in the order of the first
  let sorted : Members Json := ms.map fun m => (m.1, (ns.get? m.1).getD null)
  refine ⟨ns, sorted, rfl, ?_, ?_⟩
  · have hsorted : sorted.keys.Nodup := by
      simpa [sorted, Members.keys, Function.comp_def] using hm
    refine (List.perm_ext_iff_of_nodup (List.Nodup.of_map _ hn)
      (List.Nodup.of_map _ hsorted)).mpr fun p => ?_
    constructor
    · intro hp
      obtain ⟨m, hmem, hkey⟩ := List.mem_map.mp (hkeys p.1 (List.mem_map_of_mem hp))
      refine List.mem_map.mpr ⟨m, hmem, ?_⟩
      rw [hkey, Members.get?_of_mem hn hp, Option.getD_some]
    · intro hp
      obtain ⟨m, hmem, rfl⟩ := List.mem_map.mp hp
      obtain ⟨w, hw, -⟩ := hvalues m hmem
      rw [hw, Option.getD_some]
      exact Members.mem_of_get? hw
  · refine sameMembers_iff.mpr (List.forall₂_map_right_iff.mpr (List.forall₂_same.mpr ?_))
    intro m hmem
    obtain ⟨w, hw, hsame⟩ := hvalues m hmem
    exact ⟨rfl, by rwa [hw]⟩

end Json

end Marshal
