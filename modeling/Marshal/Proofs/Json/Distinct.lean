import Marshal.Proofs.Json.Reader

/-!
Names within an object. Nothing that is read from a text has an object that repeats a name: the
reader keeps the first place of a name and its last value.
-/

namespace Marshal

namespace Json

mutual

/-- No object repeats a name. -/
def Distinct : Json → Prop
  | array items => DistinctItems items
  | object members => (Members.keys members).Nodup ∧ DistinctMembers members
  | _ => True

def DistinctItems : List Json → Prop
  | [] => True
  | v :: vs => v.Distinct ∧ DistinctItems vs

def DistinctMembers : List (String × Json) → Prop
  | [] => True
  | (_, v) :: ms => v.Distinct ∧ DistinctMembers ms

end

theorem distinctMembers_iff {ms : List (String × Json)} :
    DistinctMembers ms ↔ ∀ m ∈ ms, m.2.Distinct := by
  induction ms with
  | nil => simp [DistinctMembers]
  | cons m ms ih => rw [DistinctMembers, ih, List.forall_mem_cons]

theorem distinct_array_iff {items : List Json} :
    (array items).Distinct ↔ ∀ v ∈ items, v.Distinct := by
  rw [Distinct]
  induction items with
  | nil => simp [DistinctItems]
  | cons v vs ih => rw [DistinctItems, ih, List.forall_mem_cons]

theorem distinct_object_iff {members : Members Json} :
    (object members).Distinct ↔ members.keys.Nodup ∧ ∀ m ∈ members, m.2.Distinct := by
  rw [Distinct, distinctMembers_iff]

theorem Distinct.put {members : Members Json} (h : (object members).Distinct) (key : String)
    {v : Json} (hv : v.Distinct) : (object (members.put key v)).Distinct := by
  rw [distinct_object_iff] at h ⊢
  refine ⟨Members.nodup_keys_put h.1 key v, fun m hm => ?_⟩
  rcases Members.mem_put hm with rfl | hm
  · exact hv
  · exact h.2 m hm

theorem builds_distinct (limit : Nat) : Builds limit fun _ => Distinct where
  scalar _ v _ hv := by
    cases v with
    | array items => cases hv
    | object members => cases hv
    | _ => trivial
  array _ _ _ := distinct_array_iff.mpr
  object _ _ := distinct_object_iff.mpr ⟨.nil, List.forall_mem_nil _⟩
  put _ _ key _ hmembers hv _ := Distinct.put hmembers key hv

/-- No object of a document that was read repeats a name: the value that comes last is kept. -/
theorem distinct_of_ofString? {s : String} {v : Json} (h : ofString? s = some v) : v.Distinct :=
  kept_of_ofString? (builds_distinct nestingLimit) h

end Json

end Marshal
