import Mathlib.Data.List.Forall2
import Marshal.Node
import Marshal.Proofs.Members
import Marshal.Proofs.Text.Blank

/-!
Going down a JSON document. Where the depth allows it, an object has a node for each member and an
array one for each item.
-/

namespace Marshal

theorem mapM_eq_pure {m : Type → Type} [Monad m] [LawfulMonad m] {α β : Type} {f : α → m β}
    {as : List α} {bs : List β} (h : List.Forall₂ (fun a b => f a = pure b) as bs) :
    as.mapM f = pure bs := by
  induction h with
  | nil => rfl
  | cons hab _ ih =>
      rw [List.mapM_cons, hab, ih]
      simp

theorem exists_of_forall₂_of_mem {α β : Type} {R : α → β → Prop} {as : List α} {bs : List β}
    (h : List.Forall₂ R as bs) {a : α} (ha : a ∈ as) : ∃ b ∈ bs, R a b := by
  induction h with
  | nil => cases ha
  | @cons a' b as bs hab _ ih =>
      rcases List.mem_cons.mp ha with rfl | ha
      · exact ⟨b, List.mem_cons_self, hab⟩
      · obtain ⟨b', hb', hR⟩ := ih ha
        exact ⟨b', List.mem_cons_of_mem b hb', hR⟩

theorem exists_of_map_ok {ε α β : Type} {f : α → β} {r : Except ε α} {b : β}
    (h : f <$> r = .ok b) : ∃ a, r = .ok a ∧ f a = b := by
  cases r with
  | error e => cases h
  | ok a =>
      cases h
      exact ⟨a, rfl, rfl⟩

theorem forall₂_of_mapM_ok {ε α β : Type} {f : α → Except ε β} {as : List α} {bs : List β}
    (h : as.mapM f = .ok bs) : List.Forall₂ (fun a b => f a = .ok b) as bs := by
  induction as generalizing bs with
  | nil =>
      cases h
      exact .nil
  | cons a as ih =>
      rw [List.mapM_cons] at h
      cases ha : f a with
      | error e => simp [ha, bind, Except.bind] at h
      | ok b =>
          rw [ha] at h
          obtain ⟨cs, hcs, rfl⟩ := exists_of_map_ok (f := (b :: ·)) h
          exact .cons ha (ih hcs)

theorem eq_map_of_mapM_ok {ε α β : Type} {f : α → Except ε β} {g : α → β}
    (hf : ∀ a b, f a = .ok b → b = g a) {as : List α} {bs : List β} (h : as.mapM f = .ok bs) :
    bs = as.map g := by
  have hall := forall₂_of_mapM_ok h
  clear h
  induction hall with
  | nil => rfl
  | cons hab _ ih => rw [List.map_cons, hf _ _ hab, ih]

namespace Json

mutual

def depth : Json → Nat
  | array items => depthItems items
  | object members => depthMembers members
  | _ => 0

def depthItems : List Json → Nat
  | [] => 0
  | v :: vs => max (depth v + 1) (depthItems vs)

def depthMembers : List (String × Json) → Nat
  | [] => 0
  | (_, v) :: ms => max (depth v + 1) (depthMembers ms)

end

theorem depth_lt_depthMembers {m : String × Json} {ms : List (String × Json)} (h : m ∈ ms) :
    m.2.depth < depthMembers ms := by
  induction ms with
  | nil => cases h
  | cons m' ms ih =>
      obtain ⟨k, v⟩ := m'
      rw [depthMembers]
      rcases List.mem_cons.mp h with rfl | h
      · exact Nat.le_max_left ..
      · exact Nat.lt_of_lt_of_le (ih h) (Nat.le_max_right ..)

theorem depth_lt_depthItems {v : Json} {vs : List Json} (h : v ∈ vs) : v.depth < depthItems vs := by
  induction vs with
  | nil => cases h
  | cons v' vs ih =>
      rw [depthItems]
      rcases List.mem_cons.mp h with rfl | h
      · exact Nat.le_max_left ..
      · exact Nat.lt_of_lt_of_le (ih h) (Nat.le_max_right ..)

theorem depthItems_eq (vs : List Json) : depthItems vs = (vs.map (·.depth + 1)).foldr max 0 := by
  induction vs with
  | nil => rfl
  | cons v vs ih => rw [depthItems, ih, List.map_cons, List.foldr_cons]

theorem rank_le_rankMembers {m : String × Json} {ms : List (String × Json)} (h : m ∈ ms) :
    m.2.rank ≤ rankMembers ms := by
  induction ms with
  | nil => cases h
  | cons m' ms ih =>
      obtain ⟨k, v⟩ := m'
      rw [rankMembers]
      rcases List.mem_cons.mp h with rfl | h
      · exact Nat.le_max_left ..
      · exact Nat.le_trans (ih h) (Nat.le_max_right ..)

theorem rank_le_rankItems {v : Json} {vs : List Json} (h : v ∈ vs) : v.rank ≤ rankItems vs := by
  induction vs with
  | nil => cases h
  | cons v' vs ih =>
      rw [rankItems]
      rcases List.mem_cons.mp h with rfl | h
      · exact Nat.le_max_left ..
      · exact Nat.le_trans (ih h) (Nat.le_max_right ..)

theorem membersToUntyped_eq (ms : Members Json) :
    membersToUntyped ms = ms.mapValues toUntyped := by
  induction ms with
  | nil => rfl
  | cons m ms ih => rw [membersToUntyped, ih, Members.mapValues, Members.mapValues, List.map_cons]

end Json

namespace JsonNode

def below (n : JsonNode) (step : String) (value : Json) : JsonNode :=
  { n with value, steps := n.steps ++ [step] }

@[simp] theorem value_below (n : JsonNode) (step : String) (v : Json) :
    (n.below step v).value = v := rfl

@[simp] theorem maxDepth_below (n : JsonNode) (step : String) (v : Json) :
    (n.below step v).maxDepth = n.maxDepth := rfl

@[simp] theorem length_steps_below (n : JsonNode) (step : String) (v : Json) :
    (n.below step v).steps.length = n.steps.length + 1 := by
  simp [below]

def Room (n : JsonNode) (k : Nat) : Prop :=
  n.steps.length + k ≤ n.maxDepth

theorem Room.mono {n : JsonNode} {k l : Nat} (h : n.Room l) (hk : k ≤ l) : n.Room k := by
  rw [Room] at h ⊢
  omega

theorem Room.below {n : JsonNode} {k : Nat} (h : n.Room (k + 1)) (step : String) (v : Json) :
    (n.below step v).Room k := by
  rw [Room] at h ⊢
  rw [length_steps_below, maxDepth_below]
  omega

def left (n : JsonNode) : Nat :=
  n.maxDepth - n.steps.length

theorem left_below (n : JsonNode) (step : String) (v : Json) :
    (n.below step v).left = n.left - 1 := by
  rw [left, left, length_steps_below, maxDepth_below]
  omega

theorem Room.le_left {n : JsonNode} {k : Nat} (h : n.Room k) : k ≤ n.left := by
  rw [Room] at h
  rw [left]
  omega

theorem left_eq_zero {n : JsonNode} (h : ¬ n.Room 1) : n.left = 0 := by
  rw [Room] at h
  rw [left]
  omega

theorem child_eq {n : JsonNode} {k : Nat} (h : n.Room (k + 1)) (step : String) (v : Json) :
    n.child step v = .ok (n.below step v) := by
  rw [Room] at h
  have hlen : ¬ n.maxDepth < (n.steps ++ [step]).length := by
    rw [List.length_append, List.length_singleton]
    omega
  simp only [child, if_neg hlen]
  rfl

theorem eq_below_of_child {n c : JsonNode} {step : String} {v : Json}
    (h : n.child step v = .ok c) : c = n.below step v := by
  simp only [child] at h
  split_ifs at h
  cases h
  rfl

theorem members?_eq {n : JsonNode} {members : List (String × Json)} (hn : n.value = .object members)
    (h : members ≠ [] → n.Room 1) :
    n.members? = .ok (some (members.map fun m => (m.1, n.below m.1 m.2))) := by
  have hchildren : (members.mapM fun m => (n.child m.1 m.2).map fun c => (m.1, c)) =
      .ok (members.map fun m => (m.1, n.below m.1 m.2)) := by
    refine mapM_eq_pure (List.forall₂_map_right_iff.mpr (List.forall₂_same.mpr fun m hm => ?_))
    rw [child_eq (h (List.ne_nil_of_mem hm))]
    rfl
  rw [members?, hn]
  exact congrArg (Except.map some) hchildren

def itemsBelow (n : JsonNode) (start : Nat) (items : List Json) : List JsonNode :=
  (items.zipIdx start).map fun item => n.below (natText item.2) item.1

theorem exists_of_mem_itemsBelow {n c : JsonNode} {start : Nat} {items : List Json}
    (h : c ∈ n.itemsBelow start items) : ∃ step, ∃ v ∈ items, c = n.below step v := by
  obtain ⟨⟨v, i⟩, hitem, rfl⟩ := List.mem_map.mp h
  exact ⟨_, v, List.fst_mem_of_mem_zipIdx hitem, rfl⟩

theorem values_itemsBelow (n : JsonNode) (start : Nat) (items : List Json) :
    (n.itemsBelow start items).map (·.value) = items := by
  simp [itemsBelow, Function.comp_def]

theorem elements?_eq {n : JsonNode} {items : List Json} (hn : n.value = .array items)
    (h : items ≠ [] → n.Room 1) : n.elements? = .ok (some (n.itemsBelow 0 items)) := by
  have hchildren : (items.zipIdx.mapM fun (v, i) => n.child (natText i) v) =
      .ok (n.itemsBelow 0 items) := by
    refine mapM_eq_pure (List.forall₂_map_right_iff.mpr
      (List.forall₂_same.mpr fun item hitem => ?_))
    have hne : items ≠ [] := by
      rintro rfl
      cases hitem
    exact child_eq (h hne) ..
  rw [elements?, hn]
  exact congrArg (Except.map some) hchildren

/-- An object is read with a node for each member, or not at all. -/
theorem members?_ok {n : JsonNode} {found : Option (Members JsonNode)}
    (h : n.members? = .ok found) :
    (n.value = .null ∧ found = none) ∨ ∃ members, n.value = .object members ∧
      found = some (members.map fun m => (m.1, n.below m.1 m.2)) := by
  rw [members?] at h
  cases hv : n.value with
  | null =>
      rw [hv] at h
      cases h
      exact .inl ⟨rfl, rfl⟩
  | object members =>
      rw [hv] at h
      obtain ⟨children, hchildren, rfl⟩ := exists_of_map_ok h
      refine .inr ⟨members, rfl, congrArg some (eq_map_of_mapM_ok (fun m c hc => ?_) hchildren)⟩
      obtain ⟨d, hd, rfl⟩ := exists_of_map_ok hc
      rw [eq_below_of_child hd]
  | _ =>
      rw [hv] at h
      cases h

/-- An array is read with a node for each item, or not at all. -/
theorem elements?_ok {n : JsonNode} {found : Option (List JsonNode)}
    (h : n.elements? = .ok found) :
    (n.value = .null ∧ found = none) ∨ ∃ items, n.value = .array items ∧
      found = some (n.itemsBelow 0 items) := by
  rw [elements?] at h
  cases hv : n.value with
  | null =>
      rw [hv] at h
      cases h
      exact .inl ⟨rfl, rfl⟩
  | array items =>
      rw [hv] at h
      obtain ⟨children, hchildren, rfl⟩ := exists_of_map_ok h
      exact .inr ⟨items, rfl, congrArg some (eq_map_of_mapM_ok
        (fun _ _ hc => eq_below_of_child hc) hchildren)⟩
  | _ =>
      rw [hv] at h
      cases h

theorem child_tooDeep {n : JsonNode} (hroom : ¬ n.Room 1) (step : String) (v : Json) :
    n.child step v =
      .error (.parse (Json.Pointer.text (n.steps ++ [step])) (.tooDeep n.maxDepth)) := by
  rw [Room, Nat.not_le] at hroom
  rw [child, List.length_append, List.length_singleton, if_pos hroom]

theorem members?_tooDeep {n : JsonNode} {p : String × Json} {ms : Members Json}
    (hn : n.value = .object (p :: ms)) (hroom : ¬ n.Room 1) :
    n.members? = .error (.parse (Json.Pointer.text (n.steps ++ [p.1])) (.tooDeep n.maxDepth)) := by
  rw [members?, hn]
  simp only [List.mapM_cons, child_tooDeep hroom]
  rfl

theorem elements?_tooDeep {n : JsonNode} {v : Json} {vs : List Json}
    (hn : n.value = .array (v :: vs)) (hroom : ¬ n.Room 1) :
    n.elements? =
      .error (.parse (Json.Pointer.text (n.steps ++ [natText 0])) (.tooDeep n.maxDepth)) := by
  rw [elements?, hn]
  simp only [List.zipIdx_cons, List.mapM_cons, child_tooDeep hroom]
  rfl

theorem room_of_child {n c : JsonNode} {step : String} {v : Json} (h : n.child step v = .ok c) :
    n.Room 1 := by
  by_contra hroom
  rw [child_tooDeep hroom] at h
  cases h

/-- An object with members is only read where there is room for them. -/
theorem room_of_members?_ok {n : JsonNode} {members : List (String × Json)}
    {found : Option (Members JsonNode)} (hn : n.value = .object members)
    (h : n.members? = .ok found) (hne : members ≠ []) : n.Room 1 := by
  obtain ⟨m, ms, rfl⟩ := List.exists_cons_of_ne_nil hne
  by_contra hroom
  rw [members?_tooDeep hn hroom] at h
  cases h

theorem room_of_elements?_ok {n : JsonNode} {items : List Json} {found : Option (List JsonNode)}
    (hn : n.value = .array items) (h : n.elements? = .ok found) (hne : items ≠ []) : n.Room 1 := by
  obtain ⟨v, vs, rfl⟩ := List.exists_cons_of_ne_nil hne
  by_contra hroom
  rw [elements?_tooDeep hn hroom] at h
  cases h

theorem forall₂_itemsBelow {β : Type} {R : JsonNode → β → Prop} {n : JsonNode} {items : List Json}
    {values : List β} (h : List.Forall₂ (fun v b => ∀ step, R (n.below step v) b) items values)
    (start : Nat) : List.Forall₂ R (n.itemsBelow start items) values := by
  induction h generalizing start with
  | nil => exact .nil
  | cons hv _ ih => exact .cons (hv _) (ih (start + 1))

end JsonNode

namespace Node

theorem members?_json {n : JsonNode} {members : List (String × Json)}
    (hn : n.value = .object members) (h : members ≠ [] → n.Room 1) :
    (json n).members? = .ok (some (members.map fun m => (m.1, json (n.below m.1 m.2)))) := by
  rw [Node.members?, JsonNode.members?_eq hn h]
  simp [bind, Except.bind, pure, Except.pure]

theorem elements?_json {n : JsonNode} {items : List Json} (hn : n.value = .array items)
    (h : items ≠ [] → n.Room 1) :
    (json n).elements? = .ok (some ((n.itemsBelow 0 items).map json)) := by
  rw [Node.elements?, JsonNode.elements?_eq hn h]
  rfl

theorem members?_json_ok {n : JsonNode} {found : Option (Members Node)}
    (h : (json n).members? = .ok found) :
    (n.value = .null ∧ found = none) ∨ ∃ members, n.value = .object members ∧
      found = some (members.map fun m => (m.1, json (n.below m.1 m.2))) := by
  obtain ⟨children, hchildren, rfl⟩ := exists_of_map_ok h
  rcases JsonNode.members?_ok hchildren with ⟨hv, rfl⟩ | ⟨members, hv, rfl⟩
  · exact .inl ⟨hv, rfl⟩
  · exact .inr ⟨members, hv, by simp⟩

theorem room_of_members?_json {n : JsonNode} {members : List (String × Json)}
    {found : Option (Members Node)} (hn : n.value = .object members)
    (h : (json n).members? = .ok found) (hne : members ≠ []) : n.Room 1 := by
  obtain ⟨children, hchildren, -⟩ := exists_of_map_ok h
  exact JsonNode.room_of_members?_ok hn hchildren hne

theorem room_of_elements?_json {n : JsonNode} {items : List Json} {found : Option (List Node)}
    (hn : n.value = .array items) (h : (json n).elements? = .ok found) (hne : items ≠ []) :
    n.Room 1 := by
  obtain ⟨children, hchildren, -⟩ := exists_of_map_ok h
  exact JsonNode.room_of_elements?_ok hn hchildren hne

theorem elements?_json_ok {n : JsonNode} {found : Option (List Node)}
    (h : (json n).elements? = .ok found) :
    (n.value = .null ∧ found = none) ∨ ∃ items, n.value = .array items ∧
      found = some ((n.itemsBelow 0 items).map json) := by
  obtain ⟨children, hchildren, rfl⟩ := exists_of_map_ok h
  rcases JsonNode.elements?_ok hchildren with ⟨hv, rfl⟩ | ⟨items, hv, rfl⟩
  · exact .inl ⟨hv, rfl⟩
  · exact .inr ⟨items, hv, rfl⟩

theorem child?_of_not_object {n : JsonNode} (hobject : ∀ ms, n.value ≠ .object ms) (key : String) :
    (json n).child? key = .ok none := by
  rw [Node.child?, JsonNode.child?]
  cases hn : n.value with
  | object ms => exact absurd hn (hobject ms)
  | _ => rfl

theorem child?_object {n : JsonNode} {ms : Members Json} (hn : n.value = .object ms)
    (key : String) :
    (json n).child? key =
      match ms.get? key with
      | some v => (n.child key v).map (some ∘ json)
      | none => .ok none := by
  rw [Node.child?, JsonNode.child?, hn]
  dsimp only
  cases ms.get? key with
  | none => rfl
  | some v =>
      cases hchild : n.child key v <;>
        simp [hchild, Except.map, bind, Except.bind, pure, Except.pure]

/-- A step down goes to a node right below, and there is room for it. -/
theorem step?_json_ok {n : JsonNode} {s : Step} {m : Node} (h : (json n).step? s = .ok (some m)) :
    n.Room 1 ∧ ∃ step v, m = json (n.below step v) := by
  cases s with
  | child key =>
      rw [step?] at h
      by_cases hobject : ∃ ms, n.value = .object ms
      · obtain ⟨ms, hms⟩ := hobject
        rw [child?_object hms] at h
        cases hget : Members.get? ms key with
        | none => simp [hget] at h
        | some v =>
            rw [hget] at h
            obtain ⟨c, hchild, hc⟩ := exists_of_map_ok h
            obtain rfl := JsonNode.eq_below_of_child hchild
            exact ⟨JsonNode.room_of_child hchild, key, v, (Option.some.inj hc).symm⟩
      · rw [child?_of_not_object fun ms hms => hobject ⟨ms, hms⟩] at h
        cases h
  | element i =>
      obtain ⟨found, hfound, hm⟩ := exists_of_map_ok h
      rcases elements?_json_ok hfound with ⟨-, rfl⟩ | ⟨items, hitems, rfl⟩
      · cases hm
      · obtain ⟨c, hc, rfl⟩ := List.mem_map.mp (List.mem_of_getElem? hm)
        obtain ⟨step, v, hv, rfl⟩ := JsonNode.exists_of_mem_itemsBelow hc
        exact ⟨room_of_elements?_json hitems hfound (List.ne_nil_of_mem hv), step, v, rfl⟩
  | member key =>
      obtain ⟨found, hfound, hm⟩ := exists_of_map_ok h
      rcases members?_json_ok hfound with ⟨-, rfl⟩ | ⟨ms, hms, rfl⟩
      · cases hm
      · obtain ⟨p, hp, hpm⟩ := List.mem_map.mp (Members.mem_of_get? hm)
        obtain ⟨-, rfl⟩ := Prod.mk.inj hpm
        exact ⟨room_of_members?_json hms hfound (List.ne_nil_of_mem hp), p.1, p.2, rfl⟩

/-- However far down one goes, no node is past the limit. -/
theorem follow?_json_ok {n : JsonNode} {steps : List Step} {m : Node} (hroom : n.Room 0)
    (h : follow? steps (json n) = .ok (some m)) :
    ∃ k : JsonNode, m = json k ∧ k.Room 0 ∧ k.maxDepth = n.maxDepth := by
  induction steps generalizing n with
  | nil =>
      cases h
      exact ⟨n, rfl, hroom, rfl⟩
  | cons s steps ih =>
      cases hstep : (json n).step? s with
      | error e => simp [follow?, hstep, bind, Except.bind] at h
      | ok found =>
          cases found with
          | none => simp [follow?, hstep, bind, Except.bind, pure, Except.pure] at h
          | some c =>
              simp only [follow?, hstep, bind, Except.bind] at h
              obtain ⟨hone, step, v, rfl⟩ := step?_json_ok hstep
              exact ih (n := n.below step v) (hone.below step v) h

end Node

end Marshal
