import Marshal.Proofs.Json.Distinct
import Marshal.Proofs.Json.Getters
import Marshal.Proofs.Json.Same
import Marshal.Proofs.Reading.Agree

/-!
Nodes at one place of two documents that differ only in the order of members. What is read from them
is the same, or fails from both.
-/

namespace Marshal

theorem forall₂_mem {α β : Type} {R : α → β → Prop} {as : List α} {bs : List β}
    (h : List.Forall₂ R as bs) : List.Forall₂ (fun a b => R a b ∧ a ∈ as ∧ b ∈ bs) as bs :=
  List.forall₂_iff_zip.mpr
    ⟨h.length_eq, fun hab => ⟨List.forall₂_zip h hab, List.of_mem_zip hab⟩⟩

namespace Json

/-! ### Ranks -/

theorem rankMembers_perm {ms ns : List (String × Json)} (h : ms.Perm ns) :
    rankMembers ms = rankMembers ns := by
  induction h with
  | nil => rfl
  | cons m _ ih => rw [rankMembers, rankMembers, ih]
  | swap m n ms => simp only [rankMembers, Nat.max_left_comm]
  | trans _ _ ih ih' => exact ih.trans ih'

mutual

theorem rank_eq_of_same : ∀ {v w : Json}, v.Same w → v.rank = w.rank
  | array vs, _, h => by
      obtain ⟨ws, rfl, h⟩ := h
      exact rankItems_eq_of_same h
  | object ms, _, h => by
      obtain ⟨ns, ns', rfl, hperm, h⟩ := h
      rw [rank, rank, rankMembers_perm hperm, rankMembers_eq_of_same h]
  | null, _, h | bool _, _, h | number _, _, h | string _, _, h => by rw [Same] at h; rw [h]

theorem rankItems_eq_of_same : ∀ {vs ws : List Json}, SameItems vs ws →
    rankItems vs = rankItems ws
  | [], [], _ => rfl
  | v :: vs, w :: ws, h => by
      rw [SameItems] at h
      rw [rankItems, rankItems, rank_eq_of_same h.1, rankItems_eq_of_same h.2]

theorem rankMembers_eq_of_same : ∀ {ms ns : List (String × Json)}, SameMembers ms ns →
    rankMembers ms = rankMembers ns
  | [], [], _ => rfl
  | (_, v) :: ms, (_, w) :: ns, h => by
      rw [SameMembers] at h
      rw [rankMembers, rankMembers, rank_eq_of_same h.2.1, rankMembers_eq_of_same h.2.2]

end

theorem Same.eq_or_containers {v w : Json} (h : v.Same w) :
    v = w ∨ v.isContainer = true ∧ w.isContainer = true := by
  cases v with
  | array vs =>
      obtain ⟨ws, rfl, -⟩ := h
      exact .inr ⟨rfl, rfl⟩
  | object ms =>
      obtain ⟨ns, -, rfl, -⟩ := h
      exact .inr ⟨rfl, rfl⟩
  | _ =>
      rw [Same] at h
      exact .inl h.symm

/-! ### Members of the same name -/

section

variable {ms ns : Members Json}

theorem perm_keys_of_same (h : (object ms).Same (object ns)) : (Members.keys ms).Perm ns.keys := by
  obtain ⟨_, ns', hns, hperm, hsame⟩ := h
  cases hns
  have hkeys : ms.keys = Members.keys ns' :=
    Members.keys_eq_of_forall₂ (sameMembers_iff.mp hsame) fun _ _ h => h.1
  rw [hkeys]
  exact (hperm.map Prod.fst).symm

theorem rel_get?_of_same (h : (object ms).Same (object ns)) (hns : ns.keys.Nodup) (key : String) :
    Option.Rel Same (ms.get? key) (ns.get? key) := by
  obtain ⟨_, ns', he, hperm, hsame⟩ := h
  cases he
  have hrel : Option.Rel Same (ms.get? key) (Members.get? ns' key) := by
    have hpairs := sameMembers_iff.mp hsame
    clear hsame hperm
    induction hpairs with
    | nil => exact .none
    | @cons m n ms ns' hmn _ ih =>
        obtain ⟨k, v⟩ := m
        obtain ⟨l, w⟩ := n
        obtain ⟨rfl, hvw⟩ : k = l ∧ Same v w := hmn
        simp only [Members.get?, List.lookup_cons] at ih ⊢
        cases key == k with
        | true => exact .some hvw
        | false => exact ih
  rwa [← Members.get?_perm hns hperm] at hrel

end

/-! ### Undeclared values -/

theorem same_numberToUntyped (t : String) :
    (numberToUntyped t).same (numberToUntyped t) = true := by
  rw [numberToUntyped]
  cases integer? t with
  | some i => simp [Untyped.same]
  | none =>
      cases hx : double? t with
      | none => rfl
      | some x =>
          -- Only what is no number differs from itself, and numbers that are read are finite.
          have hfinite := (Option.filter_eq_some_iff.mp hx).2
          rw [Double.isFinite] at hfinite
          cases hreading : x.reading with
          | finite negative k q => cases k <;> simp [Untyped.same, Double.same, hreading]
          | _ => simp [hreading] at hfinite

theorem exists_of_same {ms ns : Members Json} (h : (object ms).Same (object ns))
    (hms : ms.keys.Nodup) (hns : ns.keys.Nodup) {m : String × Json} (hm : m ∈ ms) :
    ∃ w, ns.get? m.1 = some w ∧ m.2.Same w := by
  have hrel := rel_get?_of_same h hns m.1
  rw [Members.get?_of_mem hms hm] at hrel
  cases hget : ns.get? m.1 with
  | none =>
      rw [hget] at hrel
      cases hrel
  | some w =>
      rw [hget] at hrel
      cases hrel with
      | some hsame => exact ⟨w, rfl, hsame⟩

mutual

theorem same_toUntyped : ∀ {v w : Json}, v.Same w → v.Distinct → w.Distinct →
    v.toUntyped.same w.toUntyped = true
  | null, _, h, _, _ => by rw [Same] at h; rw [h]; rfl
  | bool b, _, h, _, _ => by rw [Same] at h; simp [h, toUntyped, Untyped.same]
  | number t, _, h, _, _ => by rw [Same] at h; rw [h]; exact same_numberToUntyped t
  | string s, _, h, _, _ => by rw [Same] at h; simp [h, toUntyped, Untyped.same]
  | array vs, _, h, hv, hw => by
      obtain ⟨ws, rfl, h⟩ := h
      rw [distinct_array_iff] at hv hw
      rw [toUntyped, toUntyped, Untyped.same]
      exact same_itemsToUntyped h hv hw
  | object ms, _, h, hv, hw => by
      obtain ⟨ns, rfl⟩ : ∃ ns, _ = object ns := ⟨_, h.choose_spec.choose_spec.1⟩
      have hlength : ms.length = ns.length := by
        simpa [Members.keys] using (perm_keys_of_same h).length_eq
      rw [distinct_object_iff] at hv hw
      rw [toUntyped, toUntyped, Untyped.same, Bool.and_eq_true, beq_iff_eq]
      refine ⟨by simp [membersToUntyped_eq, Members.mapValues, hlength], ?_⟩
      exact same_membersToUntyped (fun m hm => exists_of_same h hv.1 hw.1 hm) hv.2 hw.2

theorem same_itemsToUntyped : ∀ {vs ws : List Json}, SameItems vs ws → (∀ v ∈ vs, v.Distinct) →
    (∀ w ∈ ws, w.Distinct) →
    Untyped.sameItems (itemsToUntyped vs) (itemsToUntyped ws) = true
  | [], [], _, _, _ => rfl
  | v :: vs, w :: ws, h, hv, hw => by
      obtain ⟨hv, hvs⟩ := List.forall_mem_cons.mp hv
      obtain ⟨hw, hws⟩ := List.forall_mem_cons.mp hw
      rw [SameItems] at h
      rw [itemsToUntyped, itemsToUntyped, Untyped.sameItems, Bool.and_eq_true]
      exact ⟨same_toUntyped h.1 hv hw, same_itemsToUntyped h.2 hvs hws⟩

theorem same_membersToUntyped : ∀ {ms ns : Members Json},
    (∀ m ∈ ms, ∃ w, ns.get? m.1 = some w ∧ m.2.Same w) → (∀ m ∈ ms, m.2.Distinct) →
    (∀ n ∈ ns, n.2.Distinct) →
    Untyped.sameMembers (membersToUntyped ms) (membersToUntyped ns) = true
  | [], _, _, _, _ => rfl
  | (k, v) :: ms, ns, h, hv, hw => by
      obtain ⟨hfirst, hrest⟩ := List.forall_mem_cons.mp h
      obtain ⟨hv, hvs⟩ := List.forall_mem_cons.mp hv
      obtain ⟨w, hget, hsame⟩ := hfirst
      have hlookup : (membersToUntyped ns).lookup k = some w.toUntyped := by
        rw [membersToUntyped_eq]
        show Members.get? _ k = _
        rw [Members.get?_mapValues, hget, Option.map_some]
      rw [membersToUntyped, Untyped.sameMembers, hlookup, Bool.and_eq_true]
      exact ⟨same_toUntyped hsame hv (hw _ (Members.mem_of_get? hget)),
        same_membersToUntyped hrest hvs hw⟩

end

end Json

/-- Two nodes at one place with values that differ only in the order of members. -/
structure JsonNode.Twin (n m : JsonNode) : Prop where
  steps : n.steps = m.steps
  maxDepth : n.maxDepth = m.maxDepth
  same : n.value.Same m.value
  distinct : n.value.Distinct ∧ m.value.Distinct

namespace JsonNode

variable {n m : JsonNode}

theorem read?_container (k : Kind) {n : JsonNode} (hn : n.value.isContainer = true) :
    ∃ e, n.read? k = .error e := by
  cases hv : n.value <;> simp only [hv, Json.isContainer, Bool.false_eq_true] at hn <;>
    cases k <;> simp [read?, text?, bool?, narrow?, integer?, double?, decimal?, mismatch, hv,
      bind, Except.bind]

theorem Twin.read? (h : n.Twin m) (k : Kind) : Result.Agree Eq (n.read? k) (m.read? k) := by
  rcases h.same.eq_or_containers with hvalue | ⟨hn, hm⟩
  · rcases local_read? k n m hvalue with ⟨a, hn, hm⟩ | ⟨cause, hn, hm⟩ <;>
      dsimp only at hn hm <;> rw [hn, hm]
    · exact .ok rfl
    · exact .error ..
  · obtain ⟨e, hn⟩ := read?_container k hn
    obtain ⟨e', hm⟩ := read?_container k hm
    rw [hn, hm]
    exact .error ..

theorem Twin.below {v w : Json} (h : n.Twin m) (step : String) (hsame : v.Same w)
    (hdistinct : v.Distinct ∧ w.Distinct) : (n.below step v).Twin (m.below step w) :=
  ⟨by rw [JsonNode.below, JsonNode.below, h.steps], h.maxDepth, hsame, hdistinct⟩

theorem Twin.room_iff (h : n.Twin m) (k : Nat) : n.Room k ↔ m.Room k := by
  rw [Room, Room, h.steps, h.maxDepth]

theorem Twin.object {ms : Members Json} (h : n.Twin m) (hn : n.value = .object ms) :
    ∃ ns, m.value = .object ns ∧ (Json.object ms).Same (.object ns) ∧
      (Json.object ms).Distinct ∧ (Json.object ns).Distinct := by
  have hsame := h.same
  have hdistinct := h.distinct
  rw [hn] at hsame hdistinct
  obtain ⟨ns, ns', hm, hrest⟩ := hsame
  rw [hm] at hdistinct
  exact ⟨ns, hm, ⟨ns, ns', rfl, hrest⟩, hdistinct⟩

theorem Twin.array {vs : List Json} (h : n.Twin m) (hn : n.value = .array vs) :
    ∃ ws, m.value = .array ws ∧ List.Forall₂ Json.Same vs ws ∧
      (∀ v ∈ vs, v.Distinct) ∧ ∀ w ∈ ws, w.Distinct := by
  have hsame := h.same
  have hdistinct := h.distinct
  rw [hn] at hsame hdistinct
  obtain ⟨ws, hm, hitems⟩ := hsame
  rw [hm, Json.distinct_array_iff, Json.distinct_array_iff] at hdistinct
  exact ⟨ws, hm, Json.sameItems_iff.mp hitems, hdistinct⟩

end JsonNode

namespace Node

def Twin : Node → Node → Prop
  | json n, json m => n.Twin m
  | _, _ => False

theorem Twin.exists_json {n m : Node} (h : n.Twin m) :
    ∃ j k : JsonNode, n = json j ∧ m = json k ∧ j.Twin k := by
  cases n <;> cases m <;> first | exact h.elim | exact ⟨_, _, rfl, rfl, h⟩

def Rearranged (ms ns : Members Node) : Prop :=
  ms.keys.Nodup ∧ ∃ ns', ns'.Perm ns ∧
    List.Forall₂ (fun m n => m.1 = n.1 ∧ m.2.Twin n.2) ms ns'

variable {n m : JsonNode}

theorem rearranged_of_same {ms ns : Members Json} (h : n.Twin m)
    (hsame : (Json.object ms).Same (.object ns)) (hms : (Json.object ms).Distinct)
    (hns : (Json.object ns).Distinct) :
    Rearranged (ms.map fun p => (p.1, json (n.below p.1 p.2)))
      (ns.map fun p => (p.1, json (m.below p.1 p.2))) := by
  rw [Json.distinct_object_iff] at hms hns
  obtain ⟨_, ns', he, hperm, hmembers⟩ := hsame
  cases he
  refine ⟨?_, ns'.map fun p => (p.1, json (m.below p.1 p.2)), (hperm.map _).symm, ?_⟩
  · simpa [Members.keys, Function.comp_def] using hms.1
  · rw [List.forall₂_map_left_iff, List.forall₂_map_right_iff]
    have hdistinct : ∀ p ∈ ns', p.2.Distinct := fun p hp => hns.2 p (hperm.mem_iff.mpr hp)
    refine (forall₂_mem (Json.sameMembers_iff.mp hmembers)).imp ?_
    rintro ⟨k, v⟩ ⟨_, w⟩ ⟨⟨rfl, hvw⟩, hv, hw⟩
    exact ⟨rfl, h.below k hvw ⟨hms.2 _ hv, hdistinct _ hw⟩⟩

theorem members?_of_null (hn : n.value = .null) : (json n).members? = .ok none := by
  rw [Node.members?, JsonNode.members?, hn]
  rfl

theorem elements?_of_null (hn : n.value = .null) : (json n).elements? = .ok none := by
  rw [Node.elements?, JsonNode.elements?, hn]
  rfl

theorem exists_members?_error (hnull : n.value ≠ .null) (hobject : ∀ ms, n.value ≠ .object ms) :
    ∃ e, (json n).members? = .error e := by
  cases hr : (json n).members? with
  | error e => exact ⟨e, rfl⟩
  | ok found =>
      rcases members?_json_ok hr with ⟨hv, -⟩ | ⟨ms, hv, -⟩
      · exact absurd hv hnull
      · exact absurd hv (hobject ms)

theorem exists_elements?_error (hnull : n.value ≠ .null) (harray : ∀ vs, n.value ≠ .array vs) :
    ∃ e, (json n).elements? = .error e := by
  cases hr : (json n).elements? with
  | error e => exact ⟨e, rfl⟩
  | ok found =>
      rcases elements?_json_ok hr with ⟨hv, -⟩ | ⟨vs, hv, -⟩
      · exact absurd hv hnull
      · exact absurd hv (harray vs)

theorem agree_of_exists_error {α β : Type} {R : α → β → Prop} {r : Result α} {s : Result β}
    (hr : ∃ e, r = .error e) (hs : ∃ e, s = .error e) : Result.Agree R r s := by
  obtain ⟨e, rfl⟩ := hr
  obtain ⟨e', rfl⟩ := hs
  exact .error e e'

theorem Twin.members? (h : n.Twin m) :
    Result.Agree (Option.Rel Rearranged) (json n).members? (json m).members? := by
  have hsame := h.same
  cases hn : n.value with
  | null =>
      rw [hn, Json.Same] at hsame
      rw [members?_of_null hn, members?_of_null hsame]
      exact .ok .none
  | object ms =>
      obtain ⟨ns, hm, hobjects, hms, hns⟩ := h.object hn
      have hlength : ms.length = ns.length := by
        simpa [Members.keys] using (Json.perm_keys_of_same hobjects).length_eq
      by_cases hroom : n.Room 1
      · rw [members?_json hn fun _ => hroom, members?_json hm fun _ => (h.room_iff 1).mp hroom]
        exact .ok (.some (rearranged_of_same h hobjects hms hns))
      · cases ms with
        | nil =>
            obtain rfl := List.eq_nil_of_length_eq_zero hlength.symm
            rw [members?_json hn fun hne => absurd rfl hne,
              members?_json hm fun hne => absurd rfl hne]
            exact .ok (.some (rearranged_of_same h hobjects hms hns))
        | cons p ms =>
            obtain ⟨q, ns, rfl⟩ := List.exists_cons_of_length_eq_add_one hlength.symm
            rw [Node.members?, Node.members?, JsonNode.members?_tooDeep hn hroom,
              JsonNode.members?_tooDeep hm (mt (h.room_iff 1).mpr hroom)]
            exact .error ..
  | array vs =>
      obtain ⟨ws, hm, -⟩ := h.array hn
      exact agree_of_exists_error (exists_members?_error (by simp [hn]) (by simp [hn]))
        (exists_members?_error (by simp [hm]) (by simp [hm]))
  | _ =>
      rw [hn, Json.Same] at hsame
      exact agree_of_exists_error (exists_members?_error (by simp [hn]) (by simp [hn]))
        (exists_members?_error (by simp [hsame]) (by simp [hsame]))

theorem twins_itemsBelow (h : n.Twin m) {vs ws : List Json} (hsame : List.Forall₂ Json.Same vs ws)
    (hvs : ∀ v ∈ vs, v.Distinct) (hws : ∀ w ∈ ws, w.Distinct) :
    List.Forall₂ Twin ((n.itemsBelow 0 vs).map json) ((m.itemsBelow 0 ws).map json) := by
  rw [List.forall₂_map_left_iff, List.forall₂_map_right_iff]
  have hitems : ∀ start, List.Forall₂ (fun c d => (json c).Twin (json d)) (n.itemsBelow start vs)
      (m.itemsBelow start ws) := by
    induction hsame with
    | nil => exact fun _ => .nil
    | cons hvw _ ih =>
        obtain ⟨hv, hvs⟩ := List.forall_mem_cons.mp hvs
        obtain ⟨hw, hws⟩ := List.forall_mem_cons.mp hws
        exact fun start => .cons (h.below _ hvw ⟨hv, hw⟩) (ih hvs hws (start + 1))
  exact hitems 0

theorem Twin.elements? (h : n.Twin m) :
    Result.Agree (Option.Rel (List.Forall₂ Twin)) (json n).elements? (json m).elements? := by
  have hsame := h.same
  cases hn : n.value with
  | null =>
      rw [hn, Json.Same] at hsame
      rw [elements?_of_null hn, elements?_of_null hsame]
      exact .ok .none
  | array vs =>
      obtain ⟨ws, hm, hitems, hvs, hws⟩ := h.array hn
      by_cases hroom : n.Room 1
      · rw [elements?_json hn fun _ => hroom, elements?_json hm fun _ => (h.room_iff 1).mp hroom]
        exact .ok (.some (twins_itemsBelow h hitems hvs hws))
      · cases hitems with
        | nil =>
            rw [elements?_json hn fun hne => absurd rfl hne,
              elements?_json hm fun hne => absurd rfl hne]
            exact .ok (.some .nil)
        | cons _ _ =>
            rw [Node.elements?, Node.elements?, JsonNode.elements?_tooDeep hn hroom,
              JsonNode.elements?_tooDeep hm (mt (h.room_iff 1).mpr hroom)]
            exact .error ..
  | object ms =>
      obtain ⟨ns, hm, -⟩ := h.object hn
      exact agree_of_exists_error (exists_elements?_error (by simp [hn]) (by simp [hn]))
        (exists_elements?_error (by simp [hm]) (by simp [hm]))
  | _ =>
      rw [hn, Json.Same] at hsame
      exact agree_of_exists_error (exists_elements?_error (by simp [hn]) (by simp [hn]))
        (exists_elements?_error (by simp [hsame]) (by simp [hsame]))

theorem Twin.child? (h : n.Twin m) (key : String) :
    Result.Agree (Option.Rel Twin) ((json n).child? key) ((json m).child? key) := by
  have hsame := h.same
  cases hn : n.value with
  | object ms =>
      obtain ⟨ns, hm, hobjects, hms, hns⟩ := h.object hn
      rw [Json.distinct_object_iff] at hms hns
      rw [child?_object hn, child?_object hm]
      have hrel := Json.rel_get?_of_same hobjects hns.1 key
      generalize hv : Members.get? ms key = v, hw : Members.get? ns key = w at hrel
      cases hrel with
      | none => exact .ok .none
      | @some v w hvw =>
          have htwin := h.below key hvw
            ⟨hms.2 _ (Members.mem_of_get? hv), hns.2 _ (Members.mem_of_get? hw)⟩
          dsimp only
          by_cases hroom : n.Room 1
          · have hroom' := (h.room_iff 1).mp hroom
            rw [JsonNode.child_eq hroom, JsonNode.child_eq hroom']
            exact .ok (.some htwin)
          · rw [JsonNode.child_tooDeep hroom, JsonNode.child_tooDeep (mt (h.room_iff 1).mpr hroom)]
            exact .error ..
  | array vs =>
      obtain ⟨ws, hm, -⟩ := h.array hn
      rw [child?_of_not_object (by simp [hn]), child?_of_not_object (by simp [hm])]
      exact .ok .none
  | _ =>
      rw [hn, Json.Same] at hsame
      rw [child?_of_not_object (by simp [hn]), child?_of_not_object (by simp [hsame])]
      exact .ok .none

theorem Twin.untyped (h : n.Twin m) : (json n).untyped.same (json m).untyped = true :=
  Json.same_toUntyped h.same h.distinct.1 h.distinct.2

end Node

end Marshal
