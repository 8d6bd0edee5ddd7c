import Marshal.Proofs.Json.Doubles
import Marshal.Proofs.Json.Kind
import Marshal.Proofs.Writing.Tree

/-!
Undeclared fields in a JSON document: how they are written, and that they are read back as they
were.
-/

namespace Marshal

namespace Untyped

mutual

def json : Untyped → Json
  | null => .null
  | bool b => .bool b
  | integer n => .number (intText n.toInt)
  | double x => Json.ofDouble x
  | string s => .string s
  | array items => .array (jsonItems items)
  | object members => .object (jsonMembers members)

def jsonItems : List Untyped → List Json
  | [] => []
  | v :: vs => json v :: jsonItems vs

def jsonMembers : List (String × Untyped) → List (String × Json)
  | [] => []
  | (k, v) :: ms => (k, json v) :: jsonMembers ms

end

mutual

/-- Nowhere in the tree is a double, and no object in it has two members of one name. -/
def Exact : Untyped → Prop
  | double _ => False
  | array items => ExactItems items
  | object members => (Members.keys members).Nodup ∧ ExactMembers members
  | _ => True

def ExactItems : List Untyped → Prop
  | [] => True
  | v :: vs => Exact v ∧ ExactItems vs

def ExactMembers : List (String × Untyped) → Prop
  | [] => True
  | (_, v) :: ms => Exact v ∧ ExactMembers ms

end

mutual

/-- Every double in the tree is finite, and no object in it has two members of one name. -/
def Sound : Untyped → Prop
  | double x => x.isFinite = true
  | array items => SoundItems items
  | object members => (Members.keys members).Nodup ∧ SoundMembers members
  | _ => True

def SoundItems : List Untyped → Prop
  | [] => True
  | v :: vs => Sound v ∧ SoundItems vs

def SoundMembers : List (String × Untyped) → Prop
  | [] => True
  | (_, v) :: ms => Sound v ∧ SoundMembers ms

end

mutual

def Distinct : Untyped → Prop
  | array items => DistinctItems items
  | object members => (Members.keys members).Nodup ∧ DistinctMembers members
  | _ => True

def DistinctItems : List Untyped → Prop
  | [] => True
  | v :: vs => Distinct v ∧ DistinctItems vs

def DistinctMembers : List (String × Untyped) → Prop
  | [] => True
  | (_, v) :: ms => Distinct v ∧ DistinctMembers ms

end

mutual

theorem Exact.sound : ∀ {v : Untyped}, v.Exact → v.Sound
  | null, _ | bool _, _ | integer _, _ | string _, _ => trivial
  | double _, h => by
      rw [Exact] at h
      exact h.elim
  | array items, h => by
      rw [Exact] at h
      rw [Sound]
      exact soundItems_of_exact h
  | object members, h => by
      rw [Exact] at h
      rw [Sound]
      exact ⟨h.1, soundMembers_of_exact h.2⟩

theorem soundItems_of_exact : ∀ {vs : List Untyped}, ExactItems vs → SoundItems vs
  | [], _ => trivial
  | v :: vs, h => by
      rw [ExactItems] at h
      exact ⟨Exact.sound h.1, soundItems_of_exact h.2⟩

theorem soundMembers_of_exact : ∀ {ms : List (String × Untyped)}, ExactMembers ms →
    SoundMembers ms
  | [], _ => trivial
  | (_, v) :: ms, h => by
      rw [ExactMembers] at h
      exact ⟨Exact.sound h.1, soundMembers_of_exact h.2⟩

end

mutual

theorem Sound.distinct : ∀ {v : Untyped}, v.Sound → v.Distinct
  | null, _ | bool _, _ | integer _, _ | double _, _ | string _, _ => trivial
  | array items, h => by
      rw [Sound] at h
      rw [Distinct]
      exact distinctItems_of_sound h
  | object members, h => by
      rw [Sound] at h
      rw [Distinct]
      exact ⟨h.1, distinctMembers_of_sound h.2⟩

theorem distinctItems_of_sound : ∀ {vs : List Untyped}, SoundItems vs → DistinctItems vs
  | [], _ => trivial
  | v :: vs, h => by
      rw [SoundItems] at h
      exact ⟨Sound.distinct h.1, distinctItems_of_sound h.2⟩

theorem distinctMembers_of_sound : ∀ {ms : List (String × Untyped)}, SoundMembers ms →
    DistinctMembers ms
  | [], _ => trivial
  | (_, v) :: ms, h => by
      rw [SoundMembers] at h
      exact ⟨Sound.distinct h.1, distinctMembers_of_sound h.2⟩

end

mutual

theorem toUntyped_json : ∀ v : Untyped, v.Sound → v.json.toUntyped = v
  | null, _ => rfl
  | bool _, _ => rfl
  | integer n, _ => by
      rw [json, Json.toUntyped, Json.numberToUntyped, Json.integer?_intText]
  | double x, h => by
      rw [Sound] at h
      rw [json, Json.ofDouble, if_pos h, Json.toUntyped, Json.numberToUntyped_double h]
  | string _, _ => rfl
  | array items, h => by
      rw [Sound] at h
      rw [json, Json.toUntyped, itemsToUntyped_json items h]
  | object members, h => by
      rw [Sound] at h
      rw [json, Json.toUntyped, membersToUntyped_json members h.2]

theorem itemsToUntyped_json : ∀ vs : List Untyped, SoundItems vs →
    Json.itemsToUntyped (jsonItems vs) = vs
  | [], _ => rfl
  | v :: vs, h => by
      rw [SoundItems] at h
      rw [jsonItems, Json.itemsToUntyped, toUntyped_json v h.1, itemsToUntyped_json vs h.2]

theorem membersToUntyped_json : ∀ ms : List (String × Untyped), SoundMembers ms →
    Json.membersToUntyped (jsonMembers ms) = ms
  | [], _ => rfl
  | (k, v) :: ms, h => by
      rw [SoundMembers] at h
      rw [jsonMembers, Json.membersToUntyped, toUntyped_json v h.1, membersToUntyped_json ms h.2]

end

theorem jsonMembers_eq (ms : Members Untyped) : jsonMembers ms = ms.mapValues json := by
  induction ms with
  | nil => rfl
  | cons m ms ih =>
      obtain ⟨k, v⟩ := m
      rw [jsonMembers, ih]
      rfl

theorem keys_jsonMembers (ms : Members Untyped) : Members.keys (jsonMembers ms) = ms.keys := by
  rw [jsonMembers_eq, Members.keys_mapValues]

/-! ### Writing -/

mutual

def tree : Untyped → Tree
  | null => .null
  | bool b => .scalar .bool (some b)
  | integer n => .scalar .long (some n)
  | double x => .scalar .double (some x)
  | string s => .scalar .string (some s)
  | array items => .array (itemTrees items)
  | object members => .object .untyped (memberTrees members)

def itemTrees : List Untyped → List (Option String × Tree)
  | [] => []
  | v :: vs => (none, tree v) :: itemTrees vs

def memberTrees : List (String × Untyped) → List (String × Tree)
  | [] => []
  | (k, v) :: ms => (k, tree v) :: memberTrees ms

end

mutual

theorem script_tree : ∀ (v : Untyped) (key : Option String),
    v.tree.script key = (v.calls key).map .ok
  | null, _ | bool _, _ | integer _, _ | double _, _ | string _, _ => rfl
  | array items, key => by
      rw [tree, Tree.script, itemScript_itemTrees items, calls, List.map_cons]
  | object members, key => by
      rw [tree, Tree.script, memberScript_memberTrees members, calls, List.map_cons]

theorem itemScript_itemTrees : ∀ vs : List Untyped,
    Tree.itemScript (itemTrees vs) = (itemCalls vs).map .ok
  | [] => rfl
  | v :: vs => by
      rw [itemTrees, Tree.itemScript, script_tree v none, itemScript_itemTrees vs, itemCalls,
        List.map_append]

theorem memberScript_memberTrees : ∀ ms : List (String × Untyped),
    Tree.memberScript (memberTrees ms) = (memberCalls ms).map .ok
  | [] => rfl
  | (k, v) :: ms => by
      rw [memberTrees, Tree.memberScript, script_tree v (some k), memberScript_memberTrees ms,
        memberCalls, List.map_append]

end

mutual

theorem expressible_tree : ∀ v : Untyped, v.tree.Expressible
  | null | bool _ | integer _ | double _ | string _ => by simp [tree, Tree.Expressible,
      Kind.Expressible]
  | array items => by
      rw [tree, Tree.Expressible]
      exact expressible_itemTrees items
  | object members => by
      rw [tree, Tree.Expressible]
      exact expressible_memberTrees members

theorem expressible_itemTrees : ∀ vs : List Untyped, Tree.ExpressibleItems (itemTrees vs)
  | [] => trivial
  | v :: vs => ⟨expressible_tree v, expressible_itemTrees vs⟩

theorem expressible_memberTrees : ∀ ms : List (String × Untyped),
    Tree.ExpressibleMembers (memberTrees ms)
  | [] => trivial
  | (_, v) :: ms => ⟨expressible_tree v, expressible_memberTrees ms⟩

end

mutual

/-- A member put under a name that an object has already would overwrite the one that is there. -/
theorem value?_tree : ∀ v : Untyped, v.Distinct → v.tree.value? = some v.json
  | null, _ | bool _, _ | integer _, _ | double _, _ | string _, _ => rfl
  | array items, h => by
      rw [Distinct] at h
      rw [tree, Tree.value?, itemValues_itemTrees items h, json]
  | object members, h => by
      rw [Distinct] at h
      rw [tree, Tree.value?, memberValues_memberTrees members h.2, json,
        Members.ofPairs_of_nodup (by rw [keys_jsonMembers]; exact h.1)]

theorem itemValues_itemTrees : ∀ vs : List Untyped, DistinctItems vs →
    Tree.itemValues (itemTrees vs) = jsonItems vs
  | [], _ => rfl
  | v :: vs, h => by
      rw [DistinctItems] at h
      rw [itemTrees, Tree.itemValues, value?_tree v h.1, itemValues_itemTrees vs h.2, jsonItems]
      rfl

theorem memberValues_memberTrees : ∀ ms : List (String × Untyped), DistinctMembers ms →
    Tree.memberValues (memberTrees ms) = jsonMembers ms
  | [], _ => rfl
  | (k, v) :: ms, h => by
      rw [DistinctMembers] at h
      rw [memberTrees, Tree.memberValues, value?_tree v h.1, memberValues_memberTrees ms h.2,
        jsonMembers]
      rfl

end

/-- The calls for an undeclared field put one value where there is room for it. -/
theorem runCalls_eq {v : Untyped} (h : v.Distinct) {key : Option String} {d d' : JsonDraft}
    (hput : d.put key v.json = (.ok (), d')) :
    Draft.runCalls (v.calls key) (AnyDraft.json d) = (.ok (), .json d') := by
  have hvalue : d.putSome key v.tree.value? = (.ok (), d') := by
    rw [value?_tree v h]
    exact hput
  have hrun := Tree.run_script_append v.tree v.expressible_tree key d d' hvalue []
  rw [List.append_nil, script_tree, Draft.run_nil] at hrun
  rw [Draft.runCalls, AnyDraft.run_json, hrun]

end Untyped

namespace AdditionalData

def json (data : AdditionalData) : Members Json :=
  Members.mapValues Untyped.json data

def besides (names : List String) (data : AdditionalData) : AdditionalData :=
  data.filter fun m => m.1 ∉ names

theorem besides_eq_self {names : List String} {data : AdditionalData}
    (h : ∀ key ∈ Members.keys data, key ∉ names) : data.besides names = data :=
  List.filter_eq_self.mpr fun _ hm => decide_eq_true (h _ (List.mem_map_of_mem hm))

theorem nodup_keys_besides {names : List String} (h : names.Nodup) {data : AdditionalData}
    (hdata : (Members.keys data).Nodup) :
    (names ++ Members.keys (json (data.besides names))).Nodup := by
  rw [json, Members.keys_mapValues]
  refine List.nodup_append.mpr ⟨h, hdata.sublist (List.filter_sublist.map Prod.fst), ?_⟩
  rintro name hname _ hkey rfl
  obtain ⟨m, hm, rfl⟩ := List.mem_map.mp hkey
  exact of_decide_eq_true (List.mem_filter.mp hm).2 hname

/-- Undeclared fields are written in their order, but for those whose names the object has. -/
theorem writeAdditional_eq {data : AdditionalData} (hdistinct : ∀ m ∈ data, m.2.Distinct)
    (hnames : (Members.keys data).Nodup) (members : Members Json) (d : JsonDraft)
    (key : Option String) :
    Draft.writeAdditional data (AnyDraft.json (d.inObject key members)) =
      (.ok (), .json (d.inObject key (members ++ json (data.besides members.keys)))) := by
  induction data generalizing members with
  | nil =>
      rw [besides, List.filter_nil, json, Members.mapValues, List.map_nil, List.append_nil]
      rfl
  | cons m data ih =>
      obtain ⟨name, v⟩ := m
      obtain ⟨hv, hdata⟩ := List.forall_mem_cons.mp hdistinct
      obtain ⟨hname, hrest⟩ := List.nodup_cons.mp hnames
      have hshadows : Draft.shadows (AnyDraft.json (d.inObject key members)) name =
          decide (name ∈ members.keys) :=
        Bool.eq_iff_iff.mpr (Members.has_iff_mem_keys.trans decide_eq_true_iff.symm)
      rw [Draft.writeAdditional, hshadows]
      by_cases hmem : name ∈ members.keys
      · rw [if_pos (decide_eq_true hmem), ih hdata hrest, besides, besides,
          List.filter_cons_of_neg (by simpa using hmem)]
      · -- The name now stands in the object too, but no other field has it.
        have hbesides : besides (members.keys ++ [name]) data = besides members.keys data := by
          refine List.filter_congr fun m hm => ?_
          have hne : m.1 ≠ name := fun e => hname (List.mem_map.mpr ⟨m, hm, e⟩)
          simp [hne]
        have hkeys : Members.keys (members ++ [(name, v.json)]) = members.keys ++ [name] := by
          simp [Members.keys]
        rw [if_neg (by simpa using hmem), Untyped.runCalls_eq hv (JsonDraft.put_inObject ..),
          Members.put_of_not_mem hmem]
        simp only
        rw [ih hdata hrest, hkeys, hbesides, besides, besides,
          List.filter_cons_of_pos (by simpa using hmem), List.append_assoc]
        rfl

end AdditionalData

end Marshal
