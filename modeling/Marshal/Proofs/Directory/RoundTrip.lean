import Marshal.Proofs.Directory.Reading
import Marshal.Proofs.Directory.Writing
import Marshal.Proofs.Json.Twins
import Marshal.Proofs.Receiving
import Marshal.Proofs.Sending

/-!
Lists of directory objects through JSON and back. The type that an object declares decides what it
is read as, whatever it was when it was written.
-/

namespace Marshal

namespace DirectoryObject

def made (type : Option String) : DirectoryObject :=
  if type = some userType then user {} else if type = some groupType then group {} else base {}

theorem made_cases (type : Option String) :
    made type = base {} ∨ made type = user {} ∨ made type = group {} := by
  rw [made]
  split_ifs
  · exact .inr (.inl rfl)
  · exact .inr (.inr rfl)
  · exact .inl rfl

def taken : DirectoryObject → DirectoryObject → DirectoryObject
  | base _, o => base o.common
  | user _, user u => user u
  | user _, o => user { base := o.common }
  | group _, group g => group g
  | group _, o => group { base := o.common }

def received (o : DirectoryObject) : DirectoryObject :=
  (made o.common.odataType).taken o

/-- Users and groups say what they are, and what is neither says nothing that has a factory. -/
def Tagged (m : DiscriminatorMapping DirectoryObject) : DirectoryObject → Prop
  | base b => ∀ tag ∈ b.odataType, m.get? tag = none
  | user u => u.base.odataType = some userType
  | group g => g.base.odataType = some groupType

/-! ### The choice of a factory -/

theorem get?_mapping (tag : String) :
    mapping.get? tag =
      if tag = userType then some createUser
      else if tag = groupType then some createGroup else none := by
  have hfactories : mapping.factories = [(userType, createUser), (groupType, createGroup)] := rfl
  rw [DiscriminatorMapping.get?, hfactories, Members.get?, List.lookup_cons, List.lookup_cons]
  split_ifs with huser hgroup
  · rw [huser, beq_self_eq_true]
  · rw [beq_false_of_ne huser, hgroup, beq_self_eq_true]
  · rw [beq_false_of_ne huser, beq_false_of_ne hgroup, List.lookup_nil]

theorem get?_mapping_eq_none_iff (tag : String) :
    mapping.get? tag = none ↔ tag ≠ userType ∧ tag ≠ groupType := by
  rw [get?_mapping]
  split_ifs with huser hgroup
  · simp [huser]
  · simp [hgroup]
  · simp [huser, hgroup]

theorem received_eq_self_iff {m : DiscriminatorMapping DirectoryObject}
    (hget : ∀ tag, m.get? tag = mapping.get? tag) (o : DirectoryObject) :
    o.received = o ↔ o.Tagged m := by
  have hne : groupType ≠ userType := by decide
  cases o with
  | base b =>
      rw [Tagged, received, made, common]
      cases htype : b.odataType with
      | none => simp [taken, common]
      | some tag =>
          have htag : (∀ t ∈ some tag, m.get? t = none) ↔ tag ≠ userType ∧ tag ≠ groupType := by
            simp [hget, get?_mapping_eq_none_iff]
          rw [htag]
          split_ifs <;> simp_all [taken, common]
  | user u =>
      rw [Tagged, received, made, common]
      split_ifs with huser hgroup
      · simp [taken, huser]
      · simp [taken, huser]
      · simp [taken, huser]
  | group g =>
      rw [Tagged, received, made, common]
      split_ifs with huser hgroup
      · simp [taken, huser, hne.symm]
      · simp [taken, hgroup]
      · simp [taken, hgroup]

section Node

variable {o : DirectoryObject} {n : JsonNode} (hn : n.value = o.json) (hroom : n.Room 1)

include hn hroom

theorem value?_json {d : ModelDiscriminators} (hkey : d.key = "@odata.type") :
    d.value? (.json n) = o.common.odataType := by
  rw [Discriminators.value?, hkey, Node.child?_object hn]
  cases htype : o.common.odataType with
  | some tag =>
      have hget : Members.get? (Field.present (commonRows o.common) ++ Field.present o.ownRows)
          "@odata.type" = some (.string tag) := by
        rw [commonRows, htype]
        rfl
      rw [hget]
      dsimp only
      rw [JsonNode.child_eq hroom]
      rfl
  | none =>
      have hnames : Members.keys
          (Field.present (commonRows o.common) ++ Field.present o.ownRows) ⊆
          ["id", "mail", "memberCount"] := by
        rw [commonRows, htype, Members.keys, List.map_append]
        exact ((Field.keys_present [("id", _)]).append
          ((Field.keys_present o.ownRows).trans o.names_ownRows)).subset
      have hget : Members.get? (Field.present (commonRows o.common) ++ Field.present o.ownRows)
          "@odata.type" = none :=
        Members.get?_eq_none_iff.mpr fun h => absurd (hnames h) (by decide)
      rw [hget]

theorem resolve_json {d : ModelDiscriminators} (hkey : d.key = "@odata.type")
    {m : DiscriminatorMapping DirectoryObject} (hm : d.mapping? .directoryObject = some m)
    (hget : ∀ tag, m.get? tag = mapping.get? tag) :
    d.resolve .directoryObject (.json n) Parsable.create (.json n) =
      .ok (made o.common.odataType) := by
  rw [Discriminators.resolve, Discriminators.match?, hm, value?_json hn hroom hkey]
  cases o.common.odataType with
  | none => rfl
  | some tag =>
      simp only [Option.bind_eq_bind, Option.bind_some, hget, get?_mapping, made,
        Option.some.injEq]
      split_ifs <;> rfl

end Node

/-! ### Reading -/

/-- Members without a reader leave an object as it is. -/
theorem foldlM_dropped {readers : FieldReaders DirectoryObject} {ms : Members Node}
    (h : ∀ m ∈ ms, readers.get? m.1 = none) (c : DirectoryObject) :
    ms.foldlM (Parsable.assign readers) c = pure c := by
  induction ms with
  | nil => rfl
  | cons m ms ih =>
      obtain ⟨hm, hms⟩ := List.forall_mem_cons.mp h
      have hassign : Parsable.assign readers c m = pure c := by
        simp only [Parsable.assign, hm]
        rfl
      rw [List.foldlM_cons, hassign, pure_bind, ih hms]

section Members

variable {n : JsonNode}

theorem foldlM_common {c : DirectoryObject} (hc : c.common = {}) (b : DirectoryBase)
    (hroom : ∀ m ∈ Field.present (commonRows b), n.Room (m.2.depth + 1)) :
    ((Field.present (commonRows b)).map fun m => (m.1, Node.json (n.below m.1 m.2))).foldlM
      (Parsable.assign c.readers) c = pure (commonView.set b c) := by
  refine Field.foldlM_assign commonView_lawful (a := {}) (.cons rfl (.cons rfl (.nil b)))
    (carries_common b) ?_ hroom (congrArg some hc)
  intro f hf
  simp only [List.mem_cons, List.not_mem_nil, or_false] at hf
  rcases hf with rfl | rfl <;> cases c <;> rfl

theorem foldlM_own {c : DirectoryObject} (hc : c = base {} ∨ c = user {} ∨ c = group {})
    (o : DirectoryObject) (hroom : ∀ m ∈ Field.present o.ownRows, n.Room (m.2.depth + 1)) :
    ((Field.present o.ownRows).map fun m => (m.1, Node.json (n.below m.1 m.2))).foldlM
      (Parsable.assign c.readers) (commonView.set o.common c) = pure (c.taken o) := by
  -- A member that only users have, or only groups, is dropped where the object is something else.
  have hdropped : (∀ name ∈ o.ownRows.map Prod.fst, c.readers.get? name = none) →
      ((Field.present o.ownRows).map fun m => (m.1, Node.json (n.below m.1 m.2))).foldlM
        (Parsable.assign c.readers) (commonView.set o.common c) =
        pure (commonView.set o.common c) := by
    intro h
    refine foldlM_dropped (fun m hm => ?_) _
    obtain ⟨m', hm', rfl⟩ := List.mem_map.mp hm
    exact h _ ((Field.keys_present o.ownRows).subset (List.mem_map_of_mem hm'))
  rcases hc with rfl | rfl | rfl
  · cases o with
    | base b => rfl
    | user u => exact hdropped (List.forall_mem_singleton.mpr rfl)
    | group g => exact hdropped (List.forall_mem_singleton.mpr rfl)
  · cases o with
    | base b => rfl
    | user u =>
        exact Field.foldlM_assign userView_lawful (a := { base := u.base }) (.cons rfl (.nil u))
          (carries_mail u) (List.forall_mem_singleton.mpr rfl) hroom rfl
    | group g => exact hdropped (List.forall_mem_singleton.mpr rfl)
  · cases o with
    | base b => rfl
    | user u => exact hdropped (List.forall_mem_singleton.mpr rfl)
    | group g =>
        exact Field.foldlM_assign groupView_lawful (a := { base := g.base }) (.cons rfl (.nil g))
          (carries_memberCount g) (List.forall_mem_singleton.mpr rfl) hroom rfl

/-- An object is read as far as what was made of its type has room for it. -/
theorem read?_json {context : Reading.Context DirectoryObject} (hlayers : context.layers = [])
    {o : DirectoryObject} (hn : n.value = o.json) (hroom : n.Room 1)
    (hresolve : context.resolve (.json n) Parsable.create (.json n) =
      .ok (made o.common.odataType)) :
    Parsable.read? context Parsable.create (.json n) = pure (some o.received) := by
  have hmade := made_cases o.common.odataType
  have hempty : (made o.common.odataType).common = {} := by
    rcases hmade with h | h | h <;> rw [h] <;> rfl
  have hdepth : ∀ m ∈ Field.present (commonRows o.common) ++ Field.present o.ownRows,
      n.Room (m.2.depth + 1) := by
    intro m hm
    obtain ⟨k, v, -, hmv⟩ := exists_kind_of_mem hm
    rw [hmv, Kind.depth_json]
    exact hroom
  rw [List.forall_mem_append] at hdepth
  have hcommon := foldlM_common hempty o.common hdepth.1
  have hown := foldlM_own hmade o hdepth.2
  have hmembers := Node.members?_json hn fun _ => hroom
  have hreaders (self : Node → ReadM (Option DirectoryObject)) (c : DirectoryObject) :
      Parsable.fieldReaders self c = c.readers := rfl
  rw [Parsable.read?, Parsable.readAt_succ, hmembers]
  simp only [ReadM.ofResult_ok, pure_bind, hresolve, Parsable.assignAll, hlayers, List.foldlM_nil,
    hreaders, List.map_append, List.foldlM_append, hcommon, hown]
  rfl

end Members

/-! ### Whole payloads -/

theorem faithful_array (os : List DirectoryObject) : (Json.array (os.map json)).Faithful := by
  refine Json.faithful_array_iff.mpr fun v hv => ?_
  obtain ⟨o, -, rfl⟩ := List.mem_map.mp hv
  exact o.faithful_json

theorem ofString?_text (os : List DirectoryObject) :
    Json.ofString? (Json.array (os.map json)).text = some (.array (os.map json)) := by
  refine (faithful_array os).ofString?_text ?_
  have hitems : Json.itemNesting (os.map json) ≤ 1 := by
    refine Json.itemNesting_le_iff.mpr fun v hv => ?_
    obtain ⟨o, -, rfl⟩ := List.mem_map.mp hv
    exact o.nesting_json
  exact Nat.lt_of_le_of_lt (Nat.succ_le_succ hitems) (by decide)

/-- Every list of directory objects can be written and read. It comes back as it was if and only if
all objects in it are tagged as what they are. -/
theorem roundTrip_eq_self_iff {s : Serializer} {contentType key key' : String}
    (hencoder : s.encoders.find contentType = .ok (key, .json))
    (hdecoder : s.decoders.find contentType = .ok (key', .json))
    (hkey : s.discriminators.key = "@odata.type") {m : DiscriminatorMapping DirectoryObject}
    (hm : s.discriminators.mapping? .directoryObject = some m)
    (hget : ∀ tag, m.get? tag = mapping.get? tag) (os : List DirectoryObject) :
    ∃ p os', (s.serializeList contentType os).result = .ok p ∧
      (s.deserializeList .directoryObject contentType p.bytes Parsable.create).exec =
        (.ok os', []) ∧
      (os' = os ↔ ∀ o ∈ os, o.Tagged m) := by
  have hsent := Serializer.send_of_puts (Serializer.output_of_find hencoder)
    (puts_writeList os none) os fun _ => none
  have hroot := Serializer.root_of_find hdecoder (ofString?_text os)
  have hread : Parsable.readList? (s.context .directoryObject
      ⟨.json { value := .array (os.map json) }, []⟩) Parsable.create
      (.json { value := .array (os.map json) }) = pure (some (os.map received)) := by
    have hroot : ({ value := .array (os.map json) } : JsonNode).Room 2 := by
      simp [JsonNode.Room]
    refine Parsable.readAll?_array rfl (fun _ => hroot.mono (by decide)) ?_
    rw [List.forall₂_map_left_iff, List.forall₂_map_right_iff, List.forall₂_same]
    intro o _ step
    have hroom := hroot.below step o.json
    exact read?_json rfl rfl hroom (resolve_json rfl hroom hkey hm hget)
  refine ⟨_, os.map received, congrArg Sent.result hsent, ?_, ?_⟩
  · rw [Serializer.deserializeList, hroot, ReadM.ofResult_ok, pure_bind, hread, pure_bind]
    rfl
  · calc os.map received = os
      _ ↔ os.map received = os.map id := by rw [List.map_id]
      _ ↔ ∀ o ∈ os, o.received = o := List.map_inj_left
      _ ↔ ∀ o ∈ os, o.Tagged m := forall₂_congr fun o _ => received_eq_self_iff hget o

/-- Two that are tagged and one that has no type: this list comes back. A user who says nothing of
that does not. -/
theorem roundTrip_eq_self_iff_tagged :
    (∃ p, (({} : Serializer).serializeList "application/json"
        [user { base := { odataType := some userType }, mail := some "m" },
          group { base := { odataType := some groupType }, memberCount := some 2 },
          base { id := some "b" }]).result = .ok p ∧
      (({} : Serializer).deserializeList .directoryObject "application/json" p.bytes
        Parsable.create).exec =
        (.ok [user { base := { odataType := some userType }, mail := some "m" },
          group { base := { odataType := some groupType }, memberCount := some 2 },
          base { id := some "b" }], [])) ∧
    ∃ p os', (({} : Serializer).serializeList "application/json"
        [user { mail := some "m" }]).result = .ok p ∧
      (({} : Serializer).deserializeList .directoryObject "application/json" p.bytes
        Parsable.create).exec = (.ok os', []) ∧
      os' ≠ [user { mail := some "m" }] := by
  have hencoder : ({} : Serializer).encoders.find "application/json" =
      .ok (ContentType.json, .json) := rfl
  have hdecoder : ({} : Serializer).decoders.find "application/json" =
      .ok (ContentType.json, .json) := rfl
  have hiff := roundTrip_eq_self_iff hencoder hdecoder rfl (m := mapping) rfl fun _ => rfl
  constructor
  · obtain ⟨p, os', hp, hos', htagged⟩ := hiff
      [user { base := { odataType := some userType }, mail := some "m" },
        group { base := { odataType := some groupType }, memberCount := some 2 },
        base { id := some "b" }]
    rw [htagged.mpr (by simp [Tagged])] at hos'
    exact ⟨p, hp, hos'⟩
  · obtain ⟨p, os', hp, hos', htagged⟩ := hiff [user { mail := some "m" }]
    refine ⟨p, os', hp, hos', fun h => ?_⟩
    simpa [Tagged] using htagged.mp h

end DirectoryObject

end Marshal
