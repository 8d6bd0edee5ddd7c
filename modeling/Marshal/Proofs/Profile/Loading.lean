import Mathlib.Data.List.ReduceOption
import Marshal.Proofs.Field
import Marshal.Proofs.Json.Distinct
import Marshal.Proofs.Json.Node
import Marshal.Proofs.Profile.Settled
import Marshal.Proofs.Reading.Run
import Marshal.Proofs.Receiving

/-!
Loading a profile from a JSON document. The profile holds what the declared members of the document
say, at every depth, and between layers that keep stores in step nothing of it counts as changed.
-/

namespace Marshal

namespace Profile

/-! ### What is kept of a payload -/

def keptText : Json → Json
  | .string s => .string s
  | .bool b => .string (boolText b)
  | .number t => .string t
  | _ => .null

mutual

/-- What a profile keeps of a payload: the declared members of every object. What is no object makes
no profile. -/
def kept? : Json → Option Json
  | .object members => some (.object (keptMembers members))
  | _ => none

def keptMembers : List (String × Json) → Members Json
  | [] => []
  | (key, v) :: ms =>
    match Property.ofKey? key with
    | none => keptMembers ms
    | some .manager => (key, (kept? v).getD .null) :: keptMembers ms
    | some .reports => (key, keptReports v) :: keptMembers ms
    | some _ => (key, keptText v) :: keptMembers ms

def keptReports : Json → Json
  | .array items => .array (keptItems items)
  | _ => .null

def keptItems : List Json → List Json
  | [] => []
  | v :: vs => (kept? v).toList ++ keptItems vs

end

def Property.kept : Property → Json → Json
  | .manager, v => (kept? v).getD .null
  | .reports, v => keptReports v
  | _, v => keptText v

theorem keptMembers_eq (ms : List (String × Json)) :
    keptMembers ms =
      ms.filterMap fun m => (Property.ofKey? m.1).map fun property => (m.1, property.kept m.2) := by
  induction ms with
  | nil => rfl
  | cons m ms ih =>
      obtain ⟨key, v⟩ := m
      rw [keptMembers, ih]
      cases h : Property.ofKey? key with
      | none => simp [h]
      | some property => cases property <;> simp [h, Property.kept]

theorem keptMembers_append (ms ms' : List (String × Json)) :
    keptMembers (ms ++ ms') = keptMembers ms ++ keptMembers ms' := by
  simp only [keptMembers_eq, List.filterMap_append]

/-- The declared names of an object are the names that are kept. -/
theorem keys_keptMembers (ms : List (String × Json)) :
    (keptMembers ms).keys = (Members.keys ms).filter fun key => (Property.ofKey? key).isSome := by
  rw [keptMembers_eq]
  induction ms with
  | nil => rfl
  | cons m ms ih =>
      cases h : Property.ofKey? m.1 <;> simp_all [Members.keys]

theorem Property.key_of_ofKey? {key : String} {property : Property}
    (h : ofKey? key = some property) : property.key = key := by
  simpa using List.find?_some h

/-! ### Reading the members -/

def reader (self : Node → ReadM (Option Profile)) : Property → Node → Profile → ReadM Profile
  | .manager => fun n p => return set p .manager (.profile (← self n))
  | .reports => fun n p => return set p .reports (.profiles (← Parsable.readAll? self n))
  | property => fun n p => return set p property (.text (← ReadM.ofResult n.text?))

theorem get?_readers (self : Node → ReadM (Option Profile)) (key : String) :
    (readers self).get? key =
      (Property.ofKey? key).map fun property n => .update (reader self property n) := by
  have h : (readers self).fields = Property.all.map fun property =>
      (property.key, fun n => .update (reader self property n)) := rfl
  rw [FieldReaders.get?, h, Members.get?, Property.ofKey?]
  induction Property.all with
  | nil => rfl
  | cons property rest ih =>
      rw [List.map_cons, List.lookup_cons, List.find?_cons, Bool.beq_comm]
      cases property.key == key with
      | true => rfl
      | false => exact ih

/-- Members that are not declared are dropped. -/
theorem assign_eq (self : Node → ReadM (Option Profile)) (p : Profile) (m : String × Node) :
    Parsable.assign (readers self) p m =
      match Property.ofKey? m.1 with
      | some property => reader self property m.2 p
      | none => pure p := by
  rw [Parsable.assign, get?_readers]
  cases Property.ofKey? m.1 with
  | none => rfl
  | some property => exact FillM.on_update _ p

/-- A profile that is being filled in: what it holds already is settled, and it says itself whether
what is set counts as changed. -/
structure Filling (marked : Bool) (s : Store) : Prop where
  proper : Proper s
  initialized : s.initialized = marked
  shows : s.onlyChanged = false
  marks : ∀ e ∈ s.entries, e.dirty = marked
  nested : ∀ e ∈ s.entries, ∀ m ∈ e.held.nested, Store.Everywhere (Settled marked) m

theorem Filling.set {d : Bool} {s : Store} (h : Filling d s) {property : Property}
    (hk : property.key ∉ s.allKeys) {held : Held Store} (ha : property.Admits held)
    (hm : ∀ m ∈ held.nested, Store.Everywhere (Settled d) m) :
    Filling d (Store.set s property.key held) := by
  have hentries := Store.entries_set_of_not_mem hk held
  refine ⟨h.proper.set ha, ?_, ?_, ?_, ?_⟩
  · rw [Store.initialized_set, h.initialized]
  · rw [Store.onlyChanged_set, h.shows]
  · rw [hentries, List.forall_mem_append]
    exact ⟨h.marks, List.forall_mem_singleton.mpr h.initialized⟩
  · rw [hentries, List.forall_mem_append]
    exact ⟨h.nested, List.forall_mem_singleton.mpr hm⟩

/-- What reading a value may give: the profile of what is kept of it, settled at every depth. -/
def Loaded (marked : Bool) (v : Json) (found : Option Profile) : Prop :=
  found.map Store.contents = kept? v ∧ ∀ p ∈ found, Store.Everywhere (Settled marked) p

structure Holds (marked : Bool) (property : Property) (v : Json) (held : Held Store) : Prop where
  admits : property.Admits held
  contents : Store.contentsHeld held = property.kept v
  nested : ∀ m ∈ held.nested, Store.Everywhere (Settled marked) m

/-- The invariant of an object whose members are read one after the other. -/
structure Progress (marked : Bool) (done : Members Json) (p : Profile) : Prop where
  filling : Filling marked p
  contents : p.contents = .object (keptMembers done)

theorem Progress.nil (d : Bool) : Progress d [] ⟨d, false, []⟩ :=
  ⟨⟨⟨.nil, List.forall_mem_nil _⟩, rfl, rfl, List.forall_mem_nil _, List.forall_mem_nil _⟩, rfl⟩

section

variable {d : Bool} {done : Members Json} {p : Profile} {m : String × Json}

theorem Progress.entries_eq (h : Progress d done p) :
    (Store.entries p).map (fun e => (e.key, Store.contentsHeld e.held)) = keptMembers done := by
  have hcontents := h.contents
  rw [Store.contents_eq] at hcontents
  exact Json.object.inj hcontents

theorem Progress.skip (h : Progress d done p) (hm : Property.ofKey? m.1 = none) :
    Progress d (done ++ [m]) p := by
  refine ⟨h.filling, ?_⟩
  rw [h.contents, keptMembers_append]
  simp [keptMembers, hm]

theorem Progress.set (h : Progress d done p) (hm : m.1 ∉ done.keys) {property : Property}
    (hproperty : Property.ofKey? m.1 = some property) {held : Held Store}
    (hheld : Holds d property m.2 held) :
    Progress d (done ++ [m]) (Store.set p property.key held) := by
  have hkey : property.key = m.1 := Property.key_of_ofKey? hproperty
  have hnew : property.key ∉ p.allKeys := by
    rw [← Store.keys_contents, h.entries_eq, keys_keptMembers, hkey]
    exact fun hmem => hm (List.mem_filter.mp hmem).1
  refine ⟨h.filling.set hnew hheld.admits hheld.nested, ?_⟩
  rw [Store.contents_eq, Store.entries_set_of_not_mem hnew, List.map_append, h.entries_eq,
    keptMembers_append, keptMembers_eq [m]]
  simp [hproperty, hheld.contents, hkey]

end

def Property.isText : Property → Bool
  | .manager | .reports => false
  | _ => true

theorem Property.admits_text {property : Property} (h : property.isText = true)
    (t : Option String) : property.Admits (Value.held (.text t)) := by
  cases property with
  | manager | reports => cases h
  | _ =>
      cases t with
      | none => exact .inl rfl
      | some s => exact .inr ⟨s, rfl⟩

@[simp] theorem nested_text (t : Option String) : (Value.held (.text t)).nested = [] := by
  cases t <;> rfl

theorem Property.kept_text {property : Property} (h : property.isText = true) (v : Json) :
    property.kept v = keptText v := by
  cases property with
  | manager | reports => cases h
  | _ => rfl

theorem contentsHeld_text {n : JsonNode} {t : Option String} (h : n.text? = .ok t) :
    Store.contentsHeld (Value.held (.text t)) = keptText n.value := by
  rw [JsonNode.text?] at h
  cases hv : n.value <;> rw [hv] at h <;> cases h <;> rfl

/-- Null items are left out of what is read just as they are of what is kept. -/
theorem loaded_each {d : Bool} {vs : List Json} {found : List (Option Profile)}
    (h : List.Forall₂ (Loaded d) vs found) :
    Store.contentsEach found.reduceOption = keptItems vs ∧
      ∀ m ∈ found.reduceOption, Store.Everywhere (Settled d) m := by
  induction h with
  | nil => exact ⟨rfl, List.forall_mem_nil _⟩
  | @cons v p vs ps hp _ ih =>
      obtain ⟨hcontents, hsettled⟩ := hp
      rw [keptItems, ← hcontents, ← ih.1]
      cases p with
      | none => exact ⟨rfl, ih.2⟩
      | some p =>
          rw [List.reduceOption_cons_of_some]
          exact ⟨rfl, List.forall_mem_cons.mpr ⟨hsettled p rfl, ih.2⟩⟩

section Readers

variable {d : Bool} {k : Nat} {self : Node → ReadM (Option Profile)}

theorem ensures_text {property : Property} (ht : property.isText = true) (n : JsonNode)
    (p : Profile) :
    (do return set p property (.text (← ReadM.ofResult (Node.json n).text?))).Ensures fun p' =>
      ∃ held, p' = Store.set p property.key held ∧ Holds d property n.value held := by
  refine ReadM.Ensures.bind (ReadM.ensures_ofResult fun _ h => h) fun t hread =>
    ReadM.ensures_pure ⟨_, rfl, property.admits_text ht t, ?_, by simp⟩
  rw [property.kept_text ht]
  exact contentsHeld_text hread

variable (hself : ∀ n : JsonNode, n.value.Distinct → n.value.rank < k →
  (self (.json n)).Ensures (Loaded d n.value))

include hself

theorem ensures_manager (n : JsonNode) (hd : n.value.Distinct) (hr : n.value.rank < k)
    (p : Profile) :
    (reader self .manager (.json n) p).Ensures fun p' =>
      ∃ held, p' = Store.set p Property.manager.key held ∧ Holds d .manager n.value held := by
  refine (hself n hd hr).bind fun found ⟨hcontents, hsettled⟩ =>
    ReadM.ensures_pure ⟨_, rfl, ?_⟩
  cases found with
  | none =>
      refine ⟨.inl rfl, ?_, List.forall_mem_nil _⟩
      rw [Property.kept, ← hcontents]
      rfl
  | some m =>
      refine ⟨.inr ⟨m, rfl⟩, ?_, List.forall_mem_singleton.mpr (hsettled m rfl)⟩
      rw [Property.kept, ← hcontents]
      rfl

theorem ensures_readAll? (n : JsonNode) (hd : n.value.Distinct) (hr : n.value.rank < k) :
    (Parsable.readAll? self (.json n)).Ensures fun found =>
      Store.contentsHeld (.ofModels? found) = keptReports n.value ∧
        ∀ ps ∈ found, ∀ m ∈ ps, Store.Everywhere (Settled d) m := by
  refine (Parsable.ensures_readAll? (R := Loaded d) fun items hv v hmem step => ?_).mono ?_
  · rw [hv] at hd hr
    exact hself _ (Json.distinct_array_iff.mp hd v hmem)
      (Nat.lt_of_le_of_lt (Json.rank_le_rankItems hmem) hr)
  · rintro found (⟨hv, rfl⟩ | ⟨items, each, hv, -, heach, rfl⟩)
    · exact ⟨by rw [hv]; rfl, by simp⟩
    · obtain ⟨hcontents, hsettled⟩ := loaded_each heach
      refine ⟨?_, by simpa using hsettled⟩
      rw [hv]
      exact congrArg Json.array hcontents

theorem ensures_reader (property : Property) (n : JsonNode) (hd : n.value.Distinct)
    (hr : n.value.rank < k) (p : Profile) :
    (reader self property (.json n) p).Ensures fun p' =>
      ∃ held, p' = Store.set p property.key held ∧ Holds d property n.value held := by
  cases property with
  | manager => exact ensures_manager hself n hd hr p
  | reports =>
      refine (ensures_readAll? hself n hd hr).bind fun found ⟨hcontents, hsettled⟩ =>
        ReadM.ensures_pure ⟨_, rfl, ?_⟩
      cases found with
      | none => exact ⟨.inl rfl, hcontents, List.forall_mem_nil _⟩
      | some ms => exact ⟨.inr ⟨ms, rfl⟩, hcontents, hsettled ms rfl⟩
  | _ => exact ensures_text rfl n p

theorem ensures_members {n : JsonNode} {members : Members Json}
    (hd : (Json.object members).Distinct) (hr : ∀ m ∈ members, m.2.rank < k) :
    ((members.map fun m => (m.1, Node.json (n.below m.1 m.2))).foldlM
      (Parsable.assign (readers self)) (Store.mk d false [])).Ensures (Progress d members) := by
  rw [List.foldlM_map]
  obtain ⟨hnodup, hdistinct⟩ := Json.distinct_object_iff.mp hd
  refine ReadM.ensures_foldlM (I := Progress d) (fun done m rest p hwhole hp => ?_) (.nil d)
  have hm : m ∈ members := by simp [← hwhole]
  have hnew : m.1 ∉ Members.keys done := by
    rw [← hwhole, Members.keys, List.map_append] at hnodup
    exact Members.not_mem_of_nodup hnodup
  rw [assign_eq]
  cases hproperty : Property.ofKey? m.1 with
  | none => exact ReadM.ensures_pure (hp.skip hproperty)
  | some property =>
      refine (ensures_reader hself property (n.below m.1 m.2) (hdistinct m hm) (hr m hm) p).mono ?_
      rintro _ ⟨held, rfl, hheld⟩
      exact hp.set hnew hproperty hheld

end Readers

/-- Layers that keep stores in step tell them whether they are complete. -/
theorem foldlM_observe {layers : List Layer} (hq : Layer.Quiet layers) (phase : Phase)
    (p : Profile) : layers.foldlM (Parsable.observe phase) p =
      pure (if layers = [] then p else Store.setInitialized (phase == .after) p) := by
  induction layers generalizing p with
  | nil => rfl
  | cons l layers ih =>
      obtain rfl : l = .changes := hq l List.mem_cons_self
      rw [List.foldlM_cons]
      show layers.foldlM (Parsable.observe phase) (Store.setInitialized (phase == .after) p) = _
      rw [ih fun l hl => hq l (List.mem_cons_of_mem _ hl), if_neg (List.cons_ne_nil _ _)]
      split
      · rfl
      · rw [Store.setInitialized, Store.setInitialized, Store.mark_mark]

/-- A profile that has been filled in is settled once the layers have seen it. -/
theorem Filling.finish {layers : List Layer} {p : Profile} (h : Filling layers.isEmpty p) :
    Store.Everywhere (Settled layers.isEmpty)
      (if layers = [] then p else Store.setInitialized true p) := by
  cases layers with
  | nil =>
      exact Store.everywhere_iff.mpr ⟨⟨h.proper, h.initialized, h.shows, h.marks⟩, h.nested⟩
  | cons l layers =>
      rw [if_neg (List.cons_ne_nil l layers)]
      refine settled_mark (Store.everywhere_iff.mpr ⟨⟨h.proper, rfl, h.shows⟩, ?_⟩)
      exact fun e he m hm t ht =>
        have ht := h.nested e he m hm t ht
        ⟨ht.proper, rfl, ht.shows⟩

/-- A new profile is filled in between the layers. -/
theorem ensures_assignAll {layers : List Layer} (hq : Layer.Quiet layers) {k : Nat}
    {self : Node → ReadM (Option Profile)}
    (hself : ∀ n : JsonNode, n.value.Distinct → n.value.rank < k →
      (self (.json n)).Ensures (Loaded layers.isEmpty n.value))
    {n : JsonNode} {members : Members Json} (hd : (Json.object members).Distinct)
    (hr : ∀ m ∈ members, m.2.rank < k) :
    (Parsable.assignAll layers self (members.map fun m => (m.1, Node.json (n.below m.1 m.2)))
      Store.empty).Ensures fun p => p.contents = .object (keptMembers members) ∧
        Store.Everywhere (Settled layers.isEmpty) p := by
  have hstart : (if layers = [] then Store.empty else Store.setInitialized false Store.empty) =
      ⟨layers.isEmpty, false, []⟩ := by
    cases layers <;> rfl
  rw [Parsable.assignAll, foldlM_observe hq, pure_bind]
  show ReadM.Ensures (List.foldlM (Parsable.assign (readers self))
    (if layers = [] then Store.empty else Store.setInitialized false Store.empty) _ >>= _) _
  rw [hstart]
  refine (ensures_members hself hd hr).bind fun p hp => ?_
  rw [foldlM_observe hq]
  refine ReadM.ensures_pure ⟨?_, hp.filling.finish⟩
  rw [← hp.contents]
  split
  · rfl
  · exact Store.contents_mark ..

/-- Reading gives the profile of what is kept of a value, or fails. -/
theorem ensures_readAt {c : Reading.Context Profile} (hq : Layer.Quiet c.layers)
    (hres : ∀ n f, c.resolve n f = f) (k : Nat) (n : JsonNode) (hd : n.value.Distinct)
    (hr : n.value.rank < k) :
    (Parsable.readAt c k Parsable.create (.json n)).Ensures (Loaded c.layers.isEmpty n.value) := by
  induction k generalizing n with
  | zero => cases hr
  | succ k ih =>
      rw [Parsable.readAt_succ]
      refine ReadM.Ensures.bind (ReadM.ensures_ofResult fun _ h => h) fun found hfound => ?_
      rcases Node.members?_json_ok hfound with ⟨hv, rfl⟩ | ⟨members, hv, rfl⟩
      · exact ReadM.ensures_pure ⟨by rw [hv]; rfl, by simp⟩
      · rw [hv] at hd hr
        have hranks : ∀ m ∈ members, m.2.rank < k := fun m hm =>
          Nat.lt_of_le_of_lt (Json.rank_le_rankMembers hm) (Nat.lt_of_succ_lt_succ hr)
        simp only [hres]
        show ReadM.Ensures (Parsable.assignAll c.layers _ _ Store.empty >>= _) _
        refine (ensures_assignAll hq ih hd hranks).bind fun p ⟨hcontents, hsettled⟩ =>
          ReadM.ensures_pure ⟨?_, by simpa using hsettled⟩
        rw [hv]
        exact congrArg some hcontents

/-! ### Whole payloads -/

section Payloads

variable {s : Serializer} {source : String} {content : Bytes} {p : Profile} {log : Log}

/-- A profile comes from a document, and holds what is kept of it. -/
theorem ensures_deserialize {key : String} {d : Decoder} {maxDepth : Nat}
    (hf : s.decoders.find source = .ok (key, d)) (hd : d.format = .json maxDepth)
    (hq : Layer.Quiet d.layers) (hm : s.discriminators.mapping? .profile = none) :
    (s.deserialize .profile source content Parsable.create).Ensures fun found =>
      ∃ v, content.text?.bind Json.ofString? = some v ∧ Loaded d.layers.isEmpty v found := by
  refine ReadM.Ensures.bind (ReadM.ensures_ofResult fun _ h => h) fun r hr => ?_
  obtain ⟨v, hv, rfl⟩ := (Serializer.root_ok_iff hf hd).mp hr
  obtain ⟨text, -, hparse⟩ := Option.bind_eq_some_iff.mp hv
  have hread := ensures_readAt (c := s.context .profile ⟨.json { value := v, maxDepth }, d.layers⟩)
    hq (fun n f => Discriminators.resolve_of_none hm n f) (v.rank + 1) { value := v, maxDepth }
    (Json.distinct_of_ofString? hparse) (Nat.lt_succ_self _)
  exact hread.mono fun found hfound => ⟨v, hv, hfound⟩

/-- A profile that was loaded between layers that keep stores in step has nothing marked. -/
theorem settled_of_wrapped {r : Decoders} {m limit : Nat} {key : String}
    (hs : s.decoders = (Registry.mapAll (Decoder.wrap .changes))^[m + 1] r)
    (hr : r.find source = .ok (key, .json limit))
    (hd : s.discriminators.mapping? .profile = none)
    (hload : (s.deserialize .profile source content Parsable.create).exec = (.ok (some p), log)) :
    ∃ v, content.text?.bind Json.ofString? = some v ∧ kept? v = some (Store.contents p) ∧
      Store.Everywhere (Settled false) p := by
  have hf := Decoders.find_wrapped (n := m + 1) hr
  rw [← hs] at hf
  obtain ⟨v, hv, hcontents, hsettled⟩ :=
    (ensures_deserialize hf rfl (Layer.quiet_replicate _) hd).of_exec hload
  exact ⟨v, hv, hcontents.symm, hsettled p rfl⟩

/-- Whatever is loaded between layers that keep stores in step starts clean. -/
theorem loaded_clean {t : Serializer} {r : Decoders} {w : Encoders} {m n limit : Nat}
    {target key key' : String}
    (hs : s.decoders = (Registry.mapAll (Decoder.wrap .changes))^[m + 1] r)
    (hr : r.find source = .ok (key, .json limit))
    (hd : s.discriminators.mapping? .profile = none)
    (ht : t.encoders = (Registry.mapAll (Encoder.wrap .changes))^[n + 1] w)
    (hw : w.find target = .ok (key', .json))
    (hload : (s.deserialize .profile source content Parsable.create).exec = (.ok (some p), log)) :
    (∃ v, content.text?.bind Json.ofString? = some v ∧ kept? v = some (Store.contents p)) ∧
      Store.Everywhere
        (fun q => q.initialized = true ∧ q.dirtyKeys = [] ∧ q.onlyChanged = false) p ∧
      (t.serialize target p).result =
        .ok ⟨ContentType.json, Bytes.ofString (Json.object []).text⟩ := by
  obtain ⟨v, hv, hcontents, hclean⟩ := settled_of_wrapped hs hr hd hload
  refine ⟨⟨v, hv, hcontents⟩, fun q hq => ?_, ?_⟩
  · have hbelow : Store.Everywhere (Settled false) q := fun u hu => hclean u (hq.trans hu)
    exact ⟨hbelow.root.initialized, Settled.dirtyKeys_eq_nil hbelow, hbelow.root.shows⟩
  · obtain ⟨u, hu, hsent⟩ := exists_update_of_wrapped ht hw (Settled.isProfile hclean)
      (Settled.unfiltered hclean)
    rw [hsent, (updates_of_clean_iff (Settled.dirtyKeys_eq_nil hclean)).mp hu]

def inStep : Serializer where
  encoders := Encoders.stock.mapAll (Encoder.wrap .changes)
  decoders := Decoders.stock.mapAll (Decoder.wrap .changes)

theorem inStep_root {text : String} {v : Json} (h : Json.ofString? text = some v) :
    inStep.root ContentType.json (Bytes.ofString text) =
      .ok ⟨.json { value := v }, [.changes]⟩ := by
  have hf : inStep.decoders.find ContentType.json = _ :=
    Decoders.find_wrapped (n := 1) Decoders.find_stock_json
  exact Serializer.root_of_text hf rfl h

def adaJson : Json := .object [
  ("id", .number "7"),
  ("extra", .bool true),
  ("manager", .object [("jobTitle", .null)]),
  ("reports", .array [.object [("displayName", .string "Ada")], .null])]

def ada : Profile :=
  ⟨true, false, [
    ⟨"id", false, .scalar .string "7"⟩,
    ⟨"manager", false, .model ⟨true, false, [⟨"jobTitle", false, .null⟩]⟩⟩,
    ⟨"reports", false, .models [
      ⟨true, false, [⟨"displayName", false, .scalar .string "Ada"⟩]⟩]⟩]⟩

set_option maxRecDepth 20000 in
theorem ofString?_adaJson : Json.ofString? adaJson.text = some adaJson := by
  rfl

set_option maxRecDepth 20000 in
theorem deserialize_ada :
    (inStep.deserialize .profile ContentType.json (Bytes.ofString adaJson.text)
      Parsable.create).exec = (.ok (some ada), []) := by
  rw [Serializer.deserialize, inStep_root ofString?_adaJson]
  rfl

theorem loaded_clean_ada :
    (∃ v, (Bytes.ofString adaJson.text).text?.bind Json.ofString? = some v ∧
      kept? v = some (Store.contents ada)) ∧
      Store.Everywhere (fun q => q.initialized = true ∧ q.dirtyKeys = [] ∧ q.onlyChanged = false)
        ada ∧
      (inStep.serialize ContentType.json ada).result =
        .ok ⟨ContentType.json, Bytes.ofString (Json.object []).text⟩ :=
  loaded_clean (m := 0) (n := 0) rfl Decoders.find_stock_json rfl rfl Encoders.find_stock_json
    deserialize_ada

end Payloads

end Profile

end Marshal
