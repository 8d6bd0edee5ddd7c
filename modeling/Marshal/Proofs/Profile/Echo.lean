import Marshal.Proofs.Profile.Loading

/-!
Sending all of a profile. A payload in which every member is declared and of its own type comes back
but for the order of its members, when everything in the profile counts as changed.
-/

namespace Marshal

namespace Profile

/-! ### Payloads that say nothing undeclared -/

mutual

/-- An object of declared members only: texts, a manager of the same shape, and an array of such
reports. Each of them may be null. -/
def Payload : Json → Prop
  | .object members => PayloadMembers members
  | _ => False

def PayloadMembers : List (String × Json) → Prop
  | [] => True
  | (key, v) :: ms =>
    (match Property.ofKey? key with
    | none => False
    | some .manager => v = .null ∨ Payload v
    | some .reports => v = .null ∨ PayloadReports v
    | some _ => v = .null ∨ ∃ s, v = .string s) ∧ PayloadMembers ms

def PayloadReports : Json → Prop
  | .array vs => PayloadItems vs
  | _ => False

def PayloadItems : List Json → Prop
  | [] => True
  | v :: vs => Payload v ∧ PayloadItems vs

end

def Property.Takes : Property → Json → Prop
  | .manager, v => v = .null ∨ Payload v
  | .reports, v => v = .null ∨ PayloadReports v
  | _, v => v = .null ∨ ∃ s, v = .string s

theorem payloadMembers_iff {ms : List (String × Json)} :
    PayloadMembers ms ↔
      ∀ m ∈ ms, ∃ property, Property.ofKey? m.1 = some property ∧ property.Takes m.2 := by
  induction ms with
  | nil => simp [PayloadMembers]
  | cons m ms ih =>
      rw [PayloadMembers, ih, List.forall_mem_cons]
      refine and_congr_left fun _ => ?_
      cases h : Property.ofKey? m.1 with
      | none => simp
      | some property => cases property <;> simp [Property.Takes]

theorem payloadItems_iff {vs : List Json} : PayloadItems vs ↔ ∀ v ∈ vs, Payload v := by
  induction vs with
  | nil => simp [PayloadItems]
  | cons v vs ih => rw [PayloadItems, ih, List.forall_mem_cons]

mutual

/-- All of a payload is kept. -/
theorem kept?_of_payload : ∀ {v : Json}, Payload v → kept? v = some v
  | .object _, h => by rw [kept?, keptMembers_of_payload h]
  | .null, h | .bool _, h | .number _, h | .string _, h | .array _, h => h.elim

theorem keptMembers_of_payload :
    ∀ {ms : List (String × Json)}, PayloadMembers ms → keptMembers ms = ms
  | [], _ => rfl
  | (key, v) :: ms, h => by
      have hrest := keptMembers_of_payload h.2
      have hv := h.1
      rw [keptMembers, hrest]
      cases hkey : Property.ofKey? key with
      | none => simp [hkey] at hv
      | some property =>
          rw [hkey] at hv
          cases property with
          | manager =>
              rcases hv with rfl | hv
              · rfl
              · simp only [kept?_of_payload hv, Option.getD_some]
          | reports =>
              rcases hv with rfl | hv
              · rfl
              · simp only [keptReports_of_payload hv]
          | _ => rcases hv with rfl | ⟨s, rfl⟩ <;> rfl

theorem keptReports_of_payload : ∀ {v : Json}, PayloadReports v → keptReports v = v
  | .array _, h => by rw [keptReports, keptItems_of_payload h]
  | .null, h | .bool _, h | .number _, h | .string _, h | .object _, h => h.elim

theorem keptItems_of_payload : ∀ {vs : List Json}, PayloadItems vs → keptItems vs = vs
  | [], _ => rfl
  | _ :: _, h => by
      rw [keptItems, kept?_of_payload h.1, keptItems_of_payload h.2]
      rfl

end

/-! ### They can be read -/

section Readers

variable {k : Nat} {self : Node → ReadM (Option Profile)}
  (hself : ∀ n : JsonNode, n.value = .null ∨ Payload n.value → n.Room n.value.depth →
    n.value.rank < k → (self (.json n)).Returns)

include hself

theorem returns_readAll? {n : JsonNode} (hv : n.value = .null ∨ PayloadReports n.value)
    (hroom : n.Room n.value.depth) (hr : n.value.rank < k) :
    (Parsable.readAll? self (.json n)).Returns := by
  cases hvalue : n.value with
  | null =>
      have hnone : (Node.json n).elements? = .ok none := by
        simp [Node.elements?, JsonNode.elements?, hvalue, bind, Except.bind, pure, Except.pure]
      rw [Parsable.readAll?, hnone]
      exact ReadM.returns_pure none
  | array items =>
      rw [hvalue] at hv hroom hr
      have hitems : ∀ v ∈ items, n.Room (v.depth + 1) := fun v hmem =>
        hroom.mono (Json.depth_lt_depthItems hmem)
      have hpayload : ∀ v ∈ items, Payload v := by
        simpa [PayloadReports, payloadItems_iff] using hv
      have hsome := Node.elements?_json hvalue fun hne => by
        obtain ⟨v, hmem⟩ := List.exists_mem_of_ne_nil items hne
        exact (hitems v hmem).mono (Nat.le_add_left ..)
      rw [Parsable.readAll?, hsome, ReadM.ofResult_ok, pure_bind]
      show ReadM.Returns (((n.itemsBelow 0 items).map Node.json).mapM self >>= _)
      rw [List.mapM_map]
      refine (ReadM.returns_mapM fun c hc => ?_).bind fun found => ReadM.returns_pure _
      obtain ⟨step, v, hmem, rfl⟩ := JsonNode.exists_of_mem_itemsBelow hc
      exact hself _ (.inr (hpayload v hmem)) ((hitems v hmem).below step v)
        (Nat.lt_of_le_of_lt (Json.rank_le_rankItems hmem) hr)
  | _ =>
      rw [hvalue] at hv
      exact (hv.resolve_left (by simp)).elim

theorem returns_reader {property : Property} {n : JsonNode} (hv : property.Takes n.value)
    (hroom : n.Room n.value.depth) (hr : n.value.rank < k) (p : Profile) :
    (reader self property (.json n) p).Returns := by
  cases property with
  | manager => exact (hself n hv hroom hr).bind fun found => ReadM.returns_pure _
  | reports => exact (returns_readAll? hself hv hroom hr).bind fun found => ReadM.returns_pure _
  | _ =>
      have hread : ∃ t, (Node.json n).text? = .ok t := by
        show ∃ t, n.text? = .ok t
        rw [JsonNode.text?]
        rcases hv with hv | ⟨s, hv⟩ <;> rw [hv] <;> exact ⟨_, rfl⟩
      obtain ⟨t, ht⟩ := hread
      exact (ReadM.returns_ofResult ht).bind fun t => ReadM.returns_pure _

end Readers

/-- A payload is read wherever the depth allows it. -/
theorem returns_readAt {c : Reading.Context Profile} (hq : Layer.Quiet c.layers)
    (hres : ∀ n f, c.resolve n f = f) (k : Nat) (n : JsonNode)
    (hv : n.value = .null ∨ Payload n.value) (hroom : n.Room n.value.depth)
    (hr : n.value.rank < k) : (Parsable.readAt c k Parsable.create (.json n)).Returns := by
  induction k generalizing n with
  | zero => cases hr
  | succ k ih =>
      rw [Parsable.readAt_succ]
      cases hvalue : n.value with
      | null =>
          have hnone : (Node.json n).members? = .ok none := by
            simp [Node.members?, JsonNode.members?, hvalue, bind, Except.bind, pure, Except.pure]
          rw [hnone]
          exact ReadM.returns_pure none
      | object members =>
          rw [hvalue] at hv hroom hr
          have hmembers : ∀ m ∈ members, n.Room (m.2.depth + 1) := fun m hmem =>
            hroom.mono (Json.depth_lt_depthMembers hmem)
          have htakes := payloadMembers_iff.mp (hv.resolve_left (by simp))
          have hsome := Node.members?_json hvalue fun hne => by
            obtain ⟨m, hmem⟩ := List.exists_mem_of_ne_nil members hne
            exact (hmembers m hmem).mono (Nat.le_add_left ..)
          rw [hsome, ReadM.ofResult_ok, pure_bind]
          simp only [hres]
          show ReadM.Returns (Parsable.assignAll c.layers _ _ Store.empty >>= _)
          rw [Parsable.assignAll, foldlM_observe hq, pure_bind, List.foldlM_map]
          refine ReadM.Returns.bind
            (.bind (ReadM.returns_foldlM (fun m hmem p => ?_) _) fun p => ?_)
            fun p => ReadM.returns_pure _
          · obtain ⟨property, hproperty, htake⟩ := htakes m hmem
            show ReadM.Returns (Parsable.assign (readers _) p _)
            rw [assign_eq, hproperty]
            exact returns_reader ih htake ((hmembers m hmem).below ..)
              (Nat.lt_of_le_of_lt (Json.rank_le_rankMembers hmem) (Nat.lt_of_succ_lt_succ hr)) p
          · rw [foldlM_observe hq]
            exact ReadM.returns_pure _
      | _ =>
          rw [hvalue] at hv
          exact (hv.resolve_left (by simp)).elim

/-! ### Everything is sent -/

/-- What is written of a profile that is marked all over is all that it holds. -/
theorem same_contents_of_updates {p : Store} (h : Store.Everywhere (Settled true) p) {v : Json}
    (hv : Updates p v) : Json.Same p.contents v := by
  induction p using Store.induct generalizing v with
  | step p ih =>
      have hheld (e : Entry Store) (he : e ∈ p.entries) (u : Json) (hu : HeldUpdate e.held u) :
          Json.Same (Store.contentsHeld e.held) u := by
        obtain ⟨key, dirty, held⟩ := e
        cases held with
        | null => exact hu
        | scalar k s =>
            cases k with
            | string => exact hu
            | _ => exact hu.elim
        | model m =>
            have hm : m ∈ (Held.model m).nested := List.mem_singleton_self m
            exact ih _ he m hm (h.nested he hm) hu
        | models ms =>
            obtain ⟨vs, rfl, hvs⟩ := hu
            exact Store.same_contentsEach (fun m hm v hv => ih _ he m hm (h.nested he hm) hv)
              (modelsUpdate_iff.mp hvs)
        | _ => exact hu.elim
      obtain ⟨members, rfl, hperm, hentries⟩ := updates_iff.mp hv
      rw [h.root.dirtyKeys_eq_allKeys] at hperm
      have hnodup := h.root.proper.nodup
      rw [Store.contents_eq]
      refine Json.same_object (by rwa [Store.keys_contents]) (hperm.nodup_iff.mpr hnodup) ?_ ?_
      · intro key hkey
        rw [Store.keys_contents]
        exact hperm.mem_iff.mp hkey
      · intro m hm
        obtain ⟨e, he, rfl⟩ := List.mem_map.mp hm
        have hchanged : Store.changed e = true := by
          rw [Store.changed, h.root.marks e he, Bool.true_or]
        obtain ⟨u, hget, hu⟩ := hentries e he hchanged
        exact ⟨u, hget, hheld e he u hu⟩

theorem settled_makeSendable {d : Bool} {p : Store} (h : Store.Everywhere (Settled d) p) :
    Store.Everywhere (Settled true) p.makeSendable :=
  settled_mark fun t ht => ⟨(h t ht).proper, (h t ht).initialized, (h t ht).shows⟩

section Payloads

variable {limit : Nat} {source key : String} {content : Bytes} {v : Json}

/-- A payload that is not too deep can be loaded, and is held as it is. -/
theorem exists_loaded {s : Serializer} {d : Decoder}
    (hf : s.decoders.find source = .ok (key, d)) (hd : d.format = .json limit)
    (hq : Layer.Quiet d.layers) (hm : s.discriminators.mapping? .profile = none)
    (htext : content.text?.bind Json.ofString? = some v) (hv : Payload v)
    (hdepth : v.depth ≤ limit) :
    ∃ p, (s.deserialize .profile source content Parsable.create).exec = (.ok (some p), []) ∧
      Store.contents p = v ∧ Store.Everywhere (Settled d.layers.isEmpty) p := by
  have hroot := (Serializer.root_ok_iff hf hd).mpr ⟨v, htext, rfl⟩
  have hroom : ({ value := v, maxDepth := limit } : JsonNode).Room v.depth := by
    simpa [JsonNode.Room] using hdepth
  have hreturns : (s.deserialize .profile source content Parsable.create).Returns := by
    rw [Serializer.deserialize, hroot, ReadM.ofResult_ok, pure_bind]
    exact returns_readAt
      (c := s.context .profile ⟨.json { value := v, maxDepth := limit }, d.layers⟩) hq
      (fun n f => Discriminators.resolve_of_none hm n f) _ _ (.inr hv) hroom (Nat.lt_succ_self _)
  obtain ⟨found, hexec, u, hu, hcontents, hsettled⟩ :=
    hreturns.exists_exec (ensures_deserialize hf hd hq hm)
  obtain rfl : v = u := Option.some.inj (htext.symm.trans hu)
  rw [kept?_of_payload hv] at hcontents
  obtain ⟨p, rfl, hp⟩ := Option.map_eq_some_iff.mp hcontents
  exact ⟨p, hexec, hp, hsettled p rfl⟩

/-- A payload comes back, up to the order of members, when all of it is sent: what was read without
layers counts as changed, and so does what has been marked for sending. What is sent is read as the
object that it is the text of. -/
theorem full_send {plain wrapped out : Serializer} {r : Decoders} {w : Encoders} {m n : Nat}
    {target key' : String} (hv : Payload v)
    (htext : content.text?.bind Json.ofString? = some v) (hdepth : v.depth ≤ limit)
    (hr : r.find source = .ok (key, .json limit)) (hplain : plain.decoders = r)
    (hwrapped : wrapped.decoders = (Registry.mapAll (Decoder.wrap .changes))^[m + 1] r)
    (hd : plain.discriminators.mapping? .profile = none)
    (hd' : wrapped.discriminators.mapping? .profile = none)
    (hw : w.find target = .ok (key', .json))
    (hout : out.encoders = (Registry.mapAll (Encoder.wrap .changes))^[n + 1] w) :
    (∃ p u,
      (plain.deserialize .profile source content Parsable.create).exec = (.ok (some p), []) ∧
      (out.serialize target p).result = .ok ⟨ContentType.json, Bytes.ofString u.text⟩ ∧
      Json.Same v u ∧ Json.ofString? u.text = some u) ∧
    ∃ p u,
      (wrapped.deserialize .profile source content Parsable.create).exec = (.ok (some p), []) ∧
      (out.serialize target (Store.makeSendable p)).result =
        .ok ⟨ContentType.json, Bytes.ofString u.text⟩ ∧
      Json.Same v u ∧ Json.ofString? u.text = some u := by
  have hsend (p : Profile) (hp : Store.Everywhere (Settled true) p) (hc : Store.contents p = v) :
      ∃ u, (out.serialize target p).result = .ok ⟨ContentType.json, Bytes.ofString u.text⟩ ∧
        Json.Same v u ∧ Json.ofString? u.text = some u := by
    obtain ⟨u, hu, hsent⟩ := exists_update_of_wrapped hout hw (Settled.isProfile hp)
      (Settled.unfiltered hp)
    have hsame : Json.Same v u := hc ▸ same_contents_of_updates hp hu
    obtain ⟨text, -, hparse⟩ := Option.bind_eq_some_iff.mp htext
    have hnesting := Json.nesting_lt_of_ofString? hparse
    rw [Json.nesting_eq_of_same hsame] at hnesting
    exact ⟨u, congrArg Sent.result hsent, hsame,
      (faithful_of_updates (Settled.isProfile hp) hu).ofString?_text hnesting⟩
  constructor
  · rw [← hplain] at hr
    obtain ⟨p, hload, hc, hp⟩ := exists_loaded hr rfl Layer.quiet_nil hd htext hv hdepth
    obtain ⟨u, hu, hsame⟩ := hsend p hp hc
    exact ⟨p, u, hload, hu, hsame⟩
  · have hf := Decoders.find_wrapped (n := m + 1) hr
    rw [← hwrapped] at hf
    obtain ⟨p, hload, hc, hp⟩ :=
      exists_loaded hf rfl (Layer.quiet_replicate _) hd' htext hv hdepth
    obtain ⟨u, hu, hsame⟩ := hsend (Store.makeSendable p) (settled_makeSendable hp)
      ((Store.contents_mark ..).trans hc)
    exact ⟨p, u, hload, hu, hsame⟩

def eveJson : Json := .object [
  ("reports", .array [.object [("jobTitle", .null), ("id", .string "r1")], .object []]),
  ("manager", .null),
  ("displayName", .string "Eve")]

theorem payload_eveJson : Payload eveJson := by
  simp [eveJson, Payload, PayloadMembers, PayloadReports, PayloadItems, Property.ofKey?,
    Property.all, Property.key]

set_option maxRecDepth 20000 in
theorem ofString?_eveJson : Json.ofString? eveJson.text = some eveJson := by
  rfl

theorem full_send_eve :
    (∃ p u,
      (({} : Serializer).deserialize .profile ContentType.json (Bytes.ofString eveJson.text)
        Parsable.create).exec = (.ok (some p), []) ∧
      (inStep.serialize ContentType.json p).result =
        .ok ⟨ContentType.json, Bytes.ofString u.text⟩ ∧
      Json.Same eveJson u ∧ Json.ofString? u.text = some u) ∧
    ∃ p u,
      (inStep.deserialize .profile ContentType.json (Bytes.ofString eveJson.text)
        Parsable.create).exec = (.ok (some p), []) ∧
      (inStep.serialize ContentType.json (Store.makeSendable p)).result =
        .ok ⟨ContentType.json, Bytes.ofString u.text⟩ ∧
      Json.Same eveJson u ∧ Json.ofString? u.text = some u := by
  have htext : (Bytes.ofString eveJson.text).text?.bind Json.ofString? = some eveJson := by
    rw [Bytes.text?_ofString, Option.bind_some, ofString?_eveJson]
  exact full_send (m := 0) (n := 0) payload_eveJson htext (by decide +kernel)
    Decoders.find_stock_json rfl rfl rfl rfl Encoders.find_stock_json rfl

end Payloads

end Profile

end Marshal
