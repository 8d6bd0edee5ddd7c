import Marshal.Proofs.Employee.Written

/-!
Undeclared fields of any names in a JSON document. They come after the declared members and never
take the place of one: a field that is named as a member that is there already is left out.
-/

namespace Marshal

namespace Employee

/-- The undeclared fields are a map, and so is every object within them. -/
structure Mapped (e : Employee) : Prop where
  names : (Members.keys e.additional).Nodup
  distinct : ∀ m ∈ e.additional, m.2.Distinct

/-- An object that an employee is written as: the members that are written when there are no
undeclared fields, and after them the undeclared fields that none of those is named as. The manager
and the colleagues are within the former, and the same holds of their objects. -/
inductive Annotated : Employee → Json → Prop
  | mk {e : Employee} {own : Members Json} {colleagues : Option (List Json)}
      (written : e.WrittenAs
        (.object (own ++ AdditionalData.json (e.additional.besides own.keys))))
      (bare : e.bare.WrittenAs (.object own)) (names : own.keys.Sublist declared)
      (manager : Option.Rel Annotated e.manager (own.get? "manager"))
      (array : own.get? "colleagues" = colleagues.map .array)
      (items : Option.Rel (List.Forall₂ Annotated) e.colleagues colleagues) :
      Annotated e (.object (own ++ AdditionalData.json (e.additional.besides own.keys)))

theorem Annotated.writtenAs {e : Employee} {v : Json} (h : e.Annotated v) : e.WrittenAs v := by
  cases h with
  | mk written => exact written

theorem adds_scripts_written {p : Particulars} (h : ∀ t ∈ p.created, t.HasText) :
    (Field.scripts Particulars.fields p).Adds (Field.present p.written.rows) := by
  have hexpressible : p.written.Expressible := ⟨h, p.known_written⟩
  rw [← p.scripts_written]
  exact Field.adds_scripts_of_writes hexpressible.writes

theorem forall_declaredMembers {P : Json → Prop} {rows : List Field.Row} {manager : Option Json}
    {colleagues : Option (List Json)} (hrows : ∀ m ∈ Field.present rows, P m.2)
    (hmanager : ∀ v ∈ manager, P v) (hcolleagues : ∀ vs ∈ colleagues, P (.array vs)) :
    ∀ m ∈ declaredMembers rows manager colleagues, P m.2 := by
  intro m hm
  rw [declaredMembers, List.mem_append, List.mem_append] at hm
  obtain hm | hm | hm := hm
  · exact hrows m hm
  · obtain ⟨v, hv, rfl⟩ := List.mem_map.mp hm
    exact hmanager v (Option.mem_toList.mp hv)
  · obtain ⟨vs, hvs, rfl⟩ := List.mem_map.mp hm
    exact hcolleagues vs (Option.mem_toList.mp hvs)

/-- One level: the objects of the employees around it are given. -/
theorem exists_annotated_of {e : Employee} (hcreated : ∀ t ∈ e.particulars.created, t.HasText)
    (hmapped : e.Mapped) {manager : Option Json} {colleagues : Option (List Json)}
    (hmanager : Option.Rel (fun e v => e.Annotated v ∧ v.Legible) e.manager manager)
    (hcolleagues : Option.Rel (List.Forall₂ fun e v => e.Annotated v ∧ v.Legible) e.colleagues
      colleagues) : ∃ v, e.Annotated v ∧ v.Legible := by
  have hrows := adds_scripts_written hcreated
  have hm := rel_mono hmanager fun _ _ h => h.1.writtenAs
  have hc := rel_mono hcolleagues fun _ _ h => h.imp fun _ _ h => h.1.writtenAs
  have hnames : e.particulars.written.rows.map Prod.fst = Particulars.fields.map (·.name) := rfl
  have hkeys := keys_declaredMembers hnames manager colleagues
  have hown := nodup_declared.sublist hkeys
  -- Both are the same writing, once with undeclared fields and once without.
  have hwritten := writtenAs_object hrows hm hc hmapped.distinct hmapped.names hown
  have hbare := writtenAs_object (e := e.bare) (by rwa [particulars_bare])
    (by rwa [manager_bare]) (by rwa [colleagues_bare])
    (by rw [additional_bare]; exact List.forall_mem_nil _)
    (by rw [additional_bare]; exact List.nodup_nil) hown
  rw [additional_bare, AdditionalData.besides, List.filter_nil, AdditionalData.json,
    Members.mapValues, List.map_nil, List.append_nil] at hbare
  have hgetManager := get?_declaredMembers_manager hnames manager colleagues
  have hgetColleagues := get?_declaredMembers_colleagues hnames manager colleagues
  have hannotated : Option.Rel Annotated e.manager manager := rel_mono hmanager fun _ _ h => h.1
  refine ⟨_, .mk hwritten hbare hkeys (hgetManager.symm ▸ hannotated) hgetColleagues
    (rel_mono hcolleagues fun _ _ h => h.imp fun _ _ h => h.1), ?_⟩
  have hnodup := AdditionalData.nodup_keys_besides hown hmapped.names
  refine Json.legible_object_iff.mpr ⟨by simpa [Members.keys] using hnodup, ?_⟩
  rw [List.forall_mem_append]
  refine ⟨forall_declaredMembers e.particulars.written.legible
    (forall_of_rel hmanager fun _ _ h => h.2)
    (forall_of_rel hcolleagues fun _ _ h => Json.legible_array_iff.mpr fun v hv => ?_), ?_⟩
  · obtain ⟨_, -, -, hlegible⟩ := exists_of_forall₂_of_mem h.flip hv
    exact hlegible
  · refine List.forall_mem_map.mpr fun m hmem => ?_
    exact m.2.legible_json (hmapped.distinct m (List.mem_of_mem_filter hmem))

theorem exists_annotated {e : Employee}
    (h : e.Everywhere fun e => e.Mapped ∧ ∀ t ∈ e.particulars.created, t.HasText) :
    ∃ v, e.Annotated v ∧ v.Legible := by
  induction h with
  | mk self _ _ hmanager hcolleagues =>
      obtain ⟨manager, hm⟩ := exists_rel hmanager
      obtain ⟨colleagues, hc⟩ := exists_rel fun es hes => exists_forall₂ (hcolleagues es hes)
      exact exists_annotated_of self.2 self.1 hm hc

/-- Whatever its undeclared fields are named, an employee that can be written as JSON is written as
an annotated object. The payload is read as that object, unless too many containers lie within each
other or one of them has the reserved name first. -/
theorem annotated_of_serialize {s : Serializer} {contentType key : String} {e : Employee}
    {p : Payload} (hc : s.encoders.find contentType = .ok (key, .json))
    (hmapped : e.Everywhere Mapped) (hsend : (s.serialize contentType e).result = .ok p) :
    ∃ v, p = ⟨ContentType.json, Bytes.ofString v.text⟩ ∧ e.Annotated v ∧
      (v.Unreserved → v.nesting < Json.nestingLimit → Json.ofString? v.text = some v) := by
  obtain ⟨⟨⟩, o, hrun⟩ := Serializer.exists_of_send_ok (Serializer.output_of_find hc) hsend
  have hcreated := everywhere_hasText hmapped ⟨_, _, _, _, _, Writing.runAt_of_ofUnmarked hrun⟩
  obtain ⟨v, hv, hlegible⟩ := exists_annotated (hmapped.and hcreated)
  have hputs := Outgoing.puts_ofUnmarked (a := e) (w := fun key => e.write key) (hv.writtenAs none)
  have hsent := Serializer.send_of_puts (Serializer.output_of_find hc) hputs e
    Writable.payloadType?
  refine ⟨v, ?_, hv, fun hunreserved => (hlegible.faithful hunreserved).ofString?_text⟩
  exact Except.ok.inj (hsend.symm.trans (congrArg Sent.result hsent))

/-- Undeclared fields that are named as members which are there, at every level; nothing is written
of the permissions, so that a field may have their name. -/
def disputed : Employee :=
  ⟨{ id := some "1", permissions := some ⟨16⟩ },
    some ⟨{ displayName := some "Eve" }, none, none,
      [("displayName", .string "Eva"), ("manager", .null)]⟩,
    some [⟨{}, none, none, [("id", .string "3")]⟩],
    [("colleagues", .array []), ("permissions", .bool false), ("id", .string "2"),
      ("notes", .object [("id", .array [.bool true, .string "x"])])]⟩

def disputedDocument : Json := .object [
  ("id", .string "1"),
  ("manager", .object [("displayName", .string "Eve"), ("manager", .null)]),
  ("colleagues", .array [.object [("id", .string "3")]]),
  ("permissions", .bool false),
  ("notes", .object [("id", .array [.bool true, .string "x"])])]

theorem annotated_of_serialize_disputed :
    (({} : Serializer).serialize ContentType.json disputed).result =
      .ok ⟨ContentType.json, Bytes.ofString disputedDocument.text⟩ ∧
    disputed.Annotated disputedDocument ∧
    Json.ofString? disputedDocument.text = some disputedDocument := by
  have hsend : (({} : Serializer).serialize ContentType.json disputed).result =
      .ok ⟨ContentType.json, Bytes.ofString disputedDocument.text⟩ := by decide +kernel
  have hmapped : disputed.Everywhere Mapped := by
    refine .mk ⟨by decide, by simp [disputed, additional, Untyped.Distinct, Untyped.DistinctItems,
      Untyped.DistinctMembers]⟩ (fun m hm => ?_) fun es hes c hmem => ?_
    · cases hm
      exact everywhere_alone ⟨by decide, by simp [additional, Untyped.Distinct]⟩
    · cases hes
      obtain rfl := List.mem_singleton.mp hmem
      exact everywhere_alone ⟨by decide, by simp [additional, Untyped.Distinct]⟩
  obtain ⟨v, -, hannotated, hread⟩ :=
    annotated_of_serialize (s := {}) Encoders.find_stock_json hmapped hsend
  -- The object that the employee is written as is the only one.
  have hrun : ((disputed.write none).exec ()).run ⟨.json {}, [], []⟩ =
      ((.ok (), ()), ⟨.json { root := some disputedDocument }, [], []⟩) := rfl
  have houtput := congrArg Prod.snd ((hannotated.writtenAs none {} _ [] rfl).symm.trans hrun)
  obtain rfl : v = disputedDocument :=
    Option.some.inj (JsonDraft.mk.inj (AnyDraft.json.inj (Output.mk.inj houtput).1)).2
  have hunreserved : disputedDocument.Unreserved := by
    simp [disputedDocument, Json.Unreserved, Json.UnreservedItems, Json.UnreservedMembers,
      Json.numberName]
  exact ⟨hsend, hannotated, hread hunreserved (by decide)⟩

end Employee

end Marshal
