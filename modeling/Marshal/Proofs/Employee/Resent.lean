import Marshal.Json.Access
import Marshal.Proofs.Employee.Kept
import Marshal.Proofs.Json.Resent

/-!
Undeclared members through an employee: read from a payload and written again, they come after the
declared members, once each and in their order, at every level.
-/

namespace Marshal

namespace Json

/-- The items of the array under a name, but for those that are null. Null in place of the array
counts as absent. -/
def someItems? (v : Json) (name : String) : Option (List Json) :=
  (v.some? name).map fun w => w.items.filter (!·.isNull)

variable {members : Members Json} {key name : String}

theorem some?_concat_self (h : key ∉ members.keys) (v : Json) :
    (object (members ++ [(key, v)])).some? key = (some v).filter (!·.isNull) := by
  rw [some?, member?_object, Members.get?_concat h]

theorem some?_concat_of_ne (h : name ≠ key) (v : Json) :
    (object (members ++ [(key, v)])).some? name = (object members).some? name := by
  rw [some?, some?, member?_object, member?_object, Members.get?_concat_of_ne h]

theorem someItems?_concat_of_ne (h : name ≠ key) (v : Json) :
    (object (members ++ [(key, v)])).someItems? name = (object members).someItems? name := by
  rw [someItems?, someItems?, some?_concat_of_ne h]

end Json

namespace Employee

/-- The second object is what an employee from the first is written as. -/
inductive Resent : Json → Json → Prop
  | mk {members own kept : Members Json} (own_declared : ∀ key ∈ Members.keys own, key ∈ declared)
      (undeclared : List.Forall₂ (fun m n => m.1 = n.1 ∧ m.2.Resent n.2)
        (members.filter fun m => m.1 ∉ declared) kept)
      (once : (Members.keys (own ++ kept)).Nodup)
      (manager : Option.Rel Resent ((Json.object members).some? "manager")
        ((Json.object own).some? "manager"))
      (colleagues : Option.Rel (List.Forall₂ Resent)
        ((Json.object members).someItems? "colleagues")
        ((Json.object own).someItems? "colleagues")) :
      Resent (.object members) (.object (own ++ kept))

/-- What an employee has from some members of an object. `R` tells which employees are read from
which values. -/
structure Gathers (R : Json → Employee → Prop) (members : Members Json) (e : Employee) : Prop where
  additional : e.additional =
    Members.mapValues Json.toUntyped (members.filter fun m => m.1 ∉ declared)
  manager : Option.Rel R ((Json.object members).some? "manager") e.manager
  colleagues : Option.Rel (List.Forall₂ R) ((Json.object members).someItems? "colleagues")
    e.colleagues

section Reading

variable {self : Node → ReadM (Option Employee)} {R : Json → Employee → Prop} {k : Nat}
  {members : Members Json} {e : Employee}

theorem mapValues_undeclared_concat (f : Json → Untyped) (name : String) (v : Json) :
    Members.mapValues f ((members ++ [(name, v)]).filter fun m => m.1 ∉ declared) =
      Members.mapValues f (members.filter fun m => m.1 ∉ declared) ++
        if name ∈ declared then [] else [(name, f v)] := by
  rw [List.filter_append, Members.mapValues, List.map_append]
  by_cases h : name ∈ declared <;> simp [h, Members.mapValues]

/-- A member that is neither manager nor colleagues changes nothing of these. -/
theorem Gathers.concat (h : Gathers R members e) {name : String} (hmanager : "manager" ≠ name)
    (hcolleagues : "colleagues" ≠ name) (v : Json) {e' : Employee} (hm : e'.manager = e.manager)
    (hc : e'.colleagues = e.colleagues)
    (ha : e'.additional = e.additional ++
      if name ∈ declared then [] else [(name, v.toUntyped)]) :
    Gathers R (members ++ [(name, v)]) e' where
  additional := by rw [ha, h.additional, mapValues_undeclared_concat]
  manager := by
    rw [Json.some?_concat_of_ne hmanager, hm]
    exact h.manager
  colleagues := by
    rw [Json.someItems?_concat_of_ne hcolleagues, hc]
    exact h.colleagues

theorem additional_eq_of_mem {name : String} (h : name ∈ declared) (data : AdditionalData)
    (v : Untyped) : data = data ++ if name ∈ declared then [] else [(name, v)] := by
  rw [if_pos h, List.append_nil]

/-- What is read of the items of an array, but for those that are null. -/
theorem forall₂_reduceOption {items : List Json} {each : List (Option Employee)}
    (h : List.Forall₂ (fun v => Option.Rel R ((some v).filter (!·.isNull))) items each) :
    List.Forall₂ R (items.filter (!·.isNull)) each.reduceOption := by
  induction h with
  | nil => exact .nil
  | @cons v found items each hv _ ih =>
      rw [Option.filter_some] at hv
      cases hnull : v.isNull with
      | true =>
          rw [hnull] at hv
          cases hv
          rwa [List.filter_cons_of_neg (by simp [hnull]), List.reduceOption_cons_of_none]
      | false =>
          rw [hnull] at hv
          cases hv with
          | some hv =>
              rw [List.filter_cons_of_pos (by simp [hnull]), List.reduceOption_cons_of_some]
              exact .cons hv ih

variable (hself : ∀ n : JsonNode, n.value.Distinct → n.value.rank < k →
  (self (.json n)).Ensures (Option.Rel R ((some n.value).filter (!·.isNull))))

include hself

theorem ensures_gathered_colleagues {n : JsonNode} (hnew : "colleagues" ∉ members.keys) {v : Json}
    (hdistinct : v.Distinct) (hrank : v.rank < k) :
    (Parsable.readAll? self (.json (n.below "colleagues" v))).Ensures
      (Option.Rel (List.Forall₂ R)
        ((Json.object (members ++ [("colleagues", v)])).someItems? "colleagues")) := by
  rw [Json.someItems?, Json.some?_concat_self hnew]
  refine (Parsable.ensures_readAll? (R := fun v => Option.Rel R ((some v).filter (!·.isNull)))
    fun items hitems item hitem step => ?_).mono fun found hfound => ?_
  · rw [JsonNode.value_below] at hitems
    subst hitems
    rw [Json.rank] at hrank
    exact hself ((n.below "colleagues" (.array items)).below step item)
      (Json.distinct_array_iff.mp hdistinct item hitem)
      (Nat.lt_of_le_of_lt (Json.rank_le_rankItems hitem) hrank)
  · rw [JsonNode.value_below] at hfound
    rcases hfound with ⟨rfl, rfl⟩ | ⟨items, each, rfl, -, heach, rfl⟩
    · exact .none
    · exact .some (forall₂_reduceOption heach)

/-- One member more. -/
theorem Gathers.ensures_assign {n : JsonNode} (h : Gathers R members e) {m : String × Json}
    (hnew : m.1 ∉ members.keys) (hdistinct : m.2.Distinct) (hrank : m.2.rank < k) :
    (Parsable.assign ⟨readers self⟩ e (m.1, .json (n.below m.1 m.2))).Ensures
      (Gathers R (members ++ [m])) := by
  obtain ⟨name, v⟩ := m
  obtain ⟨particulars, manager, colleagues, additional⟩ := e
  rcases readers_cases self name with
    ⟨f, hf, rfl, hreader⟩ | ⟨rfl, hreader⟩ | ⟨rfl, hreader⟩ | ⟨hname, hreader⟩
  · have hother : ∀ f ∈ Particulars.fields, "manager" ≠ f.name ∧ "colleagues" ≠ f.name := by decide
    have hmem : f.name ∈ declared := List.mem_append_left _ (List.mem_map_of_mem hf)
    simp only [Parsable.assign, hreader, FieldReaders.on_lift, particularsView]
    refine (ReadM.ensures_trivial _).bind fun p _ => ReadM.ensures_pure ?_
    exact h.concat (hother f hf).1 (hother f hf).2 v rfl rfl (additional_eq_of_mem hmem _ _)
  · simp only [Parsable.assign, hreader, on_managerReader]
    refine (hself (n.below "manager" v) hdistinct hrank).bind fun found hfound =>
      ReadM.ensures_pure ⟨?_, ?_, ?_⟩
    · rw [mapValues_undeclared_concat, ← h.additional]
      exact additional_eq_of_mem (by decide) _ _
    · rw [Json.some?_concat_self hnew]
      exact hfound
    · rw [Json.someItems?_concat_of_ne (by decide)]
      exact h.colleagues
  · simp only [Parsable.assign, hreader, on_colleaguesReader]
    refine (ensures_gathered_colleagues hself hnew hdistinct hrank).bind fun found hfound =>
      ReadM.ensures_pure ⟨?_, ?_, hfound⟩
    · rw [mapValues_undeclared_concat, ← h.additional]
      exact additional_eq_of_mem (by decide) _ _
    · rw [Json.some?_concat_of_ne (by decide)]
      exact h.manager
  · simp only [Parsable.assign, hreader]
    refine ReadM.ensures_pure (h.concat ?_ ?_ v rfl rfl ?_)
    · rintro rfl
      exact hname (by decide)
    · rintro rfl
      exact hname (by decide)
    · have hkeys : name ∉ Members.keys additional := by
        have hadditional : additional = _ := h.additional
        rw [hadditional, Members.keys_mapValues]
        exact fun hmem => hnew ((List.filter_sublist.map Prod.fst).subset hmem)
      rw [if_neg hname]
      exact Members.put_of_not_mem hkeys _

end Reading

/-! ### Writing -/

theorem isNull_json (e : Employee) : e.json.isNull = false := by
  rw [json_eq]
  rfl

theorem rel_map_right {α β γ : Type} {R : α → β → Prop} {S : α → γ → Prop} {f : β → γ}
    {a : Option α} {b : Option β} (h : Option.Rel R a b) (hf : ∀ x y, R x y → S x (f y)) :
    Option.Rel S a (b.map f) := by
  cases h with
  | none => exact .none
  | some h => exact .some (hf _ _ h)

theorem some?_manager (e : Employee) :
    (Json.object e.ownMembers).some? "manager" = e.manager.map json := by
  rw [Json.some?, Json.member?_object, ownMembers_eq, get?_declaredMembers_manager rfl]
  cases e.manager with
  | none => rfl
  | some m =>
      rw [Option.map_some, Option.filter_some, m.isNull_json]
      rfl

theorem someItems?_colleagues (e : Employee) :
    (Json.object e.ownMembers).someItems? "colleagues" = e.colleagues.map (·.map json) := by
  have hitems (es : List Employee) :
      (es.map json).filter (fun v => !v.isNull) = es.map json := by
    rw [List.filter_eq_self, List.forall_mem_map]
    intro c _
    rw [c.isNull_json]
    rfl
  rw [Json.someItems?, Json.some?, Json.member?_object, ownMembers_eq,
    get?_declaredMembers_colleagues rfl]
  cases e.colleagues with
  | none => rfl
  | some es => exact congrArg some (hitems es)

theorem forall₂_additional (ms : Members Json) :
    List.Forall₂ (fun m n => m.1 = n.1 ∧ m.2.Resent n.2) ms
      (AdditionalData.json (ms.mapValues Json.toUntyped)) := by
  have hmembers := Json.resentMembers_iff.mp (Json.resent_membersToUntyped ms)
  rwa [Json.membersToUntyped_eq, Untyped.jsonMembers_eq] at hmembers

/-- All members give an employee that is written with the undeclared ones as they were. -/
theorem Gathers.resent {members : Members Json} {e : Employee}
    (h : Gathers (fun v e => Resent v e.written.json) members e) (hnames : members.keys.Nodup) :
    Resent (.object members) e.written.json := by
  rw [json_eq, additional_written, h.additional]
  refine .mk (fun key hkey => e.written.keys_ownMembers.subset hkey) (forall₂_additional _) ?_ ?_ ?_
  · rw [Members.keys, List.map_append]
    refine List.nodup_append.mpr ⟨nodup_declared.sublist e.written.keys_ownMembers, ?_, ?_⟩
    · rw [← Members.keys, AdditionalData.json, Members.keys_mapValues, Members.keys_mapValues]
      exact hnames.sublist (List.filter_sublist.map Prod.fst)
    · rintro key hown _ hkey rfl
      rw [← Members.keys, AdditionalData.json, Members.keys_mapValues,
        Members.keys_mapValues] at hkey
      obtain ⟨m, hm, rfl⟩ := List.mem_map.mp hkey
      have hundeclared : m.1 ∉ declared := by simpa using (List.mem_filter.mp hm).2
      exact hundeclared (e.written.keys_ownMembers.subset hown)
  · rw [some?_manager, manager_written, Option.map_map]
    exact rel_map_right h.manager fun _ _ hm => hm
  · rw [someItems?_colleagues, colleagues_written, Option.map_map]
    refine rel_map_right h.colleagues fun items es heach => ?_
    rw [Function.comp_apply, List.map_map, List.forall₂_map_right_iff]
    exact heach

/-! ### Payloads -/

/-- An employee that is read gathers what it has from the members of the object, and so do those
within it. -/
theorem ensures_gathers {R : Json → Employee → Prop}
    (hR : ∀ members e, Gathers R members e → members.keys.Nodup → R (.object members) e)
    {context : Reading.Context Employee} (hlayers : context.layers = [])
    (hresolve : ∀ n f, context.resolve n f = f) (fuel : Nat) {n : JsonNode}
    (hdistinct : n.value.Distinct) (hfuel : n.value.rank < fuel) :
    (Parsable.readAt context fuel Parsable.create (.json n)).Ensures
      (Option.Rel R ((some n.value).filter (!·.isNull))) := by
  induction fuel generalizing n with
  | zero => exact absurd hfuel (Nat.not_lt_zero _)
  | succ fuel ih =>
      rw [Parsable.readAt_succ]
      refine ReadM.Ensures.bind (ReadM.ensures_ofResult fun _ h => h) fun found hfound => ?_
      rcases Node.members?_json_ok hfound with ⟨hv, rfl⟩ | ⟨members, hv, rfl⟩
      · rw [hv]
        exact ReadM.ensures_pure .none
      · rw [hv] at hdistinct hfuel ⊢
        obtain ⟨hnames, hmembers⟩ := Json.distinct_object_iff.mp hdistinct
        have hranks : ∀ m ∈ members, m.2.rank < fuel := fun m hm => by
          rw [Json.rank] at hfuel
          exact Nat.lt_of_le_of_lt (Json.rank_le_rankMembers hm) (Nat.lt_of_succ_lt_succ hfuel)
        have hcreate : (Parsable.create : Factory Employee) (.json n) = .ok empty := rfl
        simp only [hresolve, hcreate, ReadM.ofResult_ok, pure_bind, Parsable.assignAll, hlayers,
          List.foldlM_nil, fieldReaders_eq, bind_pure]
        rw [List.foldlM_map]
        refine (ReadM.ensures_foldlM (I := Gathers R)
          (fun done m rest e hwhole he => ?_) ?_).bind fun e he =>
            ReadM.ensures_pure (.some (hR members e he hnames))
        · have hm : m ∈ members := by simp [← hwhole]
          refine he.ensures_assign (fun n => ih (n := n)) ?_ (hmembers m hm) (hranks m hm)
          rw [← hwhole, Members.keys, List.map_append, List.map_cons] at hnames
          exact Members.not_mem_of_nodup hnames
        · exact ⟨rfl, .none, .none⟩

/-- Whatever object an employee is read from, the one that is written has its undeclared members. -/
theorem ensures_resent {context : Reading.Context Employee} (hlayers : context.layers = [])
    (hresolve : ∀ n f, context.resolve n f = f) (fuel : Nat) {n : JsonNode}
    (hdistinct : n.value.Distinct) (hfuel : n.value.rank < fuel) :
    (Parsable.readAt context fuel Parsable.create (.json n)).Ensures
      (Option.Rel (fun v e => Resent v e.written.json) ((some n.value).filter (!·.isNull))) :=
  ensures_gathers (fun _ _ h hnames => h.resent hnames) hlayers hresolve fuel hdistinct hfuel

theorem of_rel_filter {R : Json → Employee → Prop} {v : Json} {e : Employee}
    (h : Option.Rel R ((some v).filter (!·.isNull)) (some e)) : R v e := by
  rw [Option.filter_some] at h
  split_ifs at h
  · cases h with
    | some h => exact h
  · cases h

section Payloads

variable {source contentType key key' : String} {content : Bytes} {e : Employee} {log : Log}

theorem Received.expressible_written (h : e.Received)
    (hcreated : ∀ t ∈ e.particulars.created, t.HasText) : e.written.Expressible := by
  obtain ⟨particulars, manager, colleagues, additional⟩ := e
  exact ⟨⟨hcreated, particulars.known_written⟩, h.sound, h.names, h.undeclared⟩

/-- An employee that was read from JSON can be written as JSON if at every level its time has a
text, and else it cannot. The object that is written has the declared members first and then the
undeclared members of the object that was read, in their order, each once and as it was: only
numbers that are neither integers of 64 bits nor short enough for a double become the nearest double
or null. The same holds of managers and colleagues at any depth. -/
theorem resent_of_deserialize (hsource : Decoders.stock.find source = .ok (key, .json))
    (hc : Encoders.stock.find contentType = .ok (key', .json))
    (hread : (({} : Serializer).deserialize .employee source content Parsable.create).exec =
      (.ok (some e), log)) :
    ∃ v, content.text?.bind Json.ofString? = some v ∧
      ((∃ sent, (({} : Serializer).serialize contentType e).result = .ok sent) ↔
        e.Everywhere fun e => ∀ t ∈ e.particulars.created, t.HasText) ∧
      ∀ sent, (({} : Serializer).serialize contentType e).result = .ok sent →
        ∃ w, sent = ⟨ContentType.json, Bytes.ofString w.text⟩ ∧ Resent v w := by
  obtain ⟨n, -, hwithin⟩ := within_of_deserialize hsource hread
  obtain ⟨v, hv, hresent⟩ := ReadM.Ensures.of_exec
    (P := fun found => ∃ v, content.text?.bind Json.ofString? = some v ∧
      ∀ e ∈ found, Resent v e.written.json)
    (ensures_deserialize hsource fun v hv => by
      obtain ⟨text, -, hparse⟩ := Option.bind_eq_some_iff.mp hv
      refine (ensures_resent (n := { value := v }) rfl (fun _ _ => rfl) (v.rank + 1)
        (Json.distinct_of_ofString? hparse) (Nat.lt_succ_self _)).mono fun found hfound => ?_
      refine ⟨v, hv, fun e he => ?_⟩
      rw [Option.mem_def.mp he] at hfound
      exact of_rel_filter hfound) hread
  have hends : (∃ sent, (({} : Serializer).serialize contentType e).result = .ok sent) →
      e.Everywhere fun e => ∀ t ∈ e.particulars.created, t.HasText := by
    rintro ⟨sent, hsend⟩
    obtain ⟨⟨⟩, o', hrun⟩ := Serializer.exists_of_send_ok (output_of_find hc) hsend
    exact everywhere_hasText hwithin.everywhere ⟨_, _, _, _, _, Writing.runAt_of_ofUnmarked hrun⟩
  have hsend (hcreated : e.Everywhere fun e => ∀ t ∈ e.particulars.created, t.HasText) :=
    serialize_written hc ((hwithin.everywhere.and hcreated).written fun e h =>
      h.1.expressible_written h.2)
  refine ⟨v, hv, ⟨hends, fun hcreated => ⟨_, hsend hcreated⟩⟩, fun sent hsent => ?_⟩
  refine ⟨e.written.json, ?_, hresent e rfl⟩
  exact Except.ok.inj (hsent.symm.trans (hsend (hends ⟨sent, hsent⟩)))

end Payloads

def annotatedDocument : Json := .object [
  ("nickname", .string "meg"),
  ("manager", .object [("floor", .number "3")]),
  ("id", .string "1"),
  ("colleagues", .array [.null, .object [("vip", .bool false), ("age", .string "40")]]),
  ("extra", .object [("ratio", .number "0.50"), ("wings", .array [.string "east", .null])])]

def annotated : Employee :=
  ⟨{ id := some "1" },
    some ⟨{}, none, none, [("floor", .integer 3)]⟩,
    some [⟨{ age := some 40 }, none, none, [("vip", .bool false)]⟩],
    [("nickname", .string "meg"), ("extra", .object [("ratio", (Json.number "0.50").toUntyped),
      ("wings", .array [.string "east", .null])])]⟩

set_option maxRecDepth 20000 in
theorem ofString?_annotatedDocument :
    Json.ofString? annotatedDocument.text = some annotatedDocument := by
  rfl

theorem resent_of_deserialize_annotated :
    (({} : Serializer).deserialize .employee "application/json; charset=utf-8"
      (Bytes.ofString annotatedDocument.text) Parsable.create).exec = (.ok (some annotated), []) ∧
    ∃ w, (({} : Serializer).serialize "Application/vnd.acme+JSON" annotated).result =
      .ok ⟨ContentType.json, Bytes.ofString w.text⟩ ∧ Resent annotatedDocument w := by
  have hsource : Decoders.stock.find "application/json; charset=utf-8" =
      .ok (ContentType.json, .json) := rfl
  have hread : (({} : Serializer).deserialize .employee "application/json; charset=utf-8"
      (Bytes.ofString annotatedDocument.text) Parsable.create).exec =
      (.ok (some annotated), []) := by
    rw [deserialize_text hsource ofString?_annotatedDocument]
    rfl
  have hc : Encoders.stock.find "Application/vnd.acme+JSON" = .ok (ContentType.json, .json) := rfl
  have htimes : annotated.Everywhere fun e => ∀ t ∈ e.particulars.created, t.HasText := by
    refine .mk (fun _ ht => absurd ht (Option.not_mem_none _)) (fun m hm => ?_)
      fun es hes c hmem => ?_
    · cases hm
      exact everywhere_alone fun _ ht => absurd ht (Option.not_mem_none _)
    · cases hes
      obtain rfl := List.mem_singleton.mp hmem
      exact everywhere_alone fun _ ht => absurd ht (Option.not_mem_none _)
  obtain ⟨v, hv, hends, hsent⟩ := resent_of_deserialize hsource hc hread
  rw [Bytes.text?_ofString, Option.bind_some, ofString?_annotatedDocument] at hv
  obtain rfl := Option.some.inj hv
  obtain ⟨sent, hsend⟩ := hends.mpr htimes
  obtain ⟨w, rfl, hw⟩ := hsent sent hsend
  exact ⟨hread, w, hsend, hw⟩

/-! ### Payloads that change -/

def Writes (v : Json) (result : Result Payload) : Prop :=
  ∃ e, (({} : Serializer).deserialize .employee ContentType.json (Bytes.ofString v.text)
      Parsable.create).exec = (.ok (some e), []) ∧
    (({} : Serializer).serialize ContentType.json e).result = result

/-- One undeclared member, and nothing else. -/
theorem writes_alone {name : String} (hname : name ∉ declared) {v : Json}
    (hparse : Json.ofString? (Json.object [(name, v)]).text = some (.object [(name, v)]))
    (hread : (Parsable.read? (({} : Serializer).context .employee
        ⟨.json { value := .object [(name, v)] }, []⟩) Parsable.create
        (.json { value := .object [(name, v)] })).exec =
      (.ok (some ⟨{}, none, none, [(name, v.toUntyped)]⟩), [])) :
    Writes (.object [(name, v)]) (.ok ⟨ContentType.json,
      Bytes.ofString (Json.object [(name, v.toUntyped.json)]).text⟩) := by
  have hdistinct := (Json.distinct_object_iff.mp (Json.distinct_of_ofString? hparse)).2
  refine ⟨⟨{}, none, none, [(name, v.toUntyped)]⟩, ?_, ?_⟩
  · rw [deserialize_text Decoders.find_stock_json hparse, hread]
  · refine serialize_written (e := ⟨{}, none, none, [(name, v.toUntyped)]⟩) rfl
      (everywhere_alone ⟨⟨?_, ?_⟩, ?_, List.nodup_singleton name, ?_⟩)
    · exact fun _ ht => absurd ht (Option.not_mem_none _)
    · exact fun _ hs => absurd hs (Option.not_mem_none _)
    · exact List.forall_mem_singleton.mpr
        (v.sound_toUntyped (hdistinct _ (List.mem_singleton_self _)))
    · exact List.forall_mem_singleton.mpr hname

theorem valueOf?_large :
    Json.valueOf? "18446744073709551615" = some 18446744073709551615 ∧
    Json.valueOf? "1.8446744073709552e+19" = some 18446744073709552000 := by
  have hbefore : Numeral.ofChars? "18446744073709551615".toList =
      some (.finite false 18446744073709551615 0) := by decide +kernel
  have hafter : Numeral.ofChars? "1.8446744073709552e+19".toList =
      some (.finite false 18446744073709552 3) := by decide +kernel
  rw [Json.valueOf?, Json.valueOf?, hbefore, hafter]
  norm_num [Numeral.value?]

/-- The nearest double of a large integer is another number, a number past all doubles becomes null,
and nothing is written of a time without a text. -/
theorem writes_changed :
    Writes (.object [("n", .number "18446744073709551615")])
      (.ok ⟨ContentType.json, Bytes.ofString
        (Json.object [("n", .number "1.8446744073709552e+19")]).text⟩) ∧
    Json.valueOf? "18446744073709551615" ≠ Json.valueOf? "1.8446744073709552e+19" ∧
    Writes (.object [("n", .number "1e+400")])
      (.ok ⟨ContentType.json, Bytes.ofString (Json.object [("n", .null)]).text⟩) ∧
    ∃ cause, Writes (.object [("created", .string "-000001-01-01T00:00:00Z")])
      (.error (.format cause)) := by
  have hlarge : (Json.number "18446744073709551615").toUntyped.json =
      .number "1.8446744073709552e+19" := rfl
  have hfar : (Json.number "1e+400").toUntyped.json = .null := by
    have hinteger : Json.integer? "1e+400" = none := by decide +kernel
    have hdouble : Json.double? "1e+400" = none := by decide +kernel
    rw [Json.toUntyped, Json.numberToUntyped, hinteger, hdouble, Untyped.json]
  rw [← hlarge, ← hfar]
  refine ⟨writes_alone (by decide) rfl rfl, ?_, writes_alone (by decide) rfl rfl, _,
    ⟨{ created := some ⟨⟨-1, 1, 1, by decide⟩, default, 0, by decide⟩ }, none, none, []⟩, ?_, rfl⟩
  · rw [valueOf?_large.1, valueOf?_large.2]
    norm_num
  · have hparse : Json.ofString?
        (Json.object [("created", .string "-000001-01-01T00:00:00Z")]).text =
        some (.object [("created", .string "-000001-01-01T00:00:00Z")]) := rfl
    rw [deserialize_text Decoders.find_stock_json hparse, Parsable.read?, Parsable.readAt_succ]
    rfl

end Employee

end Marshal
