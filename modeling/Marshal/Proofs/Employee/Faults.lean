import Marshal.Proofs.Employee.Slots
import Marshal.Proofs.Receiving

/-!
Reading employees that may be at fault. Reading ends well if no node offends or is too deep, and
else at the first node that does.
-/

namespace Marshal

open Json (Place)

namespace Employee

/-! ### Scalars and lists -/

theorem ends_scalar (k : Kind) (n : JsonNode) :
    (ReadM.ofResult (n.read? k)).Ends (((Slot.scalar k).bar? n.left n.value).map n.Due) := by
  rcases JsonNode.local_read? k n { value := n.value } rfl with
    ⟨x, hread, hroot⟩ | ⟨cause, hread, hroot⟩ <;> dsimp only at hread hroot
  · have haccepts : (Slot.scalar k).accepts n.value = true := by rw [Slot.accepts, hroot]; rfl
    rw [Slot.bar?_scalar haccepts]
    exact ReadM.succeeds_ofResult hread
  · have hrefused : (Slot.scalar k).accepts n.value = false := by rw [Slot.accepts, hroot]; rfl
    rw [Slot.bar?_of_not_accepts hrefused]
    exact ReadM.fails_ofResult hread JsonNode.due_nil

/-- How reading what stands a step further down ends. -/
theorem ends_below {α : Type} (s : Slot) {t : Slot} {step : String} (hstep : s.step? step = some t)
    {n : JsonNode} (hroom : n.Room 1) {v : Json} {r : ReadM α}
    (h : r.Ends ((t.bar? (n.below step v).left v).map (n.below step v).Due)) :
    r.Ends ((((s.step? step).bind (·.bar? (n.left - 1) v)).map (step :: ·)).map n.Due) := by
  rw [hstep, Option.bind_some, Option.map_map, ← n.left_below step v]
  convert h using 2
  funext place
  exact (JsonNode.due_below hroom step v place).symm

/-- The way through a list ends at the first item that bars it. -/
theorem ends_readAll? {α : Type} {item : Slot} {read : Node → ReadM (Option α)} {n : JsonNode}
    (hread : ∀ items, n.value = .array items → ∀ v ∈ items, ∀ step,
      (read (.json (n.below step v))).Ends
        ((item.bar? (n.below step v).left v).map (n.below step v).Due)) :
    (Parsable.readAll? read (.json n)).Ends
      (((Slot.list item).bar? n.left n.value).map n.Due) := by
  cases hv : n.value with
  | null =>
      have helements : (Node.json n).elements? = .ok none := by
        rw [Node.elements?, JsonNode.elements?, hv]
        rfl
      simp only [Parsable.readAll?, helements]
      exact ReadM.succeeds_pure none
  | array items =>
      by_cases hroom : items ≠ [] → n.Room 1
      · have helements := Node.elements?_json hv hroom
        simp only [Parsable.readAll?, helements, ReadM.ofResult_ok, pure_bind]
        refine ReadM.Ends.bind_pure ?_ fun found : List (Option α) => some found.reduceOption
        have hchildren : (Json.array items).children ≠ [] → 1 ≤ n.left :=
          fun hne => (hroom fun hnil => hne (by rw [hnil]; rfl)).le_left
        rw [Slot.bar?_children rfl hchildren, Json.children, List.findSome?_map, List.mapM_map,
          JsonNode.itemsBelow, List.mapM_map]
        refine ReadM.ends_mapM fun i hi => ?_
        have hmem := List.fst_mem_of_mem_zipIdx hi
        exact ends_below (.list item) rfl (hroom (List.ne_nil_of_mem hmem))
          (hread items hv i.1 hmem (natText i.2))
      · obtain ⟨hne, hfull⟩ := Classical.not_imp.mp hroom
        obtain ⟨v, vs, rfl⟩ := List.exists_cons_of_ne_nil hne
        have hrefused : (Node.json n).elements? =
            .error (.parse (n.spot [natText 0]) (.tooDeep n.maxDepth)) := by
          rw [Node.elements?, JsonNode.elements?_tooDeep hv hfull]
          rfl
        rw [JsonNode.left_eq_zero hfull, Slot.bar?_full rfl rfl]
        simp only [Parsable.readAll?, hrefused]
        exact (ReadM.fails_ofResult rfl ⟨_, rfl, fun _ => rfl⟩).bind _
  | _ =>
      have hrefused : (Node.json n).elements? =
          .error (.parse n.path (.expected .array n.value.found)) := by
        rw [Node.elements?, JsonNode.elements?, hv]
        simp only [JsonNode.mismatch, hv]
        rfl
      rw [Slot.bar?_of_not_accepts rfl]
      simp only [Parsable.readAll?, hrefused]
      exact (ReadM.fails_ofResult rfl JsonNode.due_nil).bind _

/-! ### Fields -/

def Follows {V : Type} (c : Codec V) (s : Slot) : Prop :=
  ∀ n : JsonNode,
    (ReadM.ofResult (c.read? (.json n))).Ends ((s.bar? n.left n.value).map n.Due)

theorem follows_codec (k : Kind) : Follows k.codec (.scalar k) :=
  fun n => ends_scalar k n

theorem follows_listCodec (k : Kind) : Follows k.listCodec (.list (.scalar k)) := by
  intro n
  show (ReadM.ofResult ((Node.json n).readList? k)).Ends _
  rw [Parsable.readList?_eq_readAll?]
  exact ends_readAll? fun items _ v _ step => ends_scalar k (n.below step v)

theorem ends_readNode? {V : Type} (e : WireEnum V) (n : JsonNode) :
    (ReadM.ofResult (e.readNode? (.json n))).Ends
      (((Slot.scalar .string).bar? n.left n.value).map n.Due) := by
  rw [WireEnum.readNode?, ReadM.ofResult_bind]
  exact (ends_scalar .string n).bind_pure fun s => s.bind e.read?

section

variable {V : Type} [DecidableEq V]

theorem follows_enum (e : WireEnum V) : Follows e.codec (.scalar .string) :=
  fun n => ends_readNode? e n

theorem follows_enumList (e : WireEnum V) : Follows e.listCodec (.list (.scalar .string)) := by
  intro n
  show (ReadM.ofResult (e.readNodes? (.json n))).Ends _
  rw [Parsable.readNodes?_eq_readAll?]
  exact ends_readAll? fun items _ v _ step => ends_readNode? e (n.below step v)

end

theorem follows_fields :
    ∀ f ∈ Particulars.fields, ∃ s, Slot.fields.get? f.name = some s ∧ Follows f.codec s := by
  simp only [Particulars.fields, List.forall_mem_cons]
  refine ⟨⟨_, rfl, follows_codec _⟩, ⟨_, rfl, follows_codec _⟩, ⟨_, rfl, follows_codec _⟩,
    ⟨_, rfl, follows_codec _⟩, ⟨_, rfl, follows_codec _⟩, ⟨_, rfl, follows_codec _⟩,
    ⟨_, rfl, follows_codec _⟩, ⟨_, rfl, follows_codec _⟩, ⟨_, rfl, follows_codec _⟩,
    ⟨_, rfl, follows_codec _⟩, ⟨_, rfl, follows_codec _⟩, ⟨_, rfl, follows_codec _⟩,
    ⟨_, rfl, follows_codec _⟩, ⟨_, rfl, follows_codec _⟩, ⟨_, rfl, follows_codec _⟩,
    ⟨_, rfl, follows_codec _⟩, ⟨_, rfl, follows_enum _⟩, ⟨_, rfl, follows_enum _⟩,
    ⟨_, rfl, follows_listCodec _⟩, ⟨_, rfl, follows_listCodec _⟩, ⟨_, rfl, follows_enumList _⟩,
    fun f hf => nomatch hf⟩

theorem get?_fields_of_not_declared {name : String} (h : name ∉ declared) :
    Slot.fields.get? name = none := by
  rw [Members.get?_eq_none_iff]
  exact h

/-! ### Objects -/

theorem succeeds_observe {α : Type} [Parsable α] (phase : Phase) (a : α) (l : Layer) :
    (Parsable.observe phase a l).Succeeds := by
  rcases Parsable.observe_cases phase a l with ⟨b, hb⟩ | ⟨b, f, hb⟩
  · rw [hb]
    exact ReadM.succeeds_pure b
  · rw [hb]
    exact ReadM.Succeeds.bind (ReadM.succeeds_modify f) fun _ => ReadM.succeeds_pure b

theorem succeeds_observeAll {α : Type} [Parsable α] (phase : Phase) (layers : List Layer) (a : α) :
    (layers.foldlM (Parsable.observe phase) a).Succeeds := by
  induction layers generalizing a with
  | nil => exact ReadM.succeeds_pure a
  | cons l layers ih =>
      rw [List.foldlM_cons]
      exact (succeeds_observe phase a l).bind ih

section

variable {self : Node → ReadM (Option Employee)} {n : JsonNode}

/-- A member bars the way as its slot says; an undeclared one never does. -/
theorem ends_assign {e : Employee} (hroom : n.Room 1) {m : String × Json}
    (hmanager : (self (.json (n.below m.1 m.2))).Ends
      ((Slot.employee.bar? (n.below m.1 m.2).left m.2).map (n.below m.1 m.2).Due))
    (hcolleagues : ∀ items, m.2 = .array items → ∀ v ∈ items, ∀ step,
      (self (.json ((n.below m.1 m.2).below step v))).Ends
        ((Slot.employee.bar? ((n.below m.1 m.2).below step v).left v).map
          ((n.below m.1 m.2).below step v).Due)) (a : Employee) :
    (Parsable.assign (Parsable.fieldReaders self e) a (m.1, .json (n.below m.1 m.2))).Ends
      ((((Slot.employee.step? m.1).bind (·.bar? (n.left - 1) m.2)).map (m.1 :: ·)).map n.Due) := by
  rw [fieldReaders_eq]
  rcases readers_cases self m.1 with ⟨f, hf, hname, hreader⟩ | ⟨hname, hreader⟩ |
    ⟨hname, hreader⟩ | ⟨hname, hreader⟩ <;>
    simp only [Parsable.assign, hreader, on_managerReader, on_colleaguesReader]
  · obtain ⟨s, hs, hfollows⟩ := follows_fields f hf
    rw [hname] at hs
    simp only [FieldReaders.on_lift, particularsView, Field.on_reader]
    refine ends_below .employee hs hroom (ReadM.Ends.bind_pure ?_ fun p => particularsView.set p a)
    exact (hfollows (n.below m.1 m.2)).bind_pure fun v => f.set v a.particulars
  · refine ends_below .employee (by rw [hname]; rfl) hroom ?_
    exact hmanager.bind_pure fun found => a.setManager found
  · refine ends_below .employee (by rw [hname]; rfl) hroom ?_
    exact (ends_readAll? hcolleagues).bind_pure fun found => a.setColleagues found
  · rw [Slot.step?, get?_fields_of_not_declared hname]
    exact ReadM.succeeds_pure _

end

/-- The way through an object ends at the first member that bars it. -/
theorem ends_assignAll {self : Node → ReadM (Option Employee)} {n : JsonNode}
    {ms : Members Json} (hroom : ms ≠ [] → n.Room 1)
    (hself : ∀ m ∈ ms, ∀ k : JsonNode, k.value.rank ≤ m.2.rank →
      (self (.json k)).Ends ((Slot.employee.bar? k.left k.value).map k.Due))
    (layers : List Layer) (e : Employee) :
    (Parsable.assignAll layers self (ms.map fun m => (m.1, .json (n.below m.1 m.2))) e).Ends
      ((Slot.employee.bar? n.left (.object ms)).map n.Due) := by
  have hmembers : ∀ (e a : Employee),
      ((ms.map fun m => (m.1, Node.json (n.below m.1 m.2))).foldlM
        (Parsable.assign (Parsable.fieldReaders self e)) a).Ends
        ((Slot.employee.bar? n.left (.object ms)).map n.Due) := by
    intro e a
    rw [List.foldlM_map, Slot.bar?_children (v := .object ms) rfl fun hne => (hroom hne).le_left,
      Json.children]
    refine ReadM.ends_foldlM (fun m hm a => ?_) a
    refine ends_assign (hroom (List.ne_nil_of_mem hm)) (hself m hm _ (Nat.le_refl _)) ?_ a
    intro items hitems v hmem step
    refine hself m hm _ ?_
    rw [hitems, Json.rank]
    exact Json.rank_le_rankItems hmem
  have hseen (phase : Phase) (a : Employee) :
      (layers.foldlM (Parsable.observe phase) a).Ends ((none : Option Place).map n.Due) :=
    succeeds_observeAll phase layers a
  have hall := (hseen .before e).bind fun a => (hmembers a a).bind fun b => hseen .after b
  rwa [Option.none_or, Option.or_none] at hall

/-- How reading an employee ends, whatever stands there and however much room there is, if the
factories for employees never refuse. -/
theorem ends_readAt {c : Reading.Context Employee}
    (hcreate : ∀ n, ∃ e, c.resolve n Parsable.create n = .ok e) {fuel : Nat} {n : JsonNode}
    (hfuel : n.value.rank < fuel) :
    (Parsable.readAt c fuel Parsable.create (.json n)).Ends
      ((Slot.employee.bar? n.left n.value).map n.Due) := by
  induction fuel generalizing n with
  | zero => exact absurd hfuel (Nat.not_lt_zero _)
  | succ fuel ih =>
    cases hv : n.value with
    | null =>
        have hmembers : (Node.json n).members? = .ok none := by
          rw [Node.members?, JsonNode.members?, hv]
          rfl
        simp only [Parsable.readAt_succ, hmembers]
        exact ReadM.succeeds_pure none
    | object ms =>
        obtain ⟨e, he⟩ := hcreate (.json n)
        by_cases hroom : ms ≠ [] → n.Room 1
        · have hmembers := Node.members?_json hv hroom
          -- Each object takes one unit of fuel, and what lies within it has a lower rank.
          have hself : ∀ m ∈ ms, ∀ k : JsonNode, k.value.rank ≤ m.2.rank →
              (Parsable.readAt c fuel Parsable.create (.json k)).Ends
                ((Slot.employee.bar? k.left k.value).map k.Due) := by
            intro m hm k hk
            rw [hv, Json.rank] at hfuel
            have hrank := Json.rank_le_rankMembers hm
            exact ih (by omega)
          simp only [Parsable.readAt_succ, hmembers, ReadM.ofResult_ok, pure_bind, he]
          exact (ends_assignAll hroom hself c.layers e).bind_pure some
        · obtain ⟨hne, hfull⟩ := Classical.not_imp.mp hroom
          obtain ⟨m, ms, rfl⟩ := List.exists_cons_of_ne_nil hne
          have hrefused : (Node.json n).members? =
              .error (.parse (n.spot [m.1]) (.tooDeep n.maxDepth)) := by
            rw [Node.members?, JsonNode.members?_tooDeep hv hfull]
            rfl
          rw [JsonNode.left_eq_zero hfull, Slot.bar?_full rfl rfl]
          simp only [Parsable.readAt_succ, hrefused]
          exact (ReadM.fails_ofResult rfl ⟨_, rfl, fun _ => rfl⟩).bind _
    | _ =>
        have hrefused : (Node.json n).members? =
            .error (.parse n.path (.expected .object n.value.found)) := by
          rw [Node.members?, JsonNode.members?, hv]
          simp only [JsonNode.mismatch, hv]
          rfl
        rw [Slot.bar?_of_not_accepts rfl]
        simp only [Parsable.readAt_succ, hrefused]
        exact (ReadM.fails_ofResult rfl JsonNode.due_nil).bind _

/-- With room for all nodes, reading an employee ends as its slot says. -/
theorem outcome_readAt {c : Reading.Context Employee}
    (hcreate : ∀ n, ∃ e, c.resolve n Parsable.create n = .ok e) {fuel : Nat} {n : JsonNode}
    (hfuel : n.value.rank < fuel) (hroom : n.Room n.value.depth) :
    (Parsable.readAt c fuel Parsable.create (.json n)).Outcome
      ((Slot.employee.fault? n.value).map n.spot) := by
  rw [← Slot.bar?_of_depth_le hroom.le_left]
  exact (ends_readAt hcreate hfuel).outcome fun _ _ ⟨cause, he, _⟩ => ⟨cause, he⟩

/-! ### Documents -/

theorem Slot.fault?_eq_none_iff {s : Slot} {v : Json} :
    s.fault? v = none ↔ ∀ node ∈ v.nodes, ∀ t ∈ s.at? node.1, t.accepts node.2 := by
  simp only [fault?, Option.map_eq_none_iff, List.find?_eq_none, offends, Option.any_eq_true,
    not_exists, not_and, Bool.not_eq_true', Bool.not_eq_false, Option.mem_def]

/-- A message shows the root as a slash. -/
theorem message_parse (place : Place) (fault : ParseFault) :
    (Error.parse (Json.Pointer.text place) fault).message =
      "parse error at `" ++ (if place = [] then "/" else Json.Pointer.text place) ++ "`: " ++
        fault.message := by
  cases place <;> simp [Error.message.eq_def, Json.Pointer.text, Json.Pointer.chars]

/-- No choice of a factory refuses if no factory does. -/
theorem exists_of_resolve {d : ModelDiscriminators}
    (h : ∀ m ∈ d.mapping? .employee, ∀ f ∈ m.factories, ∀ n, ∃ e, f.2 n = .ok e) (n : Node) :
    ∃ e, d.resolve .employee n Parsable.create n = .ok e := by
  rw [Discriminators.resolve]
  cases hmatch : d.match? .employee n with
  | none => exact ⟨empty, rfl⟩
  | some f =>
      simp only [Discriminators.match?, Option.bind_eq_bind, Option.bind_eq_some_iff] at hmatch
      obtain ⟨m, hm, value, -, hf⟩ := hmatch
      exact h m hm _ (Members.mem_of_get? hf) n

/-- A document that is not too deep is read if no node offends. Else reading fails at the first node
that does, in the order of the document. -/
theorem read_outcome {s : Serializer} {r : Root} {v : Json} {limit : Nat}
    (hroot : r.node = .json { value := v, maxDepth := limit }) (hdepth : v.depth ≤ limit)
    (hfactories : ∀ m ∈ s.discriminators.mapping? .employee, ∀ f ∈ m.factories, ∀ n,
      ∃ e, f.2 n = .ok e) :
    let read : ReadM (Option Employee) :=
      Parsable.read? (s.context .employee r) Parsable.create r.node
    ((∃ found log, read.exec = (.ok found, log)) ↔
      ∀ node ∈ v.nodes, ∀ slot ∈ Slot.employee.at? node.1, slot.accepts node.2) ∧
    (∀ node, v.nodes.find? Slot.employee.offends = some node → ∃ fault log,
      read.exec = (.error (.parse (Json.Pointer.text node.1) fault), log) ∧
      (Error.parse (Json.Pointer.text node.1) fault).message =
        "parse error at `" ++ (if node.1 = [] then "/" else Json.Pointer.text node.1) ++ "`: " ++
          fault.message) ∧
    ∀ contentType content, s.root contentType content = .ok r →
      s.deserialize .employee contentType content Parsable.create = read := by
  intro read
  have hread : read.Outcome ((Slot.employee.fault? v).map Json.Pointer.text) := by
    rw [show read = Parsable.read? (s.context .employee r) Parsable.create r.node from rfl, hroot]
    have hroom : ({ value := v, maxDepth := limit } : JsonNode).Room v.depth := by
      rw [JsonNode.Room, List.length_nil, Nat.zero_add]
      exact hdepth
    exact outcome_readAt (exists_of_resolve hfactories) (Nat.lt_succ_self _) hroom
  refine ⟨?_, fun node hnode => ?_, fun contentType content hcontent => ?_⟩
  · rw [← Slot.fault?_eq_none_iff]
    cases hfault : Slot.employee.fault? v with
    | none =>
        rw [hfault] at hread
        obtain ⟨found, log, hrun⟩ := hread []
        exact iff_of_true ⟨found, log, hrun⟩ rfl
    | some place =>
        rw [hfault] at hread
        obtain ⟨e, log, hrun, -⟩ := hread []
        refine iff_of_false ?_ (Option.some_ne_none _)
        rintro ⟨found, log', hok⟩
        rw [ReadM.exec, hrun] at hok
        cases hok
  · have hfault : Slot.employee.fault? v = some node.1 := by
      rw [Slot.fault?, hnode, Option.map_some]
    rw [hfault] at hread
    obtain ⟨e, log, hrun, fault, rfl⟩ := hread []
    exact ⟨fault, log, hrun, message_parse node.1 fault⟩
  · rw [Serializer.deserialize, hcontent, ReadM.ofResult_ok, pure_bind]

/-- The age of the manager, which is no number, comes before the level, which is none either. -/
theorem read_outcome_of_ageless_manager :
    let v : Json := .object [("nickname", .array []), ("manager", .object [("age", .string "ten")]),
      ("level", .bool true)]
    ∃ fault log, (Parsable.read? (({} : Serializer).context .employee ⟨.json { value := v }, []⟩)
      Parsable.create (.json { value := v })).exec =
        (.error (.parse "/manager/age" fault), log) := by
  intro v
  have hfault : v.nodes.find? Slot.employee.offends = some (["manager", "age"], .string "ten") :=
    rfl
  obtain ⟨fault, log, hrun, -⟩ := (read_outcome (s := {}) (r := ⟨.json { value := v }, []⟩)
    (v := v) rfl (by decide) nofun).2.1 _ hfault
  exact ⟨fault, log, hrun⟩

end Employee

end Marshal
