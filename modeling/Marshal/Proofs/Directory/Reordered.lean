import Marshal.Proofs.Directory.Reading
import Marshal.Proofs.Employee.Reordered
import Marshal.Serializer

/-!
Reading objects of a directory whose members come in any order, and whole documents of which the
same holds.
-/

namespace Marshal

open ReadM

namespace DirectoryObject

inductive Update : String → (DirectoryObject → DirectoryObject) → Prop
  | id (v : Option String) :
      Update "id" fun o => commonView.set (DirectoryBase.idField.set v o.common) o
  | odataType (v : Option String) :
      Update "@odata.type" fun o => commonView.set (DirectoryBase.typeField.set v o.common) o
  | mail (v : Option String) : Update "mail" fun
      | user u => user (User.mailField.set v u)
      | o => o
  | memberCount (v : Option Int32) : Update "memberCount" fun
      | group g => group (Group.memberCountField.set v g)
      | o => o
  | dropped (name : String) : Update name fun o => o

theorem Update.sameKind {name : String} {u : DirectoryObject → DirectoryObject}
    (hu : Update name u) (o : DirectoryObject) : o.SameKind (u o) := by
  cases hu <;> cases o <;> trivial

/-- Members of different names do not get in each other's way. -/
theorem Update.swap {name name' : String} (hne : name ≠ name')
    {u v : DirectoryObject → DirectoryObject} (hu : Update name u) (hv : Update name' v)
    (o : DirectoryObject) : v (u o) = u (v o) := by
  cases hu <;> cases hv <;> cases o <;> first | rfl | exact absurd rfl hne

theorem updates_assign (o : DirectoryObject) (m : String × Node) :
    Updates o.SameKind (Update m.1) fun a => Parsable.assign o.readers a m := by
  rcases readers_cases o m.1 with ⟨hname, hreader⟩ | ⟨hname, hreader⟩ | ⟨hname, hkind, hreader⟩ |
    ⟨hname, hkind, hreader⟩ | hreader <;>
    simp only [Parsable.assign, hreader]
  · rw [hname]
    refine ⟨_, ofResult (DirectoryBase.idField.codec.read? m.2), _, steady_ofResult _, .id, ?_⟩
    intro a _
    simp only [FieldReaders.on_lift, commonView, Field.on_reader, bind_assoc, pure_bind]
  · rw [hname]
    refine ⟨_, ofResult (DirectoryBase.typeField.codec.read? m.2), _, steady_ofResult _,
      .odataType, ?_⟩
    intro a _
    simp only [FieldReaders.on_lift, commonView, Field.on_reader, bind_assoc, pure_bind]
  · rw [hname]
    refine ⟨_, ofResult (User.mailField.codec.read? m.2), _, steady_ofResult _, .mail, ?_⟩
    intro a ha
    cases a with
    | user u => simp only [FieldReaders.on_lift, userView, Field.on_reader, bind_assoc, pure_bind]
    | _ => exact (ha.symm.trans hkind).elim
  · rw [hname]
    refine ⟨_, ofResult (Group.memberCountField.codec.read? m.2), _, steady_ofResult _,
      .memberCount, ?_⟩
    intro a ha
    cases a with
    | group g => simp only [FieldReaders.on_lift, groupView, Field.on_reader, bind_assoc, pure_bind]
    | _ => exact (ha.symm.trans hkind).elim
  · exact ⟨Unit, pure (), _, steady_pure (), fun _ => .dropped m.1, fun _ _ => rfl⟩

theorem steady_assign (o a : DirectoryObject) (m : String × Node) :
    Steady (Parsable.assign o.readers a m) := by
  rcases readers_cases o m.1 with ⟨-, hreader⟩ | ⟨-, hreader⟩ | ⟨-, -, hreader⟩ |
    ⟨-, -, hreader⟩ | hreader <;>
    simp only [Parsable.assign, hreader]
  · exact Field.steady_lift m.2 a
  · exact Field.steady_lift m.2 a
  · exact Field.steady_lift m.2 a
  · exact Field.steady_lift m.2 a
  · exact steady_pure a

/-- Twins do the same to an object. -/
theorem agree_assign (o a : DirectoryObject) {x y : String × Node}
    (hxy : x.1 = y.1 ∧ x.2.Twin y.2) :
    Agree Eq (Parsable.assign o.readers a x) (Parsable.assign o.readers a y) := by
  obtain ⟨name, n⟩ := x
  obtain ⟨_, m⟩ := y
  obtain ⟨rfl, hnm⟩ := hxy
  rcases readers_cases o name with ⟨-, hreader⟩ | ⟨-, hreader⟩ | ⟨-, -, hreader⟩ |
    ⟨-, -, hreader⟩ | hreader <;>
    simp only [Parsable.assign, hreader]
  · exact Field.agree_lift (Codec.orderless_codec .string) hnm a
  · exact Field.agree_lift (Codec.orderless_codec .string) hnm a
  · exact Field.agree_lift (Codec.orderless_codec .string) hnm a
  · exact Field.agree_lift (Codec.orderless_codec .int) hnm a
  · exact agree_pure rfl

def EqualAs (o a a' : DirectoryObject) : Prop :=
  a = a' ∧ o.SameKind a

/-- Members of different names can be assigned in either order. -/
theorem agree_assign_perm (o : DirectoryObject) {ms ns : Members Node} (hperm : ms.Perm ns)
    (hms : ms.keys.Nodup) :
    Agree o.EqualAs (ms.foldlM (Parsable.assign o.readers) o)
      (ns.foldlM (Parsable.assign o.readers) o) := by
  have hkind : ∀ a a', o.EqualAs a a' → o.SameKind a ∧ o.SameKind a' := by
    rintro a _ ⟨rfl, ha⟩
    exact ⟨ha, ha⟩
  refine agree_foldlM_perm (E := o.EqualAs) ?_ ?_ (fun m a a' ha => ?_)
    (A := fun m n => m.1 ≠ n.1) (fun _ _ => Ne.symm) (fun m n hne a a' ha => ?_) hperm
    (List.pairwise_map.mp hms) ⟨rfl, .refl o⟩
  · rintro a _ ⟨rfl, ha⟩
    exact ⟨rfl, ha⟩
  · rintro a _ _ ⟨rfl, ha⟩ ⟨rfl, -⟩
    exact ⟨rfl, ha⟩
  · refine (updates_assign o m).agree hkind (fun u hu a a' ha => ?_) ha
    exact ⟨congrArg u ha.1, ha.2.trans (hu.sameKind a)⟩
  · refine (updates_assign o m).agree_swap (updates_assign o n) hkind
      (fun u hu a ha => ha.trans (hu.sameKind a)) (fun v hv a ha => ha.trans (hv.sameKind a)) ?_ ha
    rintro u v hu hv a _ ⟨rfl, ha⟩
    exact ⟨hu.swap hne hv a, (ha.trans (hu.sameKind a)).trans (hv.sameKind _)⟩

/-- Objects of a directory can be read with the members in any order. -/
theorem orderless : Parsable.Orderless DirectoryObject Eq where
  create _ _ _ := .ok rfl
  keep _ hkeep := by cases hkeep
  setInitialized _ _ _ h := h
  steady _ _ o a m := steady_assign o a m
  assign _ _ _ ms ns hmembers o o' ho := by
    obtain ⟨hnodup, ns', hperm, htwins⟩ := hmembers
    subst ho
    have hsame := agree_foldlM (R := Eq) (a := o) (htwins.imp fun x y hxy a a' ha => by
      rw [← ha]
      exact agree_assign o a hxy) rfl
    have hkeys : ms.keys = Members.keys ns' := Members.keys_eq_of_forall₂ htwins fun _ _ h => h.1
    exact hsame.trans (agree_assign_perm o hperm (hkeys ▸ hnodup)) fun _ _ _ h h' => h.trans h'.1

end DirectoryObject

/-- An object is read into what the factory in force makes of its node. -/
theorem Parsable.read?_object {α : Type} [Parsable α] {c : Reading.Context α} {n : JsonNode}
    {members : Members Json} (hn : n.value = .object members) (hroom : n.Room 1)
    {factory f : Factory α} (hf : c.resolve (.json n) factory = f) :
    read? c factory (.json n) = do
      let a ← ofResult (f (.json n))
      let self := readAt c n.value.rank create
      let fields := members.map fun m => (m.1, Node.json (n.below m.1 m.2))
      return some (← (fill c.layers self fields).on a) := by
  rw [read?, readAt, Node.members?_json hn fun _ => hroom, hf]
  rfl

/-- A discriminator that is a string decides, wherever it stands among the members. -/
theorem Discriminators.resolve_of_mem {ι : Type} [DecidableEq ι] {M : ι → Type}
    {d : Discriminators M} {b : ι} {n : JsonNode} {members : Members Json}
    (hn : n.value = .object members) (hroom : n.Room 1) (hnames : members.keys.Nodup) {tag : String}
    (htag : (d.key, .string tag) ∈ members) {m : DiscriminatorMapping (M b)}
    (hm : d.mapping? b = some m) {f : Factory (M b)} (hf : m.get? tag = some f)
    (fallback : Factory (M b)) : d.resolve b (.json n) fallback = f := by
  have hvalue : d.value? (.json n) = some tag := by
    rw [value?, Node.child?_object hn, Members.get?_of_mem hnames htag]
    dsimp only
    rw [JsonNode.child_eq hroom]
    rfl
  simp [resolve, match?, hm, hvalue, hf]

/-- Documents that differ in the order of members only are read as the same employee, or as the same
list of directory objects, or neither is read, whatever the discriminators are. An object whose
discriminator is mapped is what the factory under it makes, with its fields read in. -/
theorem Serializer.deserialize_of_same {s : Serializer} {v w : Json} (hsame : v.Same w)
    (hv : v.Distinct) (hw : w.Distinct) (limit : Nat) (layers : List Layer)
    (hemployees : ∀ m ∈ s.discriminators.mapping? .employee, ∀ f ∈ m.factories,
      Factory.Orderless Employee.Same f.2)
    (hobjects : ∀ m ∈ s.discriminators.mapping? .directoryObject, ∀ f ∈ m.factories,
      Factory.Orderless Eq f.2) :
    let root (v : Json) : Root := ⟨.json { value := v, maxDepth := limit }, layers⟩
    Agree (Option.Rel Employee.Same)
      (Parsable.read? (s.context .employee (root v)) Parsable.create (root v).node)
      (Parsable.read? (s.context .employee (root w)) Parsable.create (root w).node) ∧
    Agree Eq
      (Parsable.readList? (s.context .directoryObject (root v)) Parsable.create (root v).node)
      (Parsable.readList? (s.context .directoryObject (root w)) Parsable.create (root w).node) ∧
    (∀ contentType content content', s.root contentType content = .ok (root v) →
      s.root contentType content' = .ok (root w) →
      Agree (Option.Rel Employee.Same)
        (s.deserialize .employee contentType content Parsable.create)
        (s.deserialize .employee contentType content' Parsable.create) ∧
      Agree Eq (s.deserializeList .directoryObject contentType content Parsable.create)
        (s.deserializeList .directoryObject contentType content' Parsable.create)) ∧
    ∀ (n : JsonNode) (members : Members Json) (tag : String)
      (m : DiscriminatorMapping DirectoryObject) (f : Factory DirectoryObject),
      n.value = .object members → n.Room 1 → members.keys.Nodup →
      (s.discriminators.key, .string tag) ∈ members →
      s.discriminators.mapping? .directoryObject = some m → m.get? tag = some f →
      ∀ fallback, s.discriminators.resolve .directoryObject (.json n) fallback = f ∧
        Parsable.read? (s.context .directoryObject (root v)) fallback (.json n) = do
          let o ← ofResult (f (.json n))
          let self := Parsable.readAt (s.context .directoryObject (root v)) n.value.rank
            Parsable.create
          let fields := members.map fun m => (m.1, Node.json (n.below m.1 m.2))
          return some (← (Parsable.fill layers self fields).on o) := by
  intro root
  have htwin : (root v).node.Twin (root w).node := ⟨rfl, rfl, hsame, hv, hw⟩
  have hresolve : ∀ t : ModelType, ∀ n m : Node, n.Twin m →
      s.discriminators.resolve t n = s.discriminators.resolve t m :=
    fun t _ _ h => s.discriminators.resolve_eq_of_twin t h
  have hemployee : Agree (Option.Rel Employee.Same)
      (Parsable.read? (s.context .employee (root v)) Parsable.create (root v).node)
      (Parsable.read? (s.context .employee (root v)) Parsable.create (root w).node) :=
    Employee.orderless.read? (hresolve .employee)
      (fun n _ => s.discriminators.orderless_resolve hemployees n) Employee.orderless.create htwin
  have hobject : ∀ n m : Node, n.Twin m → Agree (Option.Rel Eq)
      (Parsable.read? (s.context .directoryObject (root v)) Parsable.create n)
      (Parsable.read? (s.context .directoryObject (root v)) Parsable.create m) :=
    fun n m hnm => DirectoryObject.orderless.read? (hresolve .directoryObject)
      (fun n _ => s.discriminators.orderless_resolve hobjects n)
      DirectoryObject.orderless.create hnm
  have hlist := (Parsable.agree_readAll? hobject htwin).mono fun _ _ => Codec.eq_of_rel_forall₂
  refine ⟨hemployee, hlist, fun contentType content content' hcontent hcontent' => ?_, ?_⟩
  · simp only [Serializer.deserialize, Serializer.deserializeList, hcontent, hcontent',
      ReadM.ofResult_ok, pure_bind]
    exact ⟨hemployee, hlist.bind_pure fun _ _ h => by rw [h]⟩
  · intro n members tag m f hn hroom hnames htag hm hf fallback
    have hresolve := Discriminators.resolve_of_mem hn hroom hnames htag hm hf fallback
    exact ⟨hresolve, Parsable.read?_object hn hroom hresolve⟩

/-- The factories that are there from the start make the same of all nodes. -/
theorem DirectoryObject.orderless_mapping : ∀ f ∈ mapping.factories, Factory.Orderless Eq f.2 := by
  have hfactories : mapping.factories = [(userType, createUser), (groupType, createGroup)] := rfl
  rw [hfactories, List.forall_mem_cons, List.forall_mem_singleton]
  exact ⟨fun _ _ _ => .ok rfl, fun _ _ _ => .ok rfl⟩

/-- A list of one user, whose type comes first or last. -/
theorem Serializer.deserialize_of_same_user :
    let user (members : Members Json) : Root :=
      ⟨.json { value := .array [.object members] }, []⟩
    let typeFirst := user [("@odata.type", .string DirectoryObject.userType), ("mail", .string "m")]
    let typeLast := user [("mail", .string "m"), ("@odata.type", .string DirectoryObject.userType)]
    Agree Eq
      (Parsable.readList? (({} : Serializer).context .directoryObject typeFirst) Parsable.create
        typeFirst.node)
      (Parsable.readList? (({} : Serializer).context .directoryObject typeLast) Parsable.create
        typeLast.node) := by
  intro user typeFirst typeLast
  refine (deserialize_of_same (s := {}) ?_ ?_ ?_ 64 [] ?_ ?_).2.1
  · refine Json.same_array (.cons ⟨_, _, rfl, List.Perm.swap .., ?_⟩ .nil)
    simp [Json.SameMembers, Json.Same]
  · simp [Json.Distinct, Json.DistinctItems, Json.DistinctMembers]
  · simp [Json.Distinct, Json.DistinctItems, Json.DistinctMembers]
  · rintro m hm
    cases hm
  · rintro m hm
    cases hm
    exact DirectoryObject.orderless_mapping

end Marshal
