import Marshal.Proofs.Employee.Json

/-!
Reading employees from JSON: the object of `Employee.json` gives the employee back, with its prices
at their least scale.
-/

namespace Marshal

namespace Employee

/-! ### Depth and rank -/

theorem rank_ownMember_lt {e : Employee} {m : String × Json} (h : m ∈ e.ownMembers) :
    m.2.rank < e.json.rank := by
  rw [json_eq e, Json.rank]
  exact Nat.lt_succ_of_le (Json.rank_le_rankMembers (List.mem_append_left _ h))

theorem mem_ownMembers_manager {e m : Employee} (h : m ∈ e.manager) :
    ("manager", m.json) ∈ e.ownMembers := by
  simp [ownMembers, Option.mem_def.mp h, managerMembers]

theorem mem_ownMembers_colleagues {e : Employee} {es : List Employee} (h : es ∈ e.colleagues) :
    ("colleagues", Json.array (jsonEach es)) ∈ e.ownMembers := by
  simp [ownMembers, Option.mem_def.mp h, colleagueMembers]

theorem rank_manager_lt {e m : Employee} (h : m ∈ e.manager) : m.json.rank < e.json.rank :=
  rank_ownMember_lt (mem_ownMembers_manager h)

theorem rank_colleague_lt {e c : Employee} {es : List Employee} (h : es ∈ e.colleagues)
    (hc : c ∈ es) : c.json.rank < e.json.rank := by
  have hmember := rank_ownMember_lt (mem_ownMembers_colleagues h)
  have hitem : c.json.rank ≤ Json.rankItems (jsonEach es) :=
    Json.rank_le_rankItems (by rw [jsonEach_eq]; exact List.mem_map_of_mem hc)
  rw [Json.rank] at hmember
  exact Nat.lt_of_le_of_lt hitem hmember

theorem depth_manager_lt {e m : Employee} (h : m ∈ e.manager) : m.depth < e.depth := by
  obtain ⟨particulars, manager, colleagues, additional⟩ := e
  obtain rfl : manager = some m := h
  rw [depth, managerDepth]
  omega

theorem lt_depthEach {c : Employee} {es : List Employee} (h : c ∈ es) : c.depth < depthEach es := by
  induction es with
  | nil => cases h
  | cons e es ih =>
      rw [depthEach]
      rcases List.mem_cons.mp h with rfl | h
      · omega
      · have := ih h
        omega

theorem depthEach_lt {e : Employee} {es : List Employee} (h : es ∈ e.colleagues) :
    depthEach es < e.depth := by
  obtain ⟨particulars, manager, colleagues, additional⟩ := e
  obtain rfl : colleagues = some es := h
  rw [depth, colleaguesDepth]
  omega

theorem depth_colleague_lt {e c : Employee} {es : List Employee} (h : es ∈ e.colleagues)
    (hc : c ∈ es) : c.depth + 1 < e.depth :=
  Nat.lt_of_le_of_lt (lt_depthEach hc) (depthEach_lt h)

theorem le_membersDepth {m : String × Json} {ms : Members Json} (h : m ∈ ms) :
    m.2.depth + 1 ≤ membersDepth ms := by
  induction ms with
  | nil => cases h
  | cons m' ms ih =>
      rw [membersDepth, List.map_cons, List.foldr_cons]
      rcases List.mem_cons.mp h with rfl | h
      · exact Nat.le_max_left ..
      · exact Nat.le_trans (ih h) (Nat.le_max_right ..)

theorem depth_particular_lt {e : Employee} {m : String × Json}
    (h : m ∈ Field.present e.particulars.rows) : m.2.depth + 1 ≤ e.depth := by
  obtain ⟨particulars, manager, colleagues, additional⟩ := e
  have hle := le_membersDepth h
  rw [Employee.particulars] at hle
  rw [depth]
  omega

/-- An employee who has members has room for them. -/
theorem depth_pos {e : Employee} (h : e.ownMembers ++ AdditionalData.json e.additional ≠ []) :
    1 ≤ e.depth := by
  obtain ⟨m, hm⟩ := List.exists_mem_of_ne_nil _ h
  rw [ownMembers, List.mem_append, List.mem_append, List.mem_append] at hm
  rcases hm with (hm | hm | hm) | hm
  · exact Nat.le_trans (Nat.le_add_left ..) (depth_particular_lt hm)
  · cases hmanager : e.manager with
    | none => simp [hmanager, managerMembers] at hm
    | some m => exact Nat.lt_of_le_of_lt (Nat.zero_le _) (depth_manager_lt hmanager)
  · cases hcolleagues : e.colleagues with
    | none => simp [hcolleagues, colleagueMembers] at hm
    | some es => exact Nat.lt_of_le_of_lt (Nat.zero_le _) (depthEach_lt hcolleagues)
  · obtain ⟨particulars, manager, colleagues, additional⟩ := e
    cases additional with
    | nil => cases hm
    | cons m data =>
        rw [depth]
        simp only [List.isEmpty_cons, Bool.false_eq_true, if_false]
        omega

/-! ### Readers -/

def readers (self : Node → ReadM (Option Employee)) : Members (FieldReader Employee) :=
  (Particulars.fields.map fun f => (f.name, FieldReaders.lift particularsView f.reader)) ++ [
    ("manager", managerReader self), ("colleagues", colleaguesReader self)]

theorem on_managerReader (self : Node → ReadM (Option Employee)) (n : Node) (e : Employee) :
    (managerReader self n).on e = do return e.setManager (← self n) :=
  FillM.on_update _ e

theorem on_colleaguesReader (self : Node → ReadM (Option Employee)) (n : Node) (e : Employee) :
    (colleaguesReader self n).on e = do
      return e.setColleagues (← Parsable.readAll? self n) :=
  FillM.on_update _ e

theorem fieldReaders_eq (self : Node → ReadM (Option Employee)) (e : Employee) :
    Parsable.fieldReaders self e = ⟨readers self⟩ := by
  have hfields : (Field.readers Particulars.fields).fields =
      Particulars.fields.map fun f => (f.name, f.reader) :=
    Members.ofPairs_of_nodup (by decide)
  have hrelations : (relationReaders self).fields =
      [("manager", managerReader self), ("colleagues", colleaguesReader self)] :=
    Members.ofPairs_of_nodup (by simp [Members.keys])
  have hall : ((Field.readers Particulars.fields).project particularsView).fields =
      Particulars.fields.map fun f => (f.name, FieldReaders.lift particularsView f.reader) := by
    rw [FieldReaders.project, hfields, List.map_map]
    rfl
  show FieldReaders.mk (Members.putAll _ (relationReaders self).fields) = _
  rw [hall, hrelations, Members.putAll_of_nodup]
  · rfl
  · exact nodup_declared

section Members

variable {self : Node → ReadM (Option Employee)} {n : JsonNode}

theorem get?_readers (self : Node → ReadM (Option Employee)) {f : String × FieldReader Employee}
    (hf : f ∈ readers self) :
    (⟨readers self⟩ : FieldReaders Employee).get? f.1 = some f.2 :=
  Members.get?_of_mem (m := readers self) nodup_declared hf

theorem get?_manager (self : Node → ReadM (Option Employee)) :
    (⟨readers self⟩ : FieldReaders Employee).get? "manager" = some (managerReader self) :=
  get?_readers self (List.mem_append_right _ List.mem_cons_self)

theorem get?_colleagues (self : Node → ReadM (Option Employee)) :
    (⟨readers self⟩ : FieldReaders Employee).get? "colleagues" = some (colleaguesReader self) :=
  get?_readers self (List.mem_append_right _ (List.mem_cons_of_mem _ List.mem_cons_self))

/-- Every name has the reader of a declared field or none. -/
theorem readers_cases (self : Node → ReadM (Option Employee)) (name : String) :
    (∃ f ∈ Particulars.fields, f.name = name ∧
      (⟨readers self⟩ : FieldReaders Employee).get? name =
        some (FieldReaders.lift particularsView f.reader)) ∨
    (name = "manager" ∧ (⟨readers self⟩ : FieldReaders Employee).get? name =
      some (managerReader self)) ∨
    (name = "colleagues" ∧ (⟨readers self⟩ : FieldReaders Employee).get? name =
      some (colleaguesReader self)) ∨
    name ∉ declared ∧ (⟨readers self⟩ : FieldReaders Employee).get? name = none := by
  by_cases hname : name ∈ Members.keys (readers self)
  · obtain ⟨r, hr, rfl⟩ := List.mem_map.mp hname
    rw [get?_readers self hr]
    rcases List.mem_append.mp hr with hr | hr
    · obtain ⟨f, hf, rfl⟩ := List.mem_map.mp hr
      exact .inl ⟨f, hf, rfl, rfl⟩
    · rcases List.mem_cons.mp hr with rfl | hr
      · exact .inr (.inl ⟨rfl, rfl⟩)
      · obtain rfl := List.mem_singleton.mp hr
        exact .inr (.inr (.inl ⟨rfl, rfl⟩))
  · exact .inr (.inr (.inr ⟨hname, Members.get?_eq_none_iff.mpr hname⟩))

/-- Reading each employee of an array reads them all. -/
theorem readAll?_json {es : List Employee} (hn : n.value = .array (jsonEach es))
    (hroom : es ≠ [] → n.Room 1)
    (h : ∀ c ∈ es, ∀ step, self (.json (n.below step c.json)) = pure (some c.normalize)) :
    Parsable.readAll? self (.json n) = pure (some (normalizeEach es)) := by
  refine Parsable.readAll?_array hn (fun hne => hroom (by rintro rfl; exact hne rfl)) ?_
  rw [jsonEach_eq, normalizeEach_eq, List.forall₂_map_left_iff, List.forall₂_map_right_iff,
    List.forall₂_same]
  exact h

/-- Members that are assigned after others go on from what those have left. -/
theorem foldlM_append_pure {m m' : Members Node} {readers : FieldReaders Employee}
    {e e' e'' : Employee} (h : m.foldlM (Parsable.assign readers) e = pure e')
    (h' : m'.foldlM (Parsable.assign readers) e' = pure e'') :
    (m ++ m').foldlM (Parsable.assign readers) e = pure e'' := by
  rw [List.foldlM_append, h, pure_bind, h']

def memberNodes (n : JsonNode) (members : Members Json) : Members Node :=
  members.map fun m => (m.1, .json (n.below m.1 m.2))

theorem memberNodes_append (n : JsonNode) (a b : Members Json) :
    memberNodes n (a ++ b) = memberNodes n a ++ memberNodes n b :=
  List.map_append

theorem foldlM_particulars (self : Node → ReadM (Option Employee)) {p : Particulars}
    (hp : p.Portable) (hroom : ∀ m ∈ Field.present p.rows, n.Room (m.2.depth + 1)) :
    (memberNodes n (Field.present p.rows)).foldlM (Parsable.assign ⟨readers self⟩) empty =
      pure ⟨p.normalize, none, none, []⟩ := by
  have hreaders : ∀ f ∈ Particulars.fields, (⟨readers self⟩ : FieldReaders Employee).get? f.name =
      some (FieldReaders.lift particularsView f.reader) := by
    intro f hf
    exact get?_readers self (f := (f.name, _))
      (List.mem_append_left _ (List.mem_map_of_mem hf))
  exact Field.foldlM_assign particularsView_lawful p.normalize.settles hp.carries hreaders hroom rfl

theorem foldlM_manager {manager : Option Employee}
    (h : ∀ m ∈ manager, self (.json (n.below "manager" m.json)) = pure (some m.normalize))
    (p : Particulars) :
    (memberNodes n (managerMembers manager)).foldlM (Parsable.assign ⟨readers self⟩)
      ⟨p, none, none, []⟩ = pure ⟨p, normalizeManager manager, none, []⟩ := by
  cases manager with
  | none => rfl
  | some m =>
      have hassign : Parsable.assign ⟨readers self⟩ ⟨p, none, none, []⟩
          ("manager", .json (n.below "manager" m.json)) = pure ⟨p, some m.normalize, none, []⟩ := by
        simp only [Parsable.assign, get?_manager, on_managerReader, h m rfl, pure_bind]
        rfl
      exact (List.foldlM_cons ..).trans (by rw [hassign]; rfl)

theorem foldlM_colleagues {colleagues : Option (List Employee)}
    (hroom : ∀ es ∈ colleagues, es ≠ [] → n.Room 2)
    (h : ∀ es ∈ colleagues, ∀ c ∈ es, ∀ step, self (.json
      ((n.below "colleagues" (.array (jsonEach es))).below step c.json)) = pure (some c.normalize))
    (p : Particulars) (m : Option Employee) :
    (memberNodes n (colleagueMembers colleagues)).foldlM (Parsable.assign ⟨readers self⟩)
      ⟨p, m, none, []⟩ = pure ⟨p, m, normalizeColleagues colleagues, []⟩ := by
  cases colleagues with
  | none => rfl
  | some es =>
      have hread := readAll?_json (n := n.below "colleagues" (.array (jsonEach es))) rfl
        (fun hne => (hroom es rfl hne).below ..) (h es rfl)
      have hassign : Parsable.assign ⟨readers self⟩ ⟨p, m, none, []⟩
          ("colleagues", .json (n.below "colleagues" (.array (jsonEach es)))) =
          pure ⟨p, m, some (normalizeEach es), []⟩ := by
        simp only [Parsable.assign, get?_colleagues, on_colleaguesReader, hread, pure_bind]
        rfl
      exact (List.foldlM_cons ..).trans (by rw [hassign]; rfl)

theorem foldlM_additional (self : Node → ReadM (Option Employee)) (n : JsonNode)
    {data : AdditionalData} (hsound : ∀ m ∈ data, m.2.Sound)
    (hundeclared : ∀ key ∈ Members.keys data, key ∉ declared) (p : Particulars)
    (m : Option Employee) (c : Option (List Employee)) (kept : AdditionalData) :
    (memberNodes n (AdditionalData.json data)).foldlM (Parsable.assign ⟨readers self⟩)
      ⟨p, m, c, kept⟩ = pure ⟨p, m, c, Members.putAll kept data⟩ := by
  induction data generalizing kept with
  | nil => rfl
  | cons field data ih =>
      have hkey : field.1 ∉ declared := hundeclared _ (by simp)
      have hreader : (⟨readers self⟩ : FieldReaders Employee).get? field.1 = none :=
        (Members.get?_eq_none_iff (m := readers self)).mpr hkey
      have huntyped : (Node.json (n.below field.1 field.2.json)).untyped = field.2 :=
        Untyped.toUntyped_json field.2 (hsound field (by simp))
      have hassign : Parsable.assign ⟨readers self⟩ ⟨p, m, c, kept⟩
          (field.1, .json (n.below field.1 field.2.json)) =
          pure ⟨p, m, c, Members.put kept field.1 field.2⟩ := by
        simp only [Parsable.assign, hreader, huntyped]
        rfl
      have hrest := ih (fun m hm => hsound m (by simp [hm]))
        (fun key hm => hundeclared key (List.mem_cons_of_mem _ hm))
        (Members.put kept field.1 field.2)
      exact (List.foldlM_cons ..).trans (by rw [hassign]; exact hrest)

/-- All members of the object, one after the other. -/
theorem foldlM_members (self : Node → ReadM (Option Employee)) {e : Employee} (he : e.Lasting)
    (hroom : n.Room e.depth)
    (hmanager : ∀ m ∈ e.manager,
      self (.json (n.below "manager" m.json)) = pure (some m.normalize))
    (hcolleagues : ∀ es ∈ e.colleagues, ∀ c ∈ es, ∀ step, self (.json
      ((n.below "colleagues" (.array (jsonEach es))).below step c.json)) =
        pure (some c.normalize)) :
    (memberNodes n (e.ownMembers ++ AdditionalData.json e.additional)).foldlM
      (Parsable.assign ⟨readers self⟩) empty = pure e.normalize := by
  have hparticulars := foldlM_particulars self he.particulars fun m hm =>
    hroom.mono (depth_particular_lt hm)
  -- A colleague is two steps down, but an empty list of them is only one.
  have hlist : ∀ es ∈ e.colleagues, es ≠ [] → n.Room 2 := by
    intro es hes hne
    obtain ⟨c, hc⟩ := List.exists_mem_of_ne_nil es hne
    have hdepth := depth_colleague_lt hes hc
    exact hroom.mono (by omega)
  have hrelations := foldlM_append_pure (foldlM_manager hmanager e.particulars.normalize)
    (foldlM_colleagues hlist hcolleagues e.particulars.normalize (normalizeManager e.manager))
  have hadditional := foldlM_additional self n he.sound he.undeclared
    e.particulars.normalize (normalizeManager e.manager) (normalizeColleagues e.colleagues) []
  have hall := foldlM_append_pure (foldlM_append_pure hparticulars hrelations) hadditional
  have hkept : Members.putAll [] e.additional = e.additional := Members.ofPairs_of_nodup he.names
  rw [ownMembers, memberNodes_append, memberNodes_append, memberNodes_append, hall, hkept]
  obtain ⟨particulars, manager, colleagues, additional⟩ := e
  rfl

end Members

/-- With enough fuel for its objects and room for its nodes, an employee is read back. -/
theorem readAt_json {context : Reading.Context Employee} (hlayers : context.layers = [])
    (hresolve : ∀ n f, context.resolve n f = f) {e : Employee} (he : e.Everywhere Lasting) :
    ∀ {n : JsonNode} {fuel : Nat}, n.value = e.json → n.Room e.depth → e.json.rank < fuel →
      Parsable.readAt context fuel Parsable.create (.json n) = pure (some e.normalize) := by
  induction he with
  | @mk e self _ _ hmanager hcolleagues =>
      intro n fuel hn hroom hfuel
      -- One unit of fuel goes to this object; the objects within it have a lower rank, so what is
      -- left is enough for each of them.
      obtain ⟨fuel, rfl⟩ : ∃ k, fuel = k + 1 := ⟨fuel - 1, by omega⟩
      have hmembers := Node.members?_json (hn.trans e.json_eq) fun hne =>
        hroom.mono (depth_pos hne)
      have hfold := foldlM_members (Parsable.readAt context fuel Parsable.create) self hroom
        (fun m hm => hmanager m hm rfl ((hroom.mono (depth_manager_lt hm)).below ..)
          (Nat.lt_of_lt_of_le (rank_manager_lt hm) (by omega)))
        (fun es hes c hc step => hcolleagues es hes c hc rfl
          (((hroom.mono (depth_colleague_lt hes hc)).below ..).below ..)
          (Nat.lt_of_lt_of_le (rank_colleague_lt hes hc) (by omega)))
      rw [Parsable.readAt_succ, hmembers]
      have hcreate : (Parsable.create : Factory Employee) (.json n) = .ok empty := rfl
      simp only [ReadM.ofResult_ok, pure_bind, hresolve, hcreate, Parsable.assignAll, hlayers,
        List.foldlM_nil, fieldReaders_eq]
      rw [memberNodes] at hfold
      rw [hfold]
      rfl

end Employee

end Marshal
