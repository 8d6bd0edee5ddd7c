import Marshal.Proofs.Employee.Faults
import Marshal.Proofs.Employee.Resent

/-!
How deep a document may be for an employee to be read from it. Every step to a member or to an item
of a list counts, but only where models and lists are read: an undeclared member is one step, and
what lies within it is no step at all.
-/

namespace Marshal

open Json (Place)

namespace Employee

namespace Slot

def Clean (s : Slot) (v : Json) : Prop :=
  ∀ node ∈ v.nodes, s.offends node = false

/-- No node that reading makes is more than `room` steps down. -/
def Shallow (s : Slot) (room : Nat) (v : Json) : Prop :=
  ∀ node ∈ v.nodes, s.overruns room node.1 = false

variable {s : Slot} {room : Nat} {v : Json}

theorem bar?_eq_none_iff : s.bar? room v = none ↔ s.Clean v ∧ s.Shallow room v := by
  simp only [bar?, Option.map_eq_none_iff, List.find?_eq_none, bars, Bool.or_eq_true, not_or,
    Bool.not_eq_true, forall_and, Clean, Shallow]

theorem bar?_eq_none_iff_nodes : s.bar? room v = none ↔ ∀ node ∈ v.nodes,
    (∀ t ∈ s.at? node.1, t.accepts node.2) ∧
      (room < node.1.length → s.at? node.1.dropLast = none) := by
  simp only [bar?_eq_none_iff, Clean, Shallow, offends, overruns, Option.any_eq_false,
    Bool.and_eq_false_iff, decide_eq_false_iff_not, Option.isSome_eq_false_iff,
    Option.isNone_iff_eq_none, ← forall_and, Bool.not_eq_false', Option.mem_def, ← imp_iff_not_or]

/-- Reading is stopped at the root, or right below it for want of room, or further down. -/
theorem bar?_cases {place : Place} (h : s.bar? room v = some place) :
    place = [] ∨ (room = 0 ∧ place.length = 1) ∨
      (1 ≤ room ∧ ∃ (t : Slot) (c : String × Json) (rest : Place),
        t.bar? (room - 1) c.2 = some rest ∧ place = c.1 :: rest) := by
  cases haccepts : s.accepts v with
  | false =>
      rw [bar?_of_not_accepts haccepts] at h
      exact .inl (Option.some.inj h).symm
  | true =>
      by_cases hroom : v.children ≠ [] → 1 ≤ room
      · rw [bar?_children haccepts hroom] at h
        obtain ⟨c, hc, hplace⟩ := List.exists_of_findSome?_eq_some h
        obtain ⟨rest, hrest, rfl⟩ := Option.map_eq_some_iff.mp hplace
        obtain ⟨t, -, ht⟩ := Option.bind_eq_some_iff.mp hrest
        exact .inr (.inr ⟨hroom (List.ne_nil_of_mem hc), t, c, rest, ht, rfl⟩)
      · obtain ⟨hne, hfull⟩ := Classical.not_imp.mp hroom
        obtain ⟨c, cs, hc⟩ := List.exists_cons_of_ne_nil hne
        obtain rfl : room = 0 := by omega
        rw [bar?_full haccepts hc] at h
        exact .inr (.inl ⟨rfl, Option.some.inj h ▸ rfl⟩)

/-- What is too deep is one step too deep, since reading has come as far as the step above. -/
theorem length_of_bar? {place : Place} (h : s.bar? room v = some place)
    (hdeep : room < place.length) : place.length = room + 1 := by
  induction room generalizing s v place with
  | zero =>
      rcases bar?_cases h with rfl | ⟨-, hone⟩ | ⟨hroom, -⟩
      · cases hdeep
      · exact hone
      · cases hroom
  | succ room ih =>
      rcases bar?_cases h with rfl | ⟨hroom, -⟩ | ⟨-, t, c, rest, hrest, rfl⟩
      · cases hdeep
      · cases hroom
      · exact congrArg Nat.succ (ih hrest (Nat.lt_of_succ_lt_succ hdeep))

/-- Where nothing offends, reading is only stopped for want of room. -/
theorem Clean.length_of_bar? (hclean : s.Clean v) {place : Place}
    (h : s.bar? room v = some place) : place.length = room + 1 := by
  refine Slot.length_of_bar? h ?_
  obtain ⟨node, hnode, rfl⟩ := Option.map_eq_some_iff.mp h
  have hbars := List.find?_some hnode
  rw [bars, hclean node (List.mem_of_find?_eq_some hnode), Bool.false_or, overruns,
    Bool.and_eq_true, decide_eq_true_iff] at hbars
  exact hbars.1

theorem clean_iff : s.Clean v ↔
    s.accepts v = true ∧ ∀ c ∈ v.children, ∀ t ∈ s.step? c.1, t.Clean c.2 := by
  rw [Clean, Json.forall_nodes]
  refine and_congr (by rw [offends_root, Bool.not_eq_false']) (forall₂_congr fun c _ => ?_)
  simp only [offends_under]
  cases s.step? c.1 <;> simp [Clean]

/-- A step down takes room, and leaves one less for what is read below. -/
theorem shallow_iff : s.Shallow room v ↔
    ∀ c ∈ v.children, 1 ≤ room ∧ ∀ t ∈ s.step? c.1, t.Shallow (room - 1) c.2 := by
  rw [Shallow, Json.forall_nodes, and_iff_right (overruns_root s room)]
  refine forall₂_congr fun c _ => ?_
  cases room with
  | zero => exact iff_of_false (fun h => nomatch h _ c.2.root_mem_nodes) fun h => nomatch h.1
  | succ room =>
      have hunder (node : Place × Json) : (Json.under c.1 node).1 = c.1 :: node.1 := rfl
      simp only [hunder, overruns_succ]
      cases s.step? c.1 <;> simp [Shallow]

/-- A value that is taken all the way, through nodes as far as `depth` steps down. -/
structure Reaches (s : Slot) (v : Json) (depth : Nat) : Prop where
  clean : s.Clean v
  shallow : ∀ room, s.Shallow room v ↔ depth ≤ room

/-- The same of some children of a value. The steps count from the value. -/
structure ReachBelow (s : Slot) (cs : List (String × Json)) (depth : Nat) : Prop where
  clean : ∀ c ∈ cs, ∀ t ∈ s.step? c.1, t.Clean c.2
  shallow : ∀ room, (∀ c ∈ cs, 1 ≤ room ∧ ∀ t ∈ s.step? c.1, t.Shallow (room - 1) c.2) ↔
    depth ≤ room

theorem ReachBelow.reaches {depth : Nat} (h : s.ReachBelow v.children depth)
    (haccepts : s.accepts v = true) : s.Reaches v depth :=
  ⟨clean_iff.mpr ⟨haccepts, h.clean⟩, fun room => shallow_iff.trans (h.shallow room)⟩

theorem reachBelow_nil (s : Slot) : s.ReachBelow [] 0 :=
  ⟨List.forall_mem_nil _, fun room => iff_of_true (List.forall_mem_nil _) (Nat.zero_le room)⟩

theorem ReachBelow.append {cs ds : List (String × Json)} {m n : Nat} (h : s.ReachBelow cs m)
    (h' : s.ReachBelow ds n) : s.ReachBelow (cs ++ ds) (max m n) where
  clean := List.forall_mem_append.mpr ⟨h.clean, h'.clean⟩
  shallow room := by rw [List.forall_mem_append, h.shallow, h'.shallow, Nat.max_le]

theorem Reaches.below {t : Slot} {c : String × Json} {depth : Nat} (h : t.Reaches c.2 depth)
    (hstep : s.step? c.1 = some t) : s.ReachBelow [c] (depth + 1) where
  clean := by simpa [hstep] using h.clean
  shallow room := by
    simp only [List.forall_mem_singleton, hstep, Option.mem_some_iff, forall_eq', h.shallow]
    omega

/-- What is not read needs one step, whatever it is. -/
theorem reachBelow_of_step?_none {c : String × Json} (hstep : s.step? c.1 = none) :
    s.ReachBelow [c] 1 where
  clean := by simp [hstep]
  shallow room := by simp [hstep]

theorem reaches_scalar {k : Kind} (h : (scalar k).accepts v = true) :
    (scalar k).Reaches v 0 := by
  refine ReachBelow.reaches ?_ h
  rw [children_of_accepts_scalar h]
  exact reachBelow_nil _

theorem reaches_list {α : Type} {item : Slot} {json : α → Json} {depth : α → Nat} {as : List α}
    (h : ∀ a ∈ as, item.Reaches (json a) (depth a)) :
    (list item).Reaches (.array (as.map json)) ((as.map (depth · + 1)).foldr max 0) := by
  have hitems : ∀ start, (list item).ReachBelow
      (((as.map json).zipIdx start).map fun i => (natText i.2, i.1))
      ((as.map (depth · + 1)).foldr max 0) := by
    induction as with
    | nil => exact fun _ => reachBelow_nil _
    | cons a as ih =>
        obtain ⟨ha, has⟩ := List.forall_mem_cons.mp h
        exact fun start => (ha.below rfl).append (ih has (start + 1))
  exact (hitems 0).reaches rfl

theorem accepts_json {k : Kind} (hk : k ∉ [Kind.float, .double]) {x : k.Carrier}
    (hx : k.Expressible x) : (scalar k).accepts (k.json x) = true := by
  have hread (h : k.Survives x) : (scalar k).accepts (k.json x) = true := by
    rw [accepts, Kind.read?_json h rfl]
    rfl
  cases k with
  | float => simp at hk
  | double => simp at hk
  | timeSpan =>
      by_cases hlow : x.seconds = -(secondsLimit : Int)
      · -- The one that does not come back is read as another.
        have htext : Duration.ofString? (Text.trim (Duration.text x)) =
            some Duration.longestNegative := by
          rw [Duration.text, Text.trim_ofList_of_solid (Duration.solid_chars x), ← Duration.text,
            Duration.ofString?_text_eq, Duration.nanos_written_of_lowest hlow, Duration.of?_eq]
        rw [accepts, Kind.read?_string (k := .timeSpan) (by simp) rfl htext]
        rfl
      · exact hread hlow
  | dateTime => exact hread hx
  | _ => exact hread trivial

end Slot

/-! ### The document of an employee -/

/-- What particulars without floating point are written as is read, through all of its nodes. -/
theorem reaches_rows {p : Particulars} (h : p.Expressible) (hratio : p.ratio = none)
    (hscore : p.score = none) :
    ∀ row ∈ p.rows, ∃ s, Slot.fields.get? row.1 = some s ∧ ∀ v ∈ row.2, s.Reaches v v.depth := by
  have hscalar {k : Kind} (hk : k ∉ [Kind.float, .double]) {x : Option k.Carrier}
      (hx : ∀ a ∈ x, k.Expressible a) :
      ∀ v ∈ x.map k.json, (Slot.scalar k).Reaches v v.depth := by
    refine Option.forall_mem_map.mpr fun a ha => ?_
    rw [Kind.depth_json]
    exact Slot.reaches_scalar (Slot.accepts_json hk (hx a ha))
  have hname (s : String) : (Slot.scalar .string).Reaches (.string s) 0 := Slot.reaches_scalar rfl
  have hlist {α : Type} {t : Slot} {json : α → Json} (ht : ∀ a, t.Reaches (json a) (json a).depth)
      {x : Option (List α)} :
      ∀ v ∈ x.map fun l => .array (l.map json), (Slot.list t).Reaches v v.depth := by
    refine Option.forall_mem_map.mpr fun l _ => ?_
    rw [Json.depth, Json.depthItems_eq, List.map_map]
    exact Slot.reaches_list fun a _ => ht a
  have hint (n : Int32) : (Slot.scalar .int).Reaches (Kind.json .int n) 0 :=
    Slot.reaches_scalar (Slot.accepts_json (by decide) (k := .int) trivial)
  have hnone {s : Slot} : ∀ v ∈ (none : Option Json), s.Reaches v v.depth :=
    fun _ h => absurd h (Option.not_mem_none _)
  simp only [Particulars.rows, List.forall_mem_cons, hratio, hscore]
  exact ⟨⟨_, rfl, hscalar (by decide) fun _ _ => trivial⟩,
    ⟨_, rfl, hscalar (by decide) fun _ _ => trivial⟩,
    ⟨_, rfl, hscalar (by decide) fun _ _ => trivial⟩,
    ⟨_, rfl, hscalar (by decide) fun _ _ => trivial⟩,
    ⟨_, rfl, hscalar (by decide) fun _ _ => trivial⟩,
    ⟨_, rfl, hscalar (by decide) fun _ _ => trivial⟩,
    ⟨_, rfl, hnone⟩, ⟨_, rfl, hnone⟩,
    ⟨_, rfl, hscalar (by decide) fun _ _ => trivial⟩,
    ⟨_, rfl, hscalar (by decide) fun _ _ => trivial⟩,
    ⟨_, rfl, hscalar (by decide) h.created⟩,
    ⟨_, rfl, hscalar (by decide) fun _ _ => trivial⟩,
    ⟨_, rfl, hscalar (by decide) fun _ _ => trivial⟩,
    ⟨_, rfl, hscalar (by decide) fun _ _ => trivial⟩,
    ⟨_, rfl, hscalar (by decide) fun _ _ => trivial⟩,
    ⟨_, rfl, hscalar (by decide) fun _ _ => trivial⟩,
    ⟨_, rfl, Option.forall_mem_map.mpr fun _ _ => hname _⟩,
    ⟨_, rfl, Option.forall_mem_map.mpr fun _ _ => hname _⟩,
    ⟨_, rfl, hlist hname⟩, ⟨_, rfl, hlist hint⟩, ⟨_, rfl, hlist fun _ => hname _⟩,
    List.forall_mem_nil _⟩

theorem depthEach_eq (es : List Employee) : depthEach es = (es.map (·.depth + 1)).foldr max 0 := by
  induction es with
  | nil => rfl
  | cons e es ih => rw [depthEach, ih, List.map_cons, List.foldr_cons]

theorem reachBelow_particulars {ms : Members Json}
    (h : ∀ m ∈ ms, ∃ s, Slot.fields.get? m.1 = some s ∧ s.Reaches m.2 m.2.depth) :
    Slot.employee.ReachBelow ms (membersDepth ms) := by
  induction ms with
  | nil => exact Slot.reachBelow_nil _
  | cons m ms ih =>
      obtain ⟨⟨t, ht, hm⟩, hms⟩ := List.forall_mem_cons.mp h
      exact (hm.below (s := .employee) ht).append (ih hms)

theorem reachBelow_manager {manager : Option Employee}
    (h : ∀ m ∈ manager, Slot.employee.Reaches m.json m.depth) :
    Slot.employee.ReachBelow (managerMembers manager) (managerDepth manager) := by
  cases manager with
  | none => exact Slot.reachBelow_nil _
  | some m => exact (h m rfl).below rfl

theorem reachBelow_colleagues {colleagues : Option (List Employee)}
    (h : ∀ es ∈ colleagues, ∀ c ∈ es, Slot.employee.Reaches c.json c.depth) :
    Slot.employee.ReachBelow (colleagueMembers colleagues) (colleaguesDepth colleagues) := by
  cases colleagues with
  | none => exact Slot.reachBelow_nil _
  | some es =>
      have hes : (Slot.list .employee).Reaches (.array (jsonEach es)) (depthEach es) := by
        rw [jsonEach_eq, depthEach_eq]
        exact Slot.reaches_list (h es rfl)
      exact hes.below rfl

/-- However many there are and whatever they hold, undeclared fields are one step down. -/
theorem reachBelow_additional {data : AdditionalData}
    (h : ∀ key ∈ Members.keys data, key ∉ declared) :
    Slot.employee.ReachBelow (AdditionalData.json data) (if data.isEmpty then 0 else 1) := by
  induction data with
  | nil => exact Slot.reachBelow_nil _
  | cons field data ih =>
      obtain ⟨hfield, hdata⟩ := List.forall_mem_cons.mp h
      have hfirst := Slot.reachBelow_of_step?_none (s := .employee) (c := (field.1, field.2.json))
        (get?_fields_of_not_declared hfield)
      have hall := hfirst.append (ih hdata)
      rwa [Nat.max_eq_left (by split <;> omega)] at hall

/-- The document of an employee is read, through nodes as far down as the depth of the employee. -/
theorem reaches_json {e : Employee} (h : e.Everywhere fun e => e.Expressible ∧ e.Floatless) :
    Slot.employee.Reaches e.json e.depth := by
  induction h with
  | @mk e self _ _ hmanager hcolleagues =>
      obtain ⟨hexpressible, hfloats⟩ := self
      obtain ⟨particulars, manager, colleagues, additional⟩ := e
      have hrows := reaches_rows hexpressible.particulars hfloats.ratio hfloats.score
      have hpresent : ∀ m ∈ Field.present particulars.rows,
          ∃ s, Slot.fields.get? m.1 = some s ∧ s.Reaches m.2 m.2.depth := by
        intro m hm
        obtain ⟨s, hs, hv⟩ := hrows _ (Field.mem_present.mp hm)
        exact ⟨s, hs, hv m.2 rfl⟩
      have hall := (reachBelow_particulars hpresent).append ((reachBelow_manager hmanager).append
        ((reachBelow_colleagues hcolleagues).append
          (reachBelow_additional hexpressible.undeclared)))
      rw [json, depth]
      exact Slot.ReachBelow.reaches (v := .object _) hall rfl

/-! ### Reading with a limit -/

/-- Undeclared members have no slot, and neither has anything that lies within them. -/
theorem Slot.at?_undeclared {place : Place} (h : Slot.employee.at? place = some .employee)
    {name : String} (hname : name ∉ declared) (rest : Place) :
    Slot.employee.at? (place ++ name :: rest) = none := by
  have happend (s : Slot) (p q : Place) : s.at? (p ++ q) = (s.at? p).bind (·.at? q) := by
    induction p generalizing s with
    | nil => rfl
    | cons step p ih =>
        rw [List.cons_append, Slot.at?, Slot.at?, Option.bind_assoc]
        simp only [ih]
  rw [happend, h, Option.bind_some, Slot.at?, Slot.step?, get?_fields_of_not_declared hname]
  rfl

/-- The employee has all of what the undeclared members of an object hold, and so do the manager and
the colleagues, who are read from values within the object. -/
inductive Holds : Json → Employee → Prop
  | mk {members : Members Json} {e : Employee}
      (additional : e.additional =
        Members.mapValues Json.toUntyped (members.filter fun m => m.1 ∉ declared))
      (manager : Option.Rel Holds ((Json.object members).some? "manager") e.manager)
      (colleagues : Option.Rel (List.Forall₂ Holds)
        ((Json.object members).someItems? "colleagues") e.colleagues) :
      Holds (.object members) e

/-- The reading of an employee from a document, in which no node is more than `limit` steps down. -/
def readWithin (limit : Nat) (v : Json) : ReadM (Option Employee) :=
  Parsable.read? {} Parsable.create (.json { value := v, maxDepth := limit })

section

variable {limit : Nat} {v : Json}

/-- Every document is read, but for those with a node that bars the way. -/
theorem ends_readWithin (limit : Nat) (v : Json) :
    (readWithin limit v).Ends ((Slot.employee.bar? limit v).map fun place e =>
      ∃ cause, e = .parse (Json.Pointer.text place) cause ∧
        (limit < place.length → cause = .tooDeep limit)) :=
  ends_readAt (c := {}) (n := { value := v, maxDepth := limit }) (fun _ => ⟨empty, rfl⟩)
    (Nat.lt_succ_self _)

theorem exec_readWithin_iff : (∃ found log, (readWithin limit v).exec = (.ok found, log)) ↔
    Slot.employee.bar? limit v = none := by
  have hread := ends_readWithin limit v
  cases hbar : Slot.employee.bar? limit v with
  | none =>
      rw [hbar] at hread
      obtain ⟨found, log, hrun⟩ := hread []
      exact iff_of_true ⟨found, log, hrun⟩ rfl
  | some place =>
      rw [hbar] at hread
      obtain ⟨e, log, hrun, -⟩ := hread []
      refine iff_of_false ?_ (Option.some_ne_none _)
      rintro ⟨found, log', hok⟩
      rw [ReadM.exec, hrun] at hok
      cases hok

/-- What is too deep is refused, if nothing else is amiss. -/
theorem exec_readWithin_tooDeep (hclean : Slot.employee.Clean v)
    (hdeep : ¬ Slot.employee.Shallow limit v) : ∃ place log, (readWithin limit v).exec =
      (.error (.parse (Json.Pointer.text place) (.tooDeep limit)), log) ∧
        place.length = limit + 1 := by
  have hread := ends_readWithin limit v
  cases hbar : Slot.employee.bar? limit v with
  | none => exact absurd (Slot.bar?_eq_none_iff.mp hbar).2 hdeep
  | some place =>
      have hlength := hclean.length_of_bar? hbar
      rw [hbar] at hread
      obtain ⟨e, log, hrun, cause, rfl, hcause⟩ := hread []
      obtain rfl := hcause (by omega)
      exact ⟨place, log, hrun, hlength⟩

theorem holds_of_readWithin (hdistinct : v.Distinct) {found : Option Employee} {log : Log}
    (hread : (readWithin limit v).exec = (.ok found, log)) :
    Option.Rel Holds ((some v).filter (!·.isNull)) found :=
  (ensures_gathers (n := { value := v, maxDepth := limit })
    (fun _ _ h _ => .mk h.additional h.manager h.colleagues) rfl (fun _ _ => rfl) _ hdistinct
    (Nat.lt_succ_self _)).of_exec hread

end

/-- The limit on depth is exact. An employee without floating point, with values that JSON has and
no undeclared field named as a declared one, is read from what it is written as if it is no deeper
than the limit; else reading fails one step past the limit. No document has a node past the limit,
and a document is read if its declared parts are in order and have room. What undeclared members
hold is kept, however deep it is. -/
theorem limit_exact (limit : Nat) :
    (∀ e : Employee, e.Everywhere (fun e => e.Expressible ∧ e.Floatless) →
      ((Writable.outgoing e).write none).run ⟨.json {}, [], []⟩ =
        ((.ok (), e), ⟨.json { root := some e.json }, [], []⟩) ∧
      ((∃ found log, (readWithin limit e.json).exec = (.ok found, log)) ↔ e.depth ≤ limit) ∧
      (limit < e.depth → ∃ place log, (readWithin limit e.json).exec =
        (.error (.parse (Json.Pointer.text place) (.tooDeep limit)), log) ∧
          place.length = limit + 1)) ∧
    (∀ v steps n, Node.follow? steps (.json { value := v, maxDepth := limit }) = .ok (some n) →
      ∃ k : JsonNode, n = .json k ∧ k.steps.length ≤ limit) ∧
    (∀ v : Json,
      ((∃ found log, (readWithin limit v).exec = (.ok found, log)) ↔ ∀ node ∈ v.nodes,
        (∀ slot ∈ Slot.employee.at? node.1, slot.accepts node.2) ∧
          (limit < node.1.length → Slot.employee.at? node.1.dropLast = none)) ∧
      (v.Distinct → ∀ found log, (readWithin limit v).exec = (.ok found, log) →
        Option.Rel Holds ((some v).filter (!·.isNull)) found)) ∧
    ∀ place name rest, Slot.employee.at? place = some .employee → name ∉ declared →
      Slot.employee.at? (place ++ name :: rest) = none := by
  refine ⟨fun e he => ⟨?_, ?_, fun hdeep => ?_⟩, fun v steps n hfollow => ?_,
    fun v => ⟨?_, fun hdistinct found log => holds_of_readWithin hdistinct⟩,
    fun place name rest hplace hname => Slot.at?_undeclared hplace hname rest⟩
  · exact puts_outgoing (putsJson (he.mono fun _ h => h.1)) none _ _ [] rfl
  · have hreaches := reaches_json he
    rw [exec_readWithin_iff, Slot.bar?_eq_none_iff, hreaches.shallow]
    exact and_iff_right hreaches.clean
  · have hreaches := reaches_json he
    refine exec_readWithin_tooDeep hreaches.clean ?_
    rw [hreaches.shallow]
    exact Nat.not_le_of_lt hdeep
  · obtain ⟨k, rfl, hroom, hlimit⟩ := Node.follow?_json_ok
      (n := { value := v, maxDepth := limit }) (Nat.zero_le limit) hfollow
    exact ⟨k, rfl, Nat.le_trans hroom hlimit.le⟩
  · rw [exec_readWithin_iff, Slot.bar?_eq_none_iff_nodes]

def nested : Employee :=
  ⟨{ tags := some ["a", "b"] }, none,
    some [⟨{}, some ⟨{ age := some 7 }, none, none, []⟩, none, []⟩],
    [("note", .array [.array [.array [.array [.array [.object [("x", .null)]]]]]])]⟩

theorem everywhere_nested : nested.Everywhere Portable := by
  have hself : Particulars.Portable nested.particulars := by
    constructor <;> simp [nested, particulars]
  have hplain {p : Particulars} {m : Option Employee} {c : Option (List Employee)}
      (hp : p.Portable) : Portable ⟨p, m, c, []⟩ :=
    ⟨hp, List.forall_mem_nil _, .nil, List.forall_mem_nil _⟩
  refine .mk ⟨hself, ?_, by decide, by decide⟩ (fun _ hm => absurd hm (Option.not_mem_none _))
    fun es hes c hc => ?_
  · simp [nested, additional, Untyped.Exact, Untyped.ExactItems, Untyped.ExactMembers]
  · cases hes
    obtain rfl := List.mem_singleton.mp hc
    refine .mk (hplain (by constructor <;> simp)) (fun m hm => ?_)
      fun _ hes => absurd hes (Option.not_mem_none _)
    cases hm
    exact everywhere_alone (hplain (by constructor <;> simp))

/-- The colleague's manager has an age four steps down. -/
theorem limit_exact_nested :
    (∃ found log, (readWithin 4 nested.json).exec = (.ok found, log) ∧
      Option.Rel Holds (some nested.json) found) ∧
    (∃ place log, (readWithin 3 nested.json).exec =
      (.error (.parse (Json.Pointer.text place) (.tooDeep 3)), log) ∧ place.length = 4) ∧
    (∃ n, Node.follow? [.member "colleagues", .element 0, .member "manager"]
      (.json { value := nested.json, maxDepth := 3 }) = .ok (some n) ∧
        ∃ k : JsonNode, n = .json k ∧ k.steps.length ≤ 3) ∧
    Slot.employee.at? ["colleagues", "0", "note", "0"] = none := by
  have hdepth : nested.depth = 4 := by decide +kernel
  have hnested : nested.Everywhere fun e => e.Expressible ∧ e.Floatless :=
    everywhere_nested.mono fun _ h =>
      ⟨h.lasting.expressible, ⟨h.particulars.ratio, h.particulars.score⟩⟩
  have hdistinct : nested.json.Distinct :=
    (legible_json (everywhere_nested.mono fun _ => Portable.lasting)).distinct
  obtain ⟨found, log, hread⟩ := ((limit_exact 4).1 nested hnested).2.1.mpr hdepth.le
  obtain ⟨n, hfollow⟩ : ∃ n, Node.follow? [.member "colleagues", .element 0, .member "manager"]
      (.json { value := nested.json, maxDepth := 3 }) = .ok (some n) := ⟨_, rfl⟩
  refine ⟨⟨found, log, hread, ((limit_exact 4).2.2.1 nested.json).2 hdistinct found log hread⟩,
    ((limit_exact 3).1 nested hnested).2.2 (by omega), ⟨n, hfollow, ?_⟩, ?_⟩
  · exact (limit_exact 3).2.1 nested.json _ n hfollow
  · exact (limit_exact 3).2.2.2 ["colleagues", "0"] "note" ["0"] rfl (by decide)

end Employee

end Marshal
