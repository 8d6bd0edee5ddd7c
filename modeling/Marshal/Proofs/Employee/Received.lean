import Marshal.Proofs.Employee.Reading
import Marshal.Proofs.Json.Undeclared

/-!
Employees that were read from JSON. Nothing in them but flags, times and names can be past what JSON
holds, and in their own document they reach no deeper than what was read.
-/

namespace Marshal

namespace Particulars

def Has (p : Particulars) : (k : Kind) → k.Carrier → Prop
  | .float, v => v ∈ p.ratio
  | .double, v => v ∈ p.score
  | .dateTime, v => v ∈ p.created
  | .timeSpan, v => v ∈ p.tenure
  | _, _ => True

/-- What stands under any name is a scalar, the name of a value, or a list. -/
theorem forall_present {p : Particulars} {P : Json → Prop}
    (hscalar : ∀ (k : Kind) (v : k.Carrier), p.Has k v → P (k.json v))
    (hname : ∀ s, P (.string s))
    (htags : ∀ l ∈ p.tags, P (.array (l.map (Kind.json .string))))
    (hnumbers : ∀ l ∈ p.luckyNumbers, P (.array (l.map (Kind.json .int))))
    (hstatuses : ∀ l ∈ p.pastStatuses, P (.array (l.map Status.wire.json))) :
    ∀ m ∈ Field.present p.rows, P m.2 := by
  have hrows : ∀ row ∈ p.rows, ∀ v ∈ row.2, P v := by
    simp only [rows, List.forall_mem_cons, Option.forall_mem_map]
    exact ⟨fun _ _ => hscalar .string _ trivial, fun _ _ => hscalar .string _ trivial,
      fun _ _ => hscalar .int _ trivial, fun _ _ => hscalar .long _ trivial,
      fun _ _ => hscalar .byte _ trivial, fun _ _ => hscalar .sbyte _ trivial,
      fun v hv => hscalar .float v hv, fun v hv => hscalar .double v hv,
      fun _ _ => hscalar .decimal _ trivial, fun _ _ => hscalar .bool _ trivial,
      fun v hv => hscalar .dateTime v hv, fun _ _ => hscalar .date _ trivial,
      fun _ _ => hscalar .time _ trivial, fun v hv => hscalar .timeSpan v hv,
      fun _ _ => hscalar .guid _ trivial, fun _ _ => hscalar .bytes _ trivial,
      fun _ _ => hname _, fun _ _ => hname _, htags, hnumbers, hstatuses, List.forall_mem_nil _⟩
  exact fun m hm => hrows _ (Field.mem_present.mp hm) m.2 rfl

theorem legible (p : Particulars) : ∀ m ∈ Field.present p.rows, m.2.Legible := by
  have hlist {α : Type} {f : α → Json} (hf : ∀ a, (f a).Legible) (l : List α) :
      (Json.array (l.map f)).Legible :=
    Json.legible_array_iff.mpr (List.forall_mem_map.mpr fun a _ => hf a)
  exact forall_present (fun k v _ => Kind.legible_json v) Json.legible_string
    (fun l _ => hlist Json.legible_string l) (fun l _ => hlist (Kind.legible_json (k := .int)) l)
    (fun l _ => hlist (fun s => Json.legible_string _) l)

/-- A list is a container, and unless it is empty there are nodes below its own. -/
def Listed {α : Type} (depth nesting : Nat) (list : Option (List α)) : Prop :=
  ∀ l ∈ list, 1 ≤ nesting ∧ (l ≠ [] → 2 ≤ depth)

/-- What is so of particulars that were read from an object with nodes `depth` steps down and
`nesting` containers within it. -/
structure Fits (depth nesting : Nat) (p : Particulars) : Prop where
  tenure : ∀ d ∈ p.tenure, d.seconds ≠ -(secondsLimit : Int)
  tags : Listed depth nesting p.tags
  luckyNumbers : Listed depth nesting p.luckyNumbers
  pastStatuses : Listed depth nesting p.pastStatuses

variable {depth nesting : Nat} {p : Particulars}

theorem Listed.array {α : Type} {list : Option (List α)} (h : Listed depth nesting list)
    (hdepth : 1 ≤ depth) {f : α → Json} (hf : ∀ a, (f a).depth = 0 ∧ (f a).nesting = 0) :
    ∀ l ∈ list, (Json.array (l.map f)).depth + 1 ≤ depth ∧
      (Json.array (l.map f)).nesting ≤ nesting := by
  intro l hl
  obtain ⟨hnesting, hroom⟩ := h l hl
  have hitems : Json.itemNesting (l.map f) ≤ 0 :=
    Json.itemNesting_le_iff.mpr (List.forall_mem_map.mpr fun a _ => (hf a).2.le)
  constructor
  · cases l with
    | nil => exact hdepth
    | cons a l =>
        have hbelow : Json.depthItems ((a :: l).map f) ≤ 1 := by
          generalize a :: l = l
          induction l with
          | nil => exact Nat.zero_le 1
          | cons a l ih =>
              rw [List.map_cons, Json.depthItems, (hf a).1]
              exact Nat.max_le.mpr ⟨Nat.le_refl 1, ih⟩
        have := hroom (List.cons_ne_nil a l)
        rw [Json.depth]
        omega
  · rw [Json.nesting]
    omega

/-- In the document of their own, particulars need no more room than where they were read. -/
theorem Fits.present (h : p.Fits depth nesting) (hdepth : 1 ≤ depth) :
    ∀ m ∈ Field.present p.rows, m.2.depth + 1 ≤ depth ∧ m.2.nesting ≤ nesting := by
  have hscalar (k : Kind) (v : k.Carrier) : (k.json v).depth + 1 ≤ depth ∧
      (k.json v).nesting ≤ nesting := by
    rw [Kind.depth_json, Kind.nesting_json]
    exact ⟨hdepth, Nat.zero_le _⟩
  have hkind (k : Kind) (v : k.Carrier) := And.intro (Kind.depth_json v) (Kind.nesting_json v)
  exact forall_present (P := fun v => v.depth + 1 ≤ depth ∧ v.nesting ≤ nesting)
    (fun k v _ => hscalar k v) (fun _ => ⟨hdepth, Nat.zero_le _⟩)
    (h.tags.array hdepth (hkind .string)) (h.luckyNumbers.array hdepth (hkind .int))
    (h.pastStatuses.array hdepth fun _ => ⟨rfl, rfl⟩)

/-! ### Reading -/

theorem ensures_listed {α : Type} {read : Node → ReadM (Option α)} {n : JsonNode} {name : String}
    {v : Json} (hv : v.nesting ≤ nesting) :
    (Parsable.readAll? read (.json (n.below name v))).Ensures (Listed n.left nesting) := by
  refine ReadM.Ensures.mono (Parsable.forall_readAll? (P := fun _ => True) fun _ _ _ _ _ =>
    (ReadM.ensures_trivial _).mono fun _ _ _ _ => trivial) fun found hfound l hl => ?_
  obtain ⟨items, hitems, hroom⟩ := hfound l hl
  rw [JsonNode.value_below] at hitems
  rw [hitems, Json.nesting] at hv
  refine ⟨by omega, fun hne => ?_⟩
  obtain ⟨a, ha⟩ := List.exists_mem_of_ne_nil l hne
  have hleft := (hroom a ha).1.le_left
  rw [JsonNode.left_below] at hleft
  omega

theorem ensures_tenure (n : JsonNode) :
    (ReadM.ofResult (Kind.timeSpan.codec.read? (.json n))).Ensures fun found =>
      ∀ d ∈ found, d.seconds ≠ -(secondsLimit : Int) := by
  have htext (t : Option String) : (ReadM.ofResult (Kind.timeSpan.ofText? n.path t)).Ensures
      fun found => ∀ d ∈ found, d.seconds ≠ -(secondsLimit : Int) := by
    refine ReadM.ensures_ofResult fun found hread d hd => ?_
    obtain rfl := Option.mem_def.mp hd
    cases t with
    | none => cases hread
    | some s =>
        rw [Kind.ofText?] at hread
        obtain ⟨d', hd', heq⟩ := exists_of_map_ok hread
        obtain rfl := Option.some.inj heq
        exact Duration.seconds_ne_of_ofString? (Kind.ofTrimmed?_of_ofText (by decide) hd')
  have hbind : ReadM.ofResult (Kind.timeSpan.codec.read? (.json n)) =
      ReadM.ofResult n.text? >>= fun t => ReadM.ofResult (Kind.timeSpan.ofText? n.path t) :=
    ReadM.ofResult_bind ..
  rw [hbind]
  exact (ReadM.ensures_trivial _).bind fun t _ => htext t

theorem Fits.ensures_reader {n : JsonNode} (h : p.Fits n.left nesting) {name : String} {v : Json}
    (hv : v.nesting ≤ nesting) :
    ∀ f ∈ fields, ((f.reader (.json (n.below name v))).on p).Ensures (Fits n.left nesting) := by
  have hother {f : Field Particulars} (hset : ∀ v, (f.set v p).Fits n.left nesting) :
      ((f.reader (.json (n.below name v))).on p).Ensures (Fits n.left nesting) :=
    Field.ensures_reader (ReadM.ensures_trivial _) fun v _ => hset v
  have hlist (k : Kind) : (ReadM.ofResult ((Node.json (n.below name v)).readList? k)).Ensures
      (Listed n.left nesting) := by
    rw [Parsable.readList?_eq_readAll?]
    exact ensures_listed hv
  have hnames : (ReadM.ofResult (Status.wire.readNodes? (Node.json (n.below name v)))).Ensures
      (Listed n.left nesting) := by
    rw [Parsable.readNodes?_eq_readAll?]
    exact ensures_listed hv
  -- Most fields hold nothing that is spoken of here.
  simp only [fields, List.forall_mem_cons]
  repeat' apply And.intro
  all_goals try exact hother fun _ => ⟨h.tenure, h.tags, h.luckyNumbers, h.pastStatuses⟩
  · exact Field.ensures_reader (ensures_tenure _) fun _ hread =>
      ⟨hread, h.tags, h.luckyNumbers, h.pastStatuses⟩
  · exact Field.ensures_reader (hlist .string) fun _ hread =>
      ⟨h.tenure, hread, h.luckyNumbers, h.pastStatuses⟩
  · exact Field.ensures_reader (hlist .int) fun _ hread =>
      ⟨h.tenure, h.tags, hread, h.pastStatuses⟩
  · exact Field.ensures_reader hnames fun _ hread =>
      ⟨h.tenure, h.tags, h.luckyNumbers, hread⟩
  · exact List.forall_mem_nil _

end Particulars

namespace Employee

/-- What is so of one employee that was read, managers and colleagues apart. -/
structure Received (e : Employee) : Prop where
  tenure : ∀ d ∈ e.particulars.tenure, d.seconds ≠ -(secondsLimit : Int)
  sound : ∀ m ∈ e.additional, m.2.Sound
  unreserved : ∀ m ∈ e.additional, m.2.json.Unreserved
  names : (Members.keys e.additional).Nodup
  undeclared : ∀ key ∈ Members.keys e.additional, key ∉ declared

/-- An employee that was read at a place with nodes `depth` steps down, and from a value with
`nesting` containers within each other. -/
structure Within (depth nesting : Nat) (e : Employee) : Prop where
  everywhere : e.Everywhere Received
  depth : e.depth ≤ depth
  nesting : e.json.nesting ≤ nesting

theorem Within.mono {e : Employee} {depth nesting depth' nesting' : Nat}
    (h : e.Within depth nesting) (hdepth : depth ≤ depth') (hnesting : nesting ≤ nesting') :
    e.Within depth' nesting' :=
  ⟨h.everywhere, h.depth.trans hdepth, h.nesting.trans hnesting⟩

/-- As much of an employee as some members of an object give. Below the object nodes go `depth`
steps down, and its members have `nesting` containers within each other. -/
structure Fits (depth nesting : Nat) (e : Employee) : Prop where
  particulars : e.particulars.Fits depth nesting
  manager : ∀ m ∈ e.manager, m.Within (depth - 1) nesting
  colleagues : ∀ es ∈ e.colleagues, 1 ≤ nesting ∧
    ∀ c ∈ es, 2 ≤ depth ∧ c.Within (depth - 2) (nesting - 1)
  additional : ∀ m ∈ e.additional, m.2.Sound ∧ m.2.json.Unreserved ∧ m.2.json.nesting ≤ nesting
  names : (Members.keys e.additional).Nodup
  undeclared : ∀ key ∈ Members.keys e.additional, key ∉ declared

variable {depth nesting : Nat} {e : Employee}

theorem fits_empty : empty.Fits depth nesting where
  particulars := by constructor <;> exact fun _ h => absurd h (Option.not_mem_none _)
  manager _ h := absurd h (Option.not_mem_none _)
  colleagues _ h := absurd h (Option.not_mem_none _)
  additional := List.forall_mem_nil _
  names := .nil
  undeclared := List.forall_mem_nil _

theorem everywhere_empty : empty.Everywhere Received :=
  .mk ⟨fun _ h => absurd h (Option.not_mem_none _), List.forall_mem_nil _, List.forall_mem_nil _,
    .nil, List.forall_mem_nil _⟩ (fun _ h => absurd h (Option.not_mem_none _))
    fun _ h => absurd h (Option.not_mem_none _)

/-- Every member of the object of an employee is one of these. -/
theorem forall_members {P : Json → Prop}
    (hparticulars : ∀ m ∈ Field.present e.particulars.rows, P m.2)
    (hmanager : ∀ m ∈ e.manager, P m.json)
    (hcolleagues : ∀ es ∈ e.colleagues, P (.array (jsonEach es)))
    (hadditional : ∀ m ∈ e.additional, P m.2.json) :
    ∀ m ∈ e.ownMembers ++ AdditionalData.json e.additional, P m.2 := by
  intro m hm
  rw [ownMembers, List.mem_append, List.mem_append, List.mem_append] at hm
  rcases hm with (hm | hm | hm) | hm
  · exact hparticulars m hm
  · cases hmanager' : e.manager with
    | none => simp [hmanager', managerMembers] at hm
    | some b =>
        rw [hmanager', managerMembers] at hm
        obtain rfl := List.mem_singleton.mp hm
        exact hmanager b hmanager'
  · cases hcolleagues' : e.colleagues with
    | none => simp [hcolleagues', colleagueMembers] at hm
    | some es =>
        rw [hcolleagues', colleagueMembers] at hm
        obtain rfl := List.mem_singleton.mp hm
        exact hcolleagues es hcolleagues'
  · obtain ⟨field, hfield, rfl⟩ := List.mem_map.mp hm
    exact hadditional field hfield

theorem membersDepth_le {ms : Members Json} (h : ∀ m ∈ ms, m.2.depth + 1 ≤ depth) :
    membersDepth ms ≤ depth := by
  induction ms with
  | nil => exact Nat.zero_le _
  | cons m ms ih =>
      obtain ⟨hm, hms⟩ := List.forall_mem_cons.mp h
      exact Nat.max_le.mpr ⟨hm, ih hms⟩

theorem depthEach_le {es : List Employee} (h : ∀ c ∈ es, c.depth + 1 ≤ depth) :
    depthEach es ≤ depth := by
  induction es with
  | nil => exact Nat.zero_le _
  | cons e es ih =>
      obtain ⟨he, hes⟩ := List.forall_mem_cons.mp h
      exact Nat.max_le.mpr ⟨he, ih hes⟩

theorem depth_le (hparticulars : ∀ m ∈ Field.present e.particulars.rows, m.2.depth + 1 ≤ depth)
    (hmanager : ∀ m ∈ e.manager, m.depth + 1 ≤ depth)
    (hcolleagues : ∀ es ∈ e.colleagues, depthEach es + 1 ≤ depth)
    (hadditional : e.additional ≠ [] → 1 ≤ depth) : e.depth ≤ depth := by
  obtain ⟨particulars, manager, colleagues, additional⟩ := e
  have hm : managerDepth manager ≤ depth := by
    cases manager with
    | none => exact Nat.zero_le _
    | some m => exact hmanager m rfl
  have hc : colleaguesDepth colleagues ≤ depth := by
    cases colleagues with
    | none => exact Nat.zero_le _
    | some es => exact hcolleagues es rfl
  have ha : (if additional.isEmpty then 0 else 1) ≤ depth := by
    cases additional with
    | nil => exact Nat.zero_le _
    | cons m data => exact hadditional (List.cons_ne_nil m data)
  rw [Employee.depth]
  exact Nat.max_le.mpr
    ⟨membersDepth_le hparticulars, Nat.max_le.mpr ⟨hm, Nat.max_le.mpr ⟨hc, ha⟩⟩⟩

theorem nesting_le (hparticulars : ∀ m ∈ Field.present e.particulars.rows, m.2.nesting ≤ nesting)
    (hmanager : ∀ m ∈ e.manager, m.json.nesting ≤ nesting)
    (hcolleagues : ∀ es ∈ e.colleagues, 1 ≤ nesting ∧ ∀ c ∈ es, c.json.nesting + 1 ≤ nesting)
    (hadditional : ∀ m ∈ e.additional, m.2.json.nesting ≤ nesting) :
    e.json.nesting ≤ nesting + 1 := by
  have harray : ∀ es ∈ e.colleagues, (Json.array (jsonEach es)).nesting ≤ nesting := by
    intro es hes
    obtain ⟨hone, heach⟩ := hcolleagues es hes
    have hitems : Json.itemNesting (jsonEach es) ≤ nesting - 1 := by
      rw [Json.itemNesting_le_iff, jsonEach_eq, List.forall_mem_map]
      exact fun c hc => Nat.le_sub_of_add_le (heach c hc)
    rw [Json.nesting]
    omega
  have hmembers := Json.memberNesting_le_iff.mpr <|
    forall_members (P := fun v => v.nesting ≤ nesting) hparticulars hmanager harray hadditional
  rw [json_eq, Json.nesting]
  omega

/-- All members give an employee that takes no more room than the object. -/
theorem Fits.within (h : e.Fits depth nesting) (hdepth : 1 ≤ depth) :
    e.Within depth (nesting + 1) where
  everywhere := .mk
    ⟨h.particulars.tenure, fun m hm => (h.additional m hm).1, fun m hm => (h.additional m hm).2.1,
      h.names, h.undeclared⟩
    (fun m hm => (h.manager m hm).everywhere)
    fun es hes c hc => ((h.colleagues es hes).2 c hc).2.everywhere
  depth := by
    refine depth_le (fun m hm => (h.particulars.present hdepth m hm).1) (fun m hm => ?_)
      (fun es hes => ?_) fun _ => hdepth
    · have := (h.manager m hm).depth
      omega
    · have heach : depthEach es ≤ depth - 1 := depthEach_le fun c hc => by
        obtain ⟨htwo, hc⟩ := (h.colleagues es hes).2 c hc
        have := hc.depth
        omega
      omega
  nesting := by
    refine nesting_le (fun m hm => (h.particulars.present hdepth m hm).2)
      (fun m hm => (h.manager m hm).nesting) (fun es hes => ?_)
      fun m hm => (h.additional m hm).2.2
    obtain ⟨hone, heach⟩ := h.colleagues es hes
    refine ⟨hone, fun c hc => ?_⟩
    have := (heach c hc).2.nesting
    omega

/-! ### Reading -/

section Reading

variable {self : Node → ReadM (Option Employee)}

theorem Fits.keep (h : e.Fits depth nesting) {name : String} (hname : name ∉ declared) {v : Json}
    (hdistinct : v.Distinct) (hunreserved : v.Unreserved) (hv : v.nesting ≤ nesting) :
    (Employee.keep name v.toUntyped e).Fits depth nesting := by
  obtain ⟨particulars, manager, colleagues, additional⟩ := e
  refine ⟨h.particulars, h.manager, h.colleagues, fun m hm => ?_,
    Members.nodup_keys_put h.names .., fun key hkey => ?_⟩
  · rcases Members.mem_put hm with rfl | hm
    · exact ⟨v.sound_toUntyped hdistinct, v.unreserved_toUntyped hunreserved,
        v.nesting_toUntyped.trans_le hv⟩
    · exact h.additional m hm
  · obtain ⟨m, hm, rfl⟩ := List.mem_map.mp hkey
    rcases Members.mem_put hm with rfl | hm
    · exact hname
    · exact h.undeclared _ (List.mem_map_of_mem hm)

variable (hself : ∀ n : JsonNode, n.value.Distinct → n.value.Unreserved →
  (self (.json n)).Ensures fun found => ∀ e ∈ found, e.Within n.left n.value.nesting)

include hself

/-- The colleagues lie two steps down, within the array. -/
theorem ensures_colleagues {n : JsonNode} {name : String} {v : Json} (hdistinct : v.Distinct)
    (hunreserved : v.Unreserved) (hv : v.nesting ≤ nesting) :
    (Parsable.readAll? self (.json (n.below name v))).Ensures fun found =>
      ∀ es ∈ found, 1 ≤ nesting ∧ ∀ c ∈ es, 2 ≤ n.left ∧ c.Within (n.left - 2) (nesting - 1) := by
  refine ReadM.Ensures.mono (Parsable.forall_readAll? (P := Within (n.left - 2) (nesting - 1)) ?_)
    fun found hfound es hes => ?_
  · intro items hitems item hitem step
    rw [JsonNode.value_below] at hitems
    subst hitems
    have hnesting := Json.itemNesting_le_iff.mp le_rfl item hitem
    rw [Json.nesting] at hv
    have hread := hself ((n.below name (.array items)).below step item)
      (Json.distinct_array_iff.mp hdistinct item hitem)
      (Json.unreserved_array_iff.mp hunreserved item hitem)
    rw [JsonNode.left_below, JsonNode.left_below, JsonNode.value_below] at hread
    exact hread.mono fun found hfound c hc => (hfound c hc).mono (by omega) (by omega)
  · obtain ⟨items, hitems, heach⟩ := hfound es hes
    rw [JsonNode.value_below] at hitems
    rw [hitems, Json.nesting] at hv
    refine ⟨by omega, fun c hc => ?_⟩
    obtain ⟨hroom, hwithin⟩ := heach c hc
    have hleft := hroom.le_left
    rw [JsonNode.left_below] at hleft
    exact ⟨by omega, hwithin⟩

/-- One member more. -/
theorem Fits.ensures_assign {n : JsonNode} (h : e.Fits n.left nesting) {m : String × Json}
    (hdistinct : m.2.Distinct) (hunreserved : m.2.Unreserved) (hm : m.2.nesting ≤ nesting) :
    (Parsable.assign ⟨readers self⟩ e (m.1, .json (n.below m.1 m.2))).Ensures
      (Fits n.left nesting) := by
  obtain ⟨name, v⟩ := m
  obtain ⟨particulars, manager, colleagues, additional⟩ := e
  rcases readers_cases self name with
    ⟨f, hf, rfl, hreader⟩ | ⟨rfl, hreader⟩ | ⟨rfl, hreader⟩ | ⟨hname, hreader⟩
  · simp only [Parsable.assign, hreader, FieldReaders.on_lift, particularsView]
    refine (h.particulars.ensures_reader hm f hf).bind fun p hp => ReadM.ensures_pure ?_
    exact ⟨hp, h.manager, h.colleagues, h.additional, h.names, h.undeclared⟩
  · simp only [Parsable.assign, hreader, on_managerReader]
    refine (hself (n.below "manager" v) hdistinct hunreserved).bind fun found hfound =>
      ReadM.ensures_pure ?_
    rw [JsonNode.left_below] at hfound
    exact ⟨h.particulars, fun b hb => (hfound b hb).mono le_rfl hm, h.colleagues, h.additional,
      h.names, h.undeclared⟩
  · simp only [Parsable.assign, hreader, on_colleaguesReader]
    refine (ensures_colleagues hself hdistinct hunreserved hm).bind fun found hfound =>
      ReadM.ensures_pure ?_
    exact ⟨h.particulars, h.manager, hfound, h.additional, h.names, h.undeclared⟩
  · simp only [Parsable.assign, hreader]
    exact ReadM.ensures_pure (h.keep hname hdistinct hunreserved hm)

/-- The employee of a whole object. -/
theorem ensures_members {n : JsonNode} {members : Members Json}
    (hdistinct : (Json.object members).Distinct) (hunreserved : (Json.object members).Unreserved)
    (hroom : members ≠ [] → n.Room 1) :
    ((memberNodes n members).foldlM (Parsable.assign ⟨readers self⟩) empty).Ensures
      (Within n.left (Json.object members).nesting) := by
  by_cases hne : members = []
  · subst hne
    exact ReadM.ensures_pure ⟨everywhere_empty, Nat.zero_le _, le_rfl⟩
  · rw [memberNodes, List.foldlM_map]
    refine ReadM.Ensures.mono (ReadM.ensures_foldlM
      (I := fun _ e => e.Fits n.left (Json.memberNesting members))
      (fun done m rest e hwhole he => ?_) fits_empty) fun e he => ?_
    · have hm : m ∈ members := by simp [← hwhole]
      exact he.ensures_assign hself ((Json.distinct_object_iff.mp hdistinct).2 m hm)
        ((Json.unreserved_object_iff.mp hunreserved).2 m hm)
        (Json.memberNesting_le_iff.mp le_rfl m hm)
    · rw [Json.nesting]
      exact he.within (hroom hne).le_left

end Reading

/-- Whatever is read takes no more room than what it was read from. -/
theorem ensures_readAt {context : Reading.Context Employee} (hlayers : context.layers = [])
    (hresolve : ∀ n f, context.resolve n f = f) (fuel : Nat) {n : JsonNode}
    (hdistinct : n.value.Distinct) (hunreserved : n.value.Unreserved) :
    (Parsable.readAt context fuel Parsable.create (.json n)).Ensures fun found =>
      ∀ e ∈ found, e.Within n.left n.value.nesting := by
  induction fuel generalizing n with
  | zero => exact ReadM.ensures_pure nofun
  | succ fuel ih =>
      rw [Parsable.readAt_succ]
      refine ReadM.Ensures.bind (ReadM.ensures_ofResult fun _ h => h) fun found hfound => ?_
      rcases Node.members?_json_ok hfound with ⟨hv, rfl⟩ | ⟨members, hv, rfl⟩
      · exact ReadM.ensures_pure nofun
      · have hroom := Node.room_of_members?_json hv hfound
        rw [hv] at hdistinct hunreserved ⊢
        have hmembers := ensures_members (fun n => ih (n := n)) hdistinct hunreserved hroom
        have hcreate : (Parsable.create : Factory Employee) (.json n) = .ok empty := rfl
        simp only [hresolve, hcreate, ReadM.ofResult_ok, pure_bind, Parsable.assignAll, hlayers,
          List.foldlM_nil, fieldReaders_eq, bind_pure]
        refine hmembers.bind fun e he => ReadM.ensures_pure ?_
        simpa using he

end Employee

end Marshal
