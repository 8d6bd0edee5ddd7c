import Marshal.Proofs.Employee.Received
import Marshal.Proofs.Employee.Writing

/-!
What is written of an employee is the employee without the bits that belong to no flag. So all that
is known of writing flags that have names holds of any flags.
-/

namespace Marshal

namespace WireEnum

variable {V : Type}

/-- Only the bits that members have make a difference. -/
theorem coverFrom_congr {f : FlagBits V} {bits bits' : UInt64} {ms : List (EnumMember V)}
    (h : ∀ m ∈ ms, f.toBits m.value &&& bits = f.toBits m.value &&& bits') (covered : UInt64) :
    coverFrom f bits covered ms = coverFrom f bits' covered ms := by
  induction ms generalizing covered with
  | nil => rfl
  | cons m ms ih =>
      obtain ⟨hm, hms⟩ := List.forall_mem_cons.mp h
      simp only [coverFrom, hm, ih hms]

end WireEnum

namespace Permissions

/-- The flags that are written; bits that belong to none of them are left out. -/
def written? (p : Permissions) : Option Permissions :=
  if p.bits ≠ 0 ∧ p.bits &&& memberBits = 0 then none else some ⟨p.bits &&& memberBits⟩

theorem known_of_written? {p q : Permissions} (h : p.written? = some q) : q.Known := by
  rw [written?] at h
  split_ifs at h
  cases h
  rw [Known, UInt64.and_assoc, UInt64.and_self]

theorem Known.written?_eq {p : Permissions} (h : p.Known) : p.written? = some p := by
  rw [Known] at h
  rw [written?, h, if_neg fun hzero => hzero.1 hzero.2]

theorem toBits_and_memberBits (bits : UInt64) :
    ∀ m ∈ wire.members, m.value.bits &&& (bits &&& memberBits) = m.value.bits &&& bits := by
  have hmembers : ∀ m ∈ wire.members, m.value.bits &&& memberBits = m.value.bits := by decide
  intro m hm
  rw [UInt64.and_comm bits, ← UInt64.and_assoc, hmembers m hm]

theorem write?_eq (p : Permissions) :
    wire.write? p = if p.bits = 0 then some "none" else
      match WireEnum.coverFrom { toBits := bits, ofBits := mk } p.bits 0 wire.members with
      | [] => none
      | names => some (",".intercalate names) := rfl

/-- Leaving them out changes nothing of what is written. -/
theorem write?_written? (p : Permissions) : p.written?.bind wire.write? = wire.write? p := by
  have hcover := WireEnum.coverFrom_congr (f := { toBits := bits, ofBits := mk })
    (toBits_and_memberBits p.bits) 0
  by_cases hp : p.bits = 0
  · have hzero : p.Known := by rw [Known, hp, UInt64.zero_and]
    rw [hzero.written?_eq, Option.bind_some]
  · rw [written?, write?_eq p, if_neg hp, ← hcover]
    by_cases hbits : p.bits &&& memberBits = 0
    · rw [if_pos ⟨hp, hbits⟩, hbits]
      rfl
    · rw [if_neg fun h => hbits h.2, Option.bind_some, write?_eq, if_neg hbits]

theorem script_written? (key : Option String) (p : Option Permissions) :
    wire.script key (p.bind written?) = wire.script key p := by
  cases p with
  | none => rfl
  | some p =>
      rw [WireEnum.script, WireEnum.script, Option.bind_some, write?_written?, Option.bind_some]

end Permissions

namespace Particulars

def written (p : Particulars) : Particulars :=
  { p with permissions := p.permissions.bind Permissions.written? }

theorem known_written (p : Particulars) : ∀ s ∈ p.written.permissions, s.Known := by
  intro s hs
  obtain ⟨q, -, hq⟩ := Option.bind_eq_some_iff.mp hs
  exact Permissions.known_of_written? hq

theorem scripts_written (p : Particulars) :
    Field.scripts fields p.written = Field.scripts fields p := by
  have hfields : ∀ f ∈ fields, f.script p.written = f.script p := by
    simp only [fields, List.forall_mem_cons]
    repeat' apply And.intro
    all_goals try exact rfl
    · exact Permissions.script_written? (some "permissions") p.permissions
    · exact List.forall_mem_nil _
  exact List.flatMap_congr hfields

/-- The members that are left are as they were. -/
theorem mem_present_written {p : Particulars} {m : String × Json}
    (h : m ∈ Field.present p.written.rows) : m ∈ Field.present p.rows := by
  have hrows : p.written.rows = p.rows.set 17 ("permissions",
      (p.permissions.bind Permissions.written?).map Permissions.wire.json) := rfl
  rw [Field.mem_present, hrows] at h
  rw [Field.mem_present]
  rcases List.mem_or_eq_of_mem_set h with h | h
  · exact h
  · obtain ⟨hname, hvalue⟩ := Prod.mk.inj h
    obtain ⟨q, hq, hjson⟩ := Option.map_eq_some_iff.mp hvalue.symm
    obtain ⟨s, hs, hwritten⟩ := Option.bind_eq_some_iff.mp hq
    have hsame : Permissions.wire.json q = Permissions.wire.json s := by
      rw [WireEnum.json, WireEnum.json, ← Permissions.write?_written? s, hwritten,
        Option.bind_some]
    rw [hname, ← hjson, hsame]
    simp [rows, hs]

end Particulars

namespace Employee

mutual

def written : Employee → Employee
  | ⟨particulars, manager, colleagues, additional⟩ =>
    ⟨particulars.written, writtenManager manager, writtenColleagues colleagues, additional⟩

def writtenManager : Option Employee → Option Employee
  | none => none
  | some m => some (written m)

def writtenColleagues : Option (List Employee) → Option (List Employee)
  | none => none
  | some es => some (writtenEach es)

def writtenEach : List Employee → List Employee
  | [] => []
  | e :: es => written e :: writtenEach es

end

theorem writtenEach_eq (es : List Employee) : writtenEach es = es.map written := by
  induction es with
  | nil => rfl
  | cons e es ih => rw [writtenEach, ih, List.map_cons]

@[simp] theorem particulars_written (e : Employee) :
    e.written.particulars = e.particulars.written := by
  cases e
  rfl

@[simp] theorem manager_written (e : Employee) : e.written.manager = e.manager.map written := by
  obtain ⟨particulars, manager, colleagues, additional⟩ := e
  cases manager <;> rfl

@[simp] theorem colleagues_written (e : Employee) :
    e.written.colleagues = e.colleagues.map (·.map written) := by
  obtain ⟨particulars, manager, colleagues, additional⟩ := e
  cases colleagues with
  | none => rfl
  | some es => exact congrArg some (writtenEach_eq es)

@[simp] theorem additional_written (e : Employee) : e.written.additional = e.additional := by
  cases e
  rfl

mutual

theorem write_written : ∀ (e : Employee) (key : Option String), e.written.write key = e.write key
  | ⟨particulars, manager, colleagues, additional⟩, key => by
      rw [written, write, write, particulars.scripts_written, writeManager_written manager,
        writeColleagues_written colleagues]

theorem writeManager_written : ∀ m : Option Employee,
    writeManager (writtenManager m) = writeManager m
  | none => rfl
  | some m => write_written m (some "manager")

theorem writeColleagues_written : ∀ c : Option (List Employee),
    writeColleagues (writtenColleagues c) = writeColleagues c
  | none => rfl
  | some es => by rw [writtenColleagues, writeColleagues, writeColleagues, writeEach_written es]

theorem writeEach_written : ∀ es : List Employee, writeEach (writtenEach es) = writeEach es
  | [] => rfl
  | e :: es => by
      rw [writtenEach, writeEach, writeEach, write_written e none, writeEach_written es]

end

theorem Everywhere.written {P Q : Employee → Prop} {e : Employee} (h : e.Everywhere P)
    (hPQ : ∀ e, P e → Q e.written) : e.written.Everywhere Q := by
  induction h with
  | @mk e self _ _ hmanager hcolleagues =>
      refine .mk (hPQ e self) ?_ ?_
      · rw [manager_written, Option.forall_mem_map]
        exact hmanager
      · rw [colleagues_written, Option.forall_mem_map]
        intro es hes
        rw [List.forall_mem_map]
        exact hcolleagues es hes

/-- Employees that have flags only are written as they are. -/
theorem written_eq_self {e : Employee}
    (h : e.Everywhere fun e => ∀ s ∈ e.particulars.permissions, s.Known) : e.written = e := by
  induction h with
  | @mk e self _ _ hmanager hcolleagues =>
      obtain ⟨particulars, manager, colleagues, additional⟩ := e
      have hparticulars : particulars.written = particulars := by
        cases hp : particulars.permissions with
        | none => rw [Particulars.written, hp, Option.bind_none, ← hp]
        | some s => rw [Particulars.written, hp, Option.bind_some, (self s hp).written?_eq, ← hp]
      have hm : writtenManager manager = manager := by
        cases manager with
        | none => rfl
        | some m => exact congrArg some (hmanager m rfl)
      have hc : writtenColleagues colleagues = colleagues := by
        cases colleagues with
        | none => rfl
        | some es =>
            rw [writtenColleagues, writtenEach_eq]
            exact congrArg some ((List.map_congr_left (hcolleagues es rfl)).trans es.map_id')
      rw [written, hparticulars, hm, hc]

theorem depth_written_le {P : Employee → Prop} {e : Employee} (h : e.Everywhere P) :
    e.written.depth ≤ e.depth := by
  induction h with
  | @mk e _ _ _ hmanager hcolleagues =>
      refine depth_le (fun m hm => ?_) ?_ ?_ fun hne => ?_
      · rw [particulars_written] at hm
        exact depth_particular_lt (Particulars.mem_present_written hm)
      · rw [manager_written, Option.forall_mem_map]
        exact fun m hm => Nat.lt_of_le_of_lt (hmanager m hm) (depth_manager_lt hm)
      · rw [colleagues_written, Option.forall_mem_map]
        intro es hes
        have hpos := depthEach_lt hes
        have heach : depthEach (es.map written) ≤ e.depth - 1 := by
          refine depthEach_le (List.forall_mem_map.mpr fun c hc => ?_)
          have hle := hcolleagues es hes c hc
          have hlt := depth_colleague_lt hes hc
          omega
        omega
      · rw [additional_written] at hne
        refine depth_pos fun hnil => hne ?_
        exact List.map_eq_nil_iff.mp (List.append_eq_nil_iff.mp hnil).2

theorem nesting_json_written_le {P : Employee → Prop} {e : Employee} (h : e.Everywhere P) :
    e.written.json.nesting ≤ e.json.nesting := by
  induction h with
  | @mk e _ _ _ hmanager hcolleagues =>
      have hmembers := Json.memberNesting_le_iff.mp (le_refl (Json.memberNesting
        (e.ownMembers ++ AdditionalData.json e.additional)))
      rw [json_eq e, Json.nesting]
      refine nesting_le (fun m hm => ?_) ?_ ?_ fun m hm => ?_
      · rw [particulars_written] at hm
        exact hmembers m (List.mem_append_left _
          (List.mem_append_left _ (Particulars.mem_present_written hm)))
      · rw [manager_written, Option.forall_mem_map]
        exact fun m hm => (hmanager m hm).trans
          (hmembers ("manager", m.json) (List.mem_append_left _ (mem_ownMembers_manager hm)))
      · rw [colleagues_written, Option.forall_mem_map]
        intro es hes
        have harray := hmembers ("colleagues", .array (jsonEach es))
          (List.mem_append_left _ (mem_ownMembers_colleagues hes))
        rw [Json.nesting, jsonEach_eq] at harray
        refine ⟨by omega, List.forall_mem_map.mpr fun c hc => ?_⟩
        have hle := hcolleagues es hes c hc
        have hitem := Json.itemNesting_le_iff.mp le_rfl c.json (List.mem_map_of_mem hc)
        omega
      · rw [additional_written] at hm
        exact hmembers (m.1, m.2.json) (List.mem_append_right _ (List.mem_map_of_mem hm))

/-! ### Times -/

theorem hasText_of_ends {p : Particulars}
    (h : (Writing.script (Field.scripts Particulars.fields p) : Writing Unit Unit).Ends) :
    ∀ t ∈ p.created, t.HasText := by
  intro t ht
  have hmem : Kind.dateTime.call (some "created") p.created ∈
      Field.scripts Particulars.fields p :=
    List.mem_flatMap.mpr ⟨⟨"created", Kind.dateTime.codec, Particulars.created,
      fun v p => { p with created := v }⟩, by simp [Particulars.fields],
      List.mem_singleton_self _⟩
  rw [Option.mem_def.mp ht] at hmem
  obtain ⟨c, hc⟩ := h.of_script _ hmem
  obtain ⟨s, hs, -⟩ := exists_of_map_ok hc
  exact (DateTime.wireText_eq_ok_iff.mp hs).1

theorem ends_each {es : List Employee} (h : (writeEach es).Ends) :
    ∀ c ∈ es, (c.write none).Ends := by
  induction es with
  | nil => exact List.forall_mem_nil _
  | cons e es ih =>
      rw [writeEach] at h
      obtain ⟨he, _, hes⟩ := h.of_bind
      exact List.forall_mem_cons.mpr ⟨he, ih hes⟩

/-- Nothing is written of an employee who has a time without a text, at any level. -/
theorem everywhere_hasText {P : Employee → Prop} {e : Employee} (h : e.Everywhere P)
    {key : Option String} (hends : (e.write key).Ends) :
    e.Everywhere fun e => ∀ t ∈ e.particulars.created, t.HasText := by
  induction h generalizing key with
  | @mk e _ _ _ hmanager hcolleagues =>
      rw [write_eq] at hends
      obtain ⟨hparticulars, _, hrest⟩ := hends.fields.of_bind
      obtain ⟨hm, _, hrest⟩ := hrest.of_bind
      obtain ⟨hc, -⟩ := hrest.of_bind
      refine .mk (hasText_of_ends hparticulars) (fun m hmem => ?_) fun es hes => ?_
      · rw [Option.mem_def.mp hmem, writeManager] at hm
        exact hmanager m hmem hm
      · rw [Option.mem_def.mp hes, writeColleagues] at hc
        obtain ⟨-, _, hc⟩ := hc.of_bind
        exact fun c hmem => hcolleagues es hes c hmem (ends_each hc.of_bind.1 c hmem)

end Employee

end Marshal
