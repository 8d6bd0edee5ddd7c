import Mathlib.Data.Option.Basic
import Marshal.Models.Employee
import Marshal.Proofs.Field
import Marshal.Proofs.Json.Untyped

/-!
Employees in a JSON document: the object that one is written as, how deep it reaches, and which
employees come back from it.
-/

namespace Marshal

theorem Status.named (s : Status) : Status.wire.Named s := by
  cases s <;> decide

namespace Permissions

def memberBits : UInt64 :=
  (wire.members.map (·.value.bits)).foldl (· ||| ·) 0

/-- A union of members. -/
def Known (p : Permissions) : Prop :=
  p.bits &&& memberBits = p.bits

instance (p : Permissions) : Decidable p.Known :=
  inferInstanceAs (Decidable (_ = _))

theorem Known.named {p : Permissions} (h : p.Known) : Permissions.wire.Named p := by
  obtain ⟨bits⟩ := p
  have hbits : bits.toNat ≤ 15 := by
    have hand := congrArg UInt64.toNat h
    rw [UInt64.toNat_and] at hand
    exact hand ▸ Nat.and_le_right
  -- Four members make sixteen unions, few enough to look at each.
  have hall : ∀ k : Fin 16, wire.Named ⟨UInt64.ofNat k⟩ := by decide +kernel
  have hself := hall ⟨bits.toNat, by omega⟩
  rwa [UInt64.ofNat_toNat] at hself

end Permissions

namespace Particulars

def rows (p : Particulars) : List Field.Row := [
  ("id", p.id.map (Kind.json .string)),
  ("displayName", p.displayName.map (Kind.json .string)),
  ("age", p.age.map (Kind.json .int)),
  ("rank", p.rank.map (Kind.json .long)),
  ("level", p.level.map (Kind.json .byte)),
  ("offset", p.offset.map (Kind.json .sbyte)),
  ("ratio", p.ratio.map (Kind.json .float)),
  ("score", p.score.map (Kind.json .double)),
  ("price", p.price.map (Kind.json .decimal)),
  ("active", p.active.map (Kind.json .bool)),
  ("created", p.created.map (Kind.json .dateTime)),
  ("birthday", p.birthday.map (Kind.json .date)),
  ("startTime", p.startTime.map (Kind.json .time)),
  ("tenure", p.tenure.map (Kind.json .timeSpan)),
  ("guid", p.guid.map (Kind.json .guid)),
  ("photo", p.photo.map (Kind.json .bytes)),
  ("status", p.status.map Status.wire.json),
  ("permissions", p.permissions.map Permissions.wire.json),
  ("tags", p.tags.map fun l => .array (l.map (Kind.json .string))),
  ("luckyNumbers", p.luckyNumbers.map fun l => .array (l.map (Kind.json .int))),
  ("pastStatuses", p.pastStatuses.map fun l => .array (l.map Status.wire.json))]

def normalize (p : Particulars) : Particulars :=
  { p with price := p.price.map Decimal.normalize }

/-- The same but for how the price is written. -/
def Alike (p q : Particulars) : Prop :=
  { p with price := none } = { q with price := none } ∧
    p.price.map Decimal.units = q.price.map Decimal.units

theorem alike_normalize (p : Particulars) : p.Alike p.normalize := by
  refine ⟨rfl, ?_⟩
  simp [normalize, Function.comp_def, Decimal.units_normalize]

/-- All that JSON brings back. -/
structure Portable (p : Particulars) : Prop where
  ratio : p.ratio = none
  score : p.score = none
  created : ∀ t ∈ p.created, t.HasText
  tenure : ∀ d ∈ p.tenure, d.seconds ≠ -(secondsLimit : Int)
  permissions : ∀ s ∈ p.permissions, s.Known

theorem settles (p : Particulars) : Field.Settles p fields {} p := by
  repeat' first | exact .nil _ | refine .cons rfl ?_

theorem Portable.carries {p : Particulars} (h : p.Portable) :
    List.Forall₂ (Field.Carries p p.normalize) fields p.rows :=
  .cons ⟨rfl, Kind.codec_carries_self (by decide) fun _ _ => trivial⟩ <|
  .cons ⟨rfl, Kind.codec_carries_self (by decide) fun _ _ => trivial⟩ <|
  .cons ⟨rfl, Kind.codec_carries_self (by decide) fun _ _ => trivial⟩ <|
  .cons ⟨rfl, Kind.codec_carries_self (by decide) fun _ _ => trivial⟩ <|
  .cons ⟨rfl, Kind.codec_carries_self (by decide) fun _ _ => trivial⟩ <|
  .cons ⟨rfl, Kind.codec_carries_self (by decide) fun _ _ => trivial⟩ <|
  .cons ⟨rfl, Kind.codec_carries_self (by decide) (by simp [h.ratio])⟩ <|
  .cons ⟨rfl, Kind.codec_carries_self (by decide) (by simp [h.score])⟩ <|
  .cons ⟨rfl, Kind.codec_carries fun _ _ => trivial⟩ <|
  .cons ⟨rfl, Kind.codec_carries_self (by decide) fun _ _ => trivial⟩ <|
  .cons ⟨rfl, Kind.codec_carries_self (by decide) h.created⟩ <|
  .cons ⟨rfl, Kind.codec_carries_self (by decide) fun _ _ => trivial⟩ <|
  .cons ⟨rfl, Kind.codec_carries_self (by decide) fun _ _ => trivial⟩ <|
  .cons ⟨rfl, Kind.codec_carries_self (by decide) h.tenure⟩ <|
  .cons ⟨rfl, Kind.codec_carries_self (by decide) fun _ _ => trivial⟩ <|
  .cons ⟨rfl, Kind.codec_carries_self (by decide) fun _ _ => trivial⟩ <|
  .cons ⟨rfl, WireEnum.codec_carries fun s _ => s.named⟩ <|
  .cons ⟨rfl, WireEnum.codec_carries fun s hs => (h.permissions s hs).named⟩ <|
  .cons ⟨rfl, Kind.listCodec_carries_self (by decide) fun _ _ _ _ => trivial⟩ <|
  .cons ⟨rfl, Kind.listCodec_carries_self (by decide) fun _ _ _ _ => trivial⟩ <|
  .cons ⟨rfl, WireEnum.listCodec_carries fun _ _ s _ => s.named⟩ .nil

/-- All that JSON has values for. -/
structure Expressible (p : Particulars) : Prop where
  created : ∀ t ∈ p.created, t.HasText
  permissions : ∀ s ∈ p.permissions, s.Known

theorem Portable.expressible {p : Particulars} (h : p.Portable) : p.Expressible :=
  ⟨h.created, h.permissions⟩

theorem Expressible.writes {p : Particulars} (h : p.Expressible) :
    List.Forall₂ (Field.Writes p) fields p.rows :=
  .cons ⟨rfl, Kind.adds_codec (k := .string) (fun _ _ => trivial) _⟩ <|
  .cons ⟨rfl, Kind.adds_codec (k := .string) (fun _ _ => trivial) _⟩ <|
  .cons ⟨rfl, Kind.adds_codec (k := .int) (fun _ _ => trivial) _⟩ <|
  .cons ⟨rfl, Kind.adds_codec (k := .long) (fun _ _ => trivial) _⟩ <|
  .cons ⟨rfl, Kind.adds_codec (k := .byte) (fun _ _ => trivial) _⟩ <|
  .cons ⟨rfl, Kind.adds_codec (k := .sbyte) (fun _ _ => trivial) _⟩ <|
  .cons ⟨rfl, Kind.adds_codec (k := .float) (fun _ _ => trivial) _⟩ <|
  .cons ⟨rfl, Kind.adds_codec (k := .double) (fun _ _ => trivial) _⟩ <|
  .cons ⟨rfl, Kind.adds_codec (k := .decimal) (fun _ _ => trivial) _⟩ <|
  .cons ⟨rfl, Kind.adds_codec (k := .bool) (fun _ _ => trivial) _⟩ <|
  .cons ⟨rfl, Kind.adds_codec (k := .dateTime) h.created _⟩ <|
  .cons ⟨rfl, Kind.adds_codec (k := .date) (fun _ _ => trivial) _⟩ <|
  .cons ⟨rfl, Kind.adds_codec (k := .time) (fun _ _ => trivial) _⟩ <|
  .cons ⟨rfl, Kind.adds_codec (k := .timeSpan) (fun _ _ => trivial) _⟩ <|
  .cons ⟨rfl, Kind.adds_codec (k := .guid) (fun _ _ => trivial) _⟩ <|
  .cons ⟨rfl, Kind.adds_codec (k := .bytes) (fun _ _ => trivial) _⟩ <|
  .cons ⟨rfl, (WireEnum.codec_carries fun s _ => s.named).adds _⟩ <|
  .cons ⟨rfl, (WireEnum.codec_carries fun s hs => (h.permissions s hs).named).adds _⟩ <|
  .cons ⟨rfl, (Kind.listCodec_carries (k := .string) fun _ _ _ _ => trivial).adds _⟩ <|
  .cons ⟨rfl, (Kind.listCodec_carries (k := .int) fun _ _ _ _ => trivial).adds _⟩ <|
  .cons ⟨rfl, (WireEnum.listCodec_carries fun _ _ s _ => s.named).adds _⟩ .nil

end Particulars

namespace Employee

def declared : List String :=
  Particulars.fields.map (·.name) ++ ["manager", "colleagues"]

mutual

def json : Employee → Json
  | ⟨particulars, manager, colleagues, additional⟩ =>
    .object (Field.present particulars.rows ++ (managerMembers manager ++
      (colleagueMembers colleagues ++ AdditionalData.json additional)))

def managerMembers : Option Employee → Members Json
  | none => []
  | some m => [("manager", json m)]

def colleagueMembers : Option (List Employee) → Members Json
  | none => []
  | some es => [("colleagues", .array (jsonEach es))]

def jsonEach : List Employee → List Json
  | [] => []
  | e :: es => json e :: jsonEach es

end

theorem jsonEach_eq (es : List Employee) : jsonEach es = es.map json := by
  induction es with
  | nil => rfl
  | cons e es ih => rw [jsonEach, ih, List.map_cons]

def ownMembers (e : Employee) : Members Json :=
  Field.present e.particulars.rows ++ (managerMembers e.manager ++ colleagueMembers e.colleagues)

theorem json_eq (e : Employee) :
    e.json = .object (e.ownMembers ++ AdditionalData.json e.additional) := by
  obtain ⟨particulars, manager, colleagues, additional⟩ := e
  simp only [json, ownMembers, Employee.particulars, Employee.manager, Employee.colleagues,
    Employee.additional, List.append_assoc]

/-- The members that are declared, where `rows` are those of the particulars. -/
def declaredMembers (rows : List Field.Row) (manager : Option Json)
    (colleagues : Option (List Json)) : Members Json :=
  Field.present rows ++ (manager.toList.map ("manager", ·) ++
    colleagues.toList.map fun vs => ("colleagues", .array vs))

theorem ownMembers_eq (e : Employee) :
    e.ownMembers = declaredMembers e.particulars.rows (e.manager.map json)
      (e.colleagues.map (·.map json)) := by
  obtain ⟨particulars, manager, colleagues, additional⟩ := e
  cases manager <;> cases colleagues <;> simp [ownMembers, declaredMembers, managerMembers,
    colleagueMembers, jsonEach_eq, Employee.manager, Employee.colleagues, Employee.particulars]

theorem keys_declaredMembers {rows : List Field.Row}
    (hrows : rows.map Prod.fst = Particulars.fields.map (·.name)) (manager : Option Json)
    (colleagues : Option (List Json)) :
    (Members.keys (declaredMembers rows manager colleagues)).Sublist declared := by
  have hfields := Field.keys_present rows
  rw [hrows] at hfields
  have hmanager : (Members.keys (manager.toList.map ("manager", ·))).Sublist ["manager"] := by
    cases manager <;> simp [Members.keys]
  have hcolleagues : (Members.keys (colleagues.toList.map fun vs =>
      ("colleagues", Json.array vs))).Sublist ["colleagues"] := by
    cases colleagues <;> simp [Members.keys]
  simp only [declaredMembers, Members.keys, List.map_append]
  exact hfields.append (hmanager.append hcolleagues)

section

variable {rows : List Field.Row}

theorem get?_declaredMembers (hrows : rows.map Prod.fst = Particulars.fields.map (·.name))
    (manager : Option Json) (colleagues : Option (List Json)) {name : String}
    (h : name ∉ Particulars.fields.map (·.name)) :
    Members.get? (declaredMembers rows manager colleagues) name =
      Members.get? (manager.toList.map ("manager", ·) ++
        colleagues.toList.map fun vs => ("colleagues", .array vs)) name := by
  have hnone : List.lookup name (Field.present rows) = none :=
    Members.get?_eq_none_iff.mpr fun hmem => h (hrows ▸ (Field.keys_present _).subset hmem)
  rw [declaredMembers, Members.get?, List.lookup_append, hnone, Option.none_or]
  rfl

theorem get?_declaredMembers_manager
    (hrows : rows.map Prod.fst = Particulars.fields.map (·.name)) (manager : Option Json)
    (colleagues : Option (List Json)) :
    Members.get? (declaredMembers rows manager colleagues) "manager" = manager := by
  rw [get?_declaredMembers hrows manager colleagues (by decide)]
  cases manager <;> cases colleagues <;> rfl

theorem get?_declaredMembers_colleagues
    (hrows : rows.map Prod.fst = Particulars.fields.map (·.name)) (manager : Option Json)
    (colleagues : Option (List Json)) :
    Members.get? (declaredMembers rows manager colleagues) "colleagues" =
      colleagues.map .array := by
  rw [get?_declaredMembers hrows manager colleagues (by decide)]
  cases manager <;> cases colleagues <;> rfl

end

theorem keys_ownMembers (e : Employee) : (Members.keys e.ownMembers).Sublist declared := by
  rw [ownMembers_eq]
  exact keys_declaredMembers rfl _ _

theorem nodup_declared : declared.Nodup := by
  decide

def bare : Employee → Employee
  | ⟨particulars, manager, colleagues, _⟩ => ⟨particulars, manager, colleagues, []⟩

@[simp] theorem particulars_bare (e : Employee) : e.bare.particulars = e.particulars := by
  cases e
  rfl

@[simp] theorem manager_bare (e : Employee) : e.bare.manager = e.manager := by
  cases e
  rfl

@[simp] theorem colleagues_bare (e : Employee) : e.bare.colleagues = e.colleagues := by
  cases e
  rfl

@[simp] theorem additional_bare (e : Employee) : e.bare.additional = [] := by
  cases e
  rfl

def membersDepth (members : Members Json) : Nat :=
  (members.map (·.2.depth + 1)).foldr max 0

mutual

/-- How many steps below its own node the nodes of an employee reach. Undeclared fields have a node
each, and none for what lies within. -/
def depth : Employee → Nat
  | ⟨particulars, manager, colleagues, additional⟩ =>
    max (membersDepth (Field.present particulars.rows)) <|
      max (managerDepth manager) <| max (colleaguesDepth colleagues) <|
        if additional.isEmpty then 0 else 1

def managerDepth : Option Employee → Nat
  | none => 0
  | some m => depth m + 1

def colleaguesDepth : Option (List Employee) → Nat
  | none => 0
  | some es => depthEach es + 1

def depthEach : List Employee → Nat
  | [] => 0
  | e :: es => max (depth e + 1) (depthEach es)

end

mutual

def normalize : Employee → Employee
  | ⟨particulars, manager, colleagues, additional⟩ =>
    ⟨particulars.normalize, normalizeManager manager, normalizeColleagues colleagues, additional⟩

def normalizeManager : Option Employee → Option Employee
  | none => none
  | some m => some (normalize m)

def normalizeColleagues : Option (List Employee) → Option (List Employee)
  | none => none
  | some es => some (normalizeEach es)

def normalizeEach : List Employee → List Employee
  | [] => []
  | e :: es => normalize e :: normalizeEach es

end

theorem normalizeEach_eq (es : List Employee) : normalizeEach es = es.map normalize := by
  induction es with
  | nil => rfl
  | cons e es ih => rw [normalizeEach, ih, List.map_cons]

/-- The same employee at every level, but for how prices are written. -/
inductive Alike : Employee → Employee → Prop
  | mk {p q : Particulars} {m n : Option Employee} {c d : Option (List Employee)}
      (additional : AdditionalData) (particulars : p.Alike q) (manager : Option.Rel Alike m n)
      (colleagues : Option.Rel (List.Forall₂ Alike) c d) :
      Alike ⟨p, m, c, additional⟩ ⟨q, n, d, additional⟩

/-- `P` of the employee and of everybody above and beside, to any depth. -/
inductive Everywhere (P : Employee → Prop) : Employee → Prop
  | mk {e : Employee} (self : P e) (manager : ∀ m ∈ e.manager, Everywhere P m)
      (colleagues : ∀ es ∈ e.colleagues, ∀ c ∈ es, Everywhere P c) : Everywhere P e

/-- What JSON brings back of one employee, managers and colleagues apart. -/
structure Portable (e : Employee) : Prop where
  particulars : e.particulars.Portable
  exact : ∀ m ∈ e.additional, m.2.Exact
  names : (Members.keys e.additional).Nodup
  undeclared : ∀ key ∈ Members.keys e.additional, key ∉ declared

/-- As `Portable`, but undeclared fields may have doubles that are finite. -/
structure Lasting (e : Employee) : Prop where
  particulars : e.particulars.Portable
  sound : ∀ m ∈ e.additional, m.2.Sound
  names : (Members.keys e.additional).Nodup
  undeclared : ∀ key ∈ Members.keys e.additional, key ∉ declared

/-- As `Lasting`, but all fields that can be written may have a value. -/
structure Expressible (e : Employee) : Prop where
  particulars : e.particulars.Expressible
  sound : ∀ m ∈ e.additional, m.2.Sound
  names : (Members.keys e.additional).Nodup
  undeclared : ∀ key ∈ Members.keys e.additional, key ∉ declared

theorem Lasting.expressible {e : Employee} (h : e.Lasting) : e.Expressible :=
  ⟨h.particulars.expressible, h.sound, h.names, h.undeclared⟩

theorem Portable.lasting {e : Employee} (h : e.Portable) : e.Lasting :=
  ⟨h.particulars, fun m hm => (h.exact m hm).sound, h.names, h.undeclared⟩

theorem Everywhere.mono {P Q : Employee → Prop} {e : Employee} (h : e.Everywhere P)
    (hPQ : ∀ e, P e → Q e) : e.Everywhere Q := by
  induction h with
  | mk self _ _ hmanager hcolleagues => exact .mk (hPQ _ self) hmanager hcolleagues

theorem Everywhere.and {P Q : Employee → Prop} {e : Employee} (hP : e.Everywhere P)
    (hQ : e.Everywhere Q) : e.Everywhere fun e => P e ∧ Q e := by
  induction hP with
  | mk self _ _ hmanager hcolleagues =>
      obtain ⟨self', manager', colleagues'⟩ := hQ
      exact .mk ⟨self, self'⟩ (fun m hm => hmanager m hm (manager' m hm))
        fun es hes c hc => hcolleagues es hes c hc (colleagues' es hes c hc)

theorem everywhere_alone {P : Employee → Prop} {p : Particulars} {data : AdditionalData}
    (h : P ⟨p, none, none, data⟩) : Everywhere P ⟨p, none, none, data⟩ :=
  .mk h (fun _ hm => absurd hm (Option.not_mem_none _)) fun _ hes =>
    absurd hes (Option.not_mem_none _)

theorem Expressible.nodup_keys {e : Employee} (h : e.Expressible) :
    (Members.keys e.ownMembers ++ Members.keys (AdditionalData.json e.additional)).Nodup := by
  rw [AdditionalData.json, Members.keys_mapValues]
  refine List.nodup_append.mpr ⟨nodup_declared.sublist e.keys_ownMembers, h.names, ?_⟩
  rintro key hown _ hkey rfl
  exact h.undeclared key hkey (e.keys_ownMembers.subset hown)

mutual

theorem alike_normalize : ∀ e : Employee, e.Alike e.normalize
  | ⟨particulars, manager, colleagues, additional⟩ => by
      rw [normalize]
      exact .mk additional particulars.alike_normalize (alike_normalizeManager manager)
        (alike_normalizeColleagues colleagues)

theorem alike_normalizeManager : ∀ m : Option Employee,
    Option.Rel Alike m (normalizeManager m)
  | none => .none
  | some m => .some (alike_normalize m)

theorem alike_normalizeColleagues : ∀ c : Option (List Employee),
    Option.Rel (List.Forall₂ Alike) c (normalizeColleagues c)
  | none => .none
  | some es => .some (alike_normalizeEach es)

theorem alike_normalizeEach : ∀ es : List Employee, List.Forall₂ Alike es (normalizeEach es)
  | [] => .nil
  | e :: es => .cons (alike_normalize e) (alike_normalizeEach es)

end

end Employee

end Marshal
