import Marshal.Models.Permissions
import Marshal.Models.Status
import Marshal.Parsable
import Marshal.Writing

/-!
An employee: particulars of every kind, a manager and colleagues who are employees themselves, and
whatever undeclared fields came with them.
-/

namespace Marshal

structure Particulars where
  id : Option String := none
  displayName : Option String := none
  age : Option Int32 := none
  rank : Option Int64 := none
  level : Option UInt8 := none
  offset : Option Int8 := none
  ratio : Option Single := none
  score : Option Double := none
  price : Option Decimal := none
  active : Option Bool := none
  created : Option DateTime := none
  birthday : Option Date := none
  startTime : Option Clock := none
  tenure : Option Duration := none
  guid : Option Guid := none
  photo : Option Bytes := none
  status : Option Status := none
  permissions : Option Permissions := none
  tags : Option (List String) := none
  luckyNumbers : Option (List Int32) := none
  pastStatuses : Option (List Status) := none

namespace Particulars

def fields : List (Field Particulars) := [
  ⟨"id", Kind.string.codec, id, fun v p => { p with id := v }⟩,
  ⟨"displayName", Kind.string.codec, displayName, fun v p => { p with displayName := v }⟩,
  ⟨"age", Kind.int.codec, age, fun v p => { p with age := v }⟩,
  ⟨"rank", Kind.long.codec, rank, fun v p => { p with rank := v }⟩,
  ⟨"level", Kind.byte.codec, level, fun v p => { p with level := v }⟩,
  ⟨"offset", Kind.sbyte.codec, offset, fun v p => { p with offset := v }⟩,
  ⟨"ratio", Kind.float.codec, ratio, fun v p => { p with ratio := v }⟩,
  ⟨"score", Kind.double.codec, score, fun v p => { p with score := v }⟩,
  ⟨"price", Kind.decimal.codec, price, fun v p => { p with price := v }⟩,
  ⟨"active", Kind.bool.codec, active, fun v p => { p with active := v }⟩,
  ⟨"created", Kind.dateTime.codec, created, fun v p => { p with created := v }⟩,
  ⟨"birthday", Kind.date.codec, birthday, fun v p => { p with birthday := v }⟩,
  ⟨"startTime", Kind.time.codec, startTime, fun v p => { p with startTime := v }⟩,
  ⟨"tenure", Kind.timeSpan.codec, tenure, fun v p => { p with tenure := v }⟩,
  ⟨"guid", Kind.guid.codec, guid, fun v p => { p with guid := v }⟩,
  ⟨"photo", Kind.bytes.codec, photo, fun v p => { p with photo := v }⟩,
  ⟨"status", Status.wire.codec, status, fun v p => { p with status := v }⟩,
  ⟨"permissions", Permissions.wire.codec, permissions, fun v p => { p with permissions := v }⟩,
  ⟨"tags", Kind.string.listCodec, tags, fun v p => { p with tags := v }⟩,
  ⟨"luckyNumbers", Kind.int.listCodec, luckyNumbers, fun v p => { p with luckyNumbers := v }⟩,
  ⟨"pastStatuses", Status.wire.listCodec, pastStatuses, fun v p => { p with pastStatuses := v }⟩]

end Particulars

inductive Employee
  | mk (particulars : Particulars) (manager : Option Employee)
      (colleagues : Option (List Employee)) (additional : AdditionalData)

namespace Employee

def particulars : Employee → Particulars
  | ⟨p, _, _, _⟩ => p

def manager : Employee → Option Employee
  | ⟨_, m, _, _⟩ => m

def colleagues : Employee → Option (List Employee)
  | ⟨_, _, c, _⟩ => c

def additional : Employee → AdditionalData
  | ⟨_, _, _, a⟩ => a

def empty : Employee := ⟨{}, none, none, []⟩

instance : Inhabited Employee := ⟨empty⟩

def setManager (m : Option Employee) : Employee → Employee
  | ⟨p, _, c, a⟩ => ⟨p, m, c, a⟩

def setColleagues (c : Option (List Employee)) : Employee → Employee
  | ⟨p, m, _, a⟩ => ⟨p, m, c, a⟩

/-- Keeps an undeclared field. -/
def keep (key : String) (v : Untyped) : Employee → Employee
  | ⟨p, m, c, a⟩ => ⟨p, m, c, Members.put a key v⟩

/-- The particulars as a component, which is always there. -/
def particularsView : Projection Employee Particulars where
  get? e := some e.particulars
  set p | ⟨_, m, c, a⟩ => ⟨p, m, c, a⟩

theorem particularsView_lawful : particularsView.Lawful where
  get?_set := fun ⟨_, _, _, _⟩ _ _ => rfl
  set_get? := by
    rintro ⟨p, m, c, a⟩ b h
    cases h
    rfl
  set_set := fun ⟨_, _, _, _⟩ _ _ => rfl

def managerReader (self : Node → ReadM (Option Employee)) : FieldReader Employee := fun n =>
  .update fun e => return e.setManager (← self n)

def colleaguesReader (self : Node → ReadM (Option Employee)) : FieldReader Employee := fun n =>
  .update fun e => return e.setColleagues (← Parsable.readAll? self n)

/-- The readers of the fields that are employees, where `self` reads one. -/
def relationReaders (self : Node → ReadM (Option Employee)) : FieldReaders Employee :=
  .ofList [("manager", managerReader self), ("colleagues", colleaguesReader self)]

instance : Parsable Employee where
  create _ := .ok empty
  fieldReaders self _ :=
    ((Field.readers Particulars.fields).project particularsView).extend (relationReaders self)
  glance e := { extra := some e.additional.length }
  keep? := some keep

mutual

def write (key : Option String) : Employee → Writing Unit Unit
  | ⟨particulars, manager, colleagues, additional⟩ =>
    .plainObject key (some additional.length) do
      .script (Field.scripts Particulars.fields particulars)
      writeManager manager
      writeColleagues colleagues
      .perform (Output.writeAdditional additional)

def writeManager : Option Employee → Writing Unit Unit
  | none => return
  | some m => m.write (some "manager")

def writeColleagues : Option (List Employee) → Writing Unit Unit
  | none => return
  | some es => do
    .call (.startCollection (some "colleagues"))
    writeEach es
    .call .endCollection

def writeEach : List Employee → Writing Unit Unit
  | [] => return
  | e :: es => do
    e.write none
    writeEach es

end

instance : Writable Employee where
  outgoing e := .ofUnmarked e fun key => e.write key

end Employee

end Marshal
