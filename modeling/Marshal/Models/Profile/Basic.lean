import Marshal.Parsable
import Marshal.Store.Basic

/-!
A profile: a model whose properties all live in a store, among them other profiles. What is read is
set in the store.
-/

namespace Marshal

abbrev Profile := Store

namespace Profile

inductive Property
  | id
  | displayName
  | jobTitle
  | manager
  | reports
  deriving DecidableEq

namespace Property

def all : List Property := [id, displayName, jobTitle, manager, reports]

/-- The key in the store and the name on the wire. -/
def key : Property → String
  | id => "id"
  | displayName => "displayName"
  | jobTitle => "jobTitle"
  | manager => "manager"
  | reports => "reports"

def ofKey? (key : String) : Option Property :=
  all.find? (·.key == key)

end Property

/-- What a property may be set to, where nothing is an explicit null. -/
inductive Value
  | text (s : Option String)
  | profile (p : Option Profile)
  | profiles (ps : Option (List Profile))

def Value.held : Value → Held Store
  | text s => .ofScalar? .string s
  | profile p => .ofModel? p
  | profiles ps => .ofModels? ps

def set (p : Profile) (property : Property) (v : Value) : Profile :=
  Store.set p property.key v.held

/-- The text of a property, where it is one and the store shows it. -/
def text? (p : Profile) (property : Property) : Option String :=
  (Store.get? p property.key).bind (·.scalar? .string)

def manager? (p : Profile) : Option Profile :=
  (Store.get? p Property.manager.key).bind Held.model?

def reports? (p : Profile) : Option (List Profile) :=
  (Store.get? p Property.reports.key).bind Held.models?

def glance (p : Profile) : Glance where
  dirty := some (Store.dirtyKeys p)
  onlyChanged := Store.onlyChanged p

def textReader (property : Property) : FieldReader Profile := fun n =>
  .update fun p => return set p property (.text (← ReadM.ofResult n.text?))

def readers (self : Node → ReadM (Option Profile)) : FieldReaders Profile :=
  .ofList [
    (Property.id.key, textReader .id),
    (Property.displayName.key, textReader .displayName),
    (Property.jobTitle.key, textReader .jobTitle),
    (Property.manager.key, fun n => .update fun p =>
      return set p .manager (.profile (← self n))),
    (Property.reports.key, fun n => .update fun p =>
      return set p .reports (.profiles (← Parsable.readAll? self n)))]

instance : Parsable Profile where
  create _ := .ok Store.empty
  fieldReaders self _ := readers self
  glance := glance
  setInitialized := Store.setInitialized

end Profile

end Marshal
