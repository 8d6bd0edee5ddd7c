import Marshal.Node
import Marshal.Layer

/-!
Readers of the fields of a model, by name. Those of a component are lifted to a larger model by a
`Projection`, and two sets are joined by `extend`, where the second wins.
-/

namespace Marshal

/-- A step of reading: it may fail, and what has been logged stays. -/
abbrev ReadM := ExceptT Error (StateM Log)

def ReadM.ofResult {α : Type} (r : Result α) : ReadM α :=
  ExceptT.mk (pure r)

/-- How the reading ended, and what was logged. -/
def ReadM.exec {α : Type} (r : ReadM α) : Result α × Log :=
  (ExceptT.run r).run []

/-- A component of a model, which may be absent. -/
structure Projection (α β : Type) where
  get? : α → Option β
  set : β → α → α

/-- What a projection owes: a component that is there can be replaced, and nothing else changes. -/
structure Projection.Lawful {α β : Type} (p : Projection α β) : Prop where
  get?_set : ∀ (a : α) (b : β), (p.get? a).isSome → p.get? (p.set b a) = some b
  set_get? : ∀ (a : α) (b : β), p.get? a = some b → p.set b a = a
  set_set : ∀ (a : α) (b c : β), p.set c (p.set b a) = p.set c a

/-- A step of filling in a model: it may fail, and what it has made of the model and logged until
then stays. -/
abbrev FillM (α : Type) := ExceptT Error (StateT α (StateM Log))

namespace FillM

variable {α β : Type}

/-- The model that comes of a step; one that fails gives none. -/
def on (x : FillM α Unit) (a : α) : ReadM α :=
  ExceptT.mk do
    let (result, a') ← (ExceptT.run x).run a
    return result.map fun _ => a'

/-- Puts a new model in the place of the old one, which stays where there is an error. -/
def update (f : α → ReadM α) : FillM α Unit :=
  ExceptT.mk fun a => do
    match ← ExceptT.run (f a) with
    | .ok a' => return (.ok (), a')
    | .error e => return (.error e, a)

/-- A step on a component as one on the whole, which keeps what has become of the component also
where the step fails; without the component nothing is done. -/
def zoom (p : Projection α β) (x : FillM β Unit) : FillM α Unit :=
  ExceptT.mk fun a => do
    match p.get? a with
    | some b =>
      let (result, b') ← (ExceptT.run x).run b
      return (result, p.set b' a)
    | none => return (.ok (), a)

end FillM

/-- Reads a node into a model. -/
abbrev FieldReader (α : Type) := Node → FillM α Unit

structure FieldReaders (α : Type) where
  fields : Members (FieldReader α) := []

namespace FieldReaders

variable {α β : Type}

def empty : FieldReaders α := {}

def insert (rs : FieldReaders α) (key : String) (r : FieldReader α) : FieldReaders α :=
  ⟨rs.fields.put key r⟩

def ofList (l : List (String × FieldReader α)) : FieldReaders α :=
  ⟨Members.ofPairs l⟩

/-- Adds the readers of `other`, which win where both have one. -/
def extend (rs other : FieldReaders α) : FieldReaders α :=
  ⟨rs.fields.putAll other.fields⟩

def lift (p : Projection α β) (r : FieldReader β) : FieldReader α := fun n => (r n).zoom p

def project (p : Projection α β) (rs : FieldReaders β) : FieldReaders α :=
  ⟨rs.fields.map fun (k, r) => (k, lift p r)⟩

def get? (rs : FieldReaders α) (key : String) : Option (FieldReader α) :=
  rs.fields.get? key

def has (rs : FieldReaders α) (key : String) : Bool :=
  rs.fields.has key

def keys (rs : FieldReaders α) : List String :=
  rs.fields.keys

def length (rs : FieldReaders α) : Nat :=
  rs.fields.length

def debugText (rs : FieldReaders α) : String :=
  Text.quoteList rs.keys

@[simp] theorem keys_project (p : Projection α β) (rs : FieldReaders β) :
    (rs.project p).keys = rs.keys := by
  simp [project, keys, Members.keys, Function.comp_def]

theorem get?_project (p : Projection α β) (rs : FieldReaders β) (key : String) :
    (rs.project p).get? key = (rs.get? key).map (lift p) := by
  obtain ⟨fields⟩ := rs
  simp only [project, get?, Members.get?]
  induction fields with
  | nil => rfl
  | cons f fields ih =>
    obtain ⟨k, r⟩ := f
    simp only [List.map_cons, List.lookup_cons]
    cases key == k with
    | true => rfl
    | false => exact ih

end FieldReaders

end Marshal
